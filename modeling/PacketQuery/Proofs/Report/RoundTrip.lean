import PacketQuery.Proofs.Report.Reading
/-!
What is written as comma-separated values and then read again. A cell comes back unless it holds a
carriage return and nothing that asks for quotation marks. The name of a column comes back only
where it asks for no quotation marks, since it never gets any.
-/

namespace PacketQuery.Report

open Search (Result)

/-- A field as it is written, either as it is or in quotation marks. -/
structure WrittenField where
  field : String
  text : List Char
  either : text = field.toList ∨ text = inMarks field

namespace WrittenField

/-- Whether a reader takes the text for the field. -/
def IsRead (x : WrittenField) : Prop :=
  IsField x.field x.text

def ofName (name : String) : WrittenField :=
  ⟨name, name.toList, .inl rfl⟩

def ofCell (text : String) : WrittenField where
  field := text
  text := (csvCell text).toList
  either := by
    unfold csvCell
    split
    next => exact .inr (by simp [inMarks])
    next => exact .inl rfl

/-- What stands behind the first field of a line. -/
def others (xs : List WrittenField) : List Char :=
  xs.flatMap fun x => ',' :: x.text

def line : List WrittenField → List Char
  | [] => ['\n']
  | x :: xs => x.text ++ others xs ++ ['\n']

end WrittenField

/-! ### Where a field ends -/

/-- A text followed by another character than a quotation mark does not begin as in quotation
marks. The marks taken so far are as many on both sides, and one more on the right. -/
theorem append_ne_marks {c : Char} (other : c ≠ '"') (cs t u : List Char) (n : Nat) :
    cs ++ c :: t ≠ List.replicate (n + 1) '"' ++ (doubled cs ++ u) := by
  induction cs generalizing n with
  | nil =>
    intro same
    rw [List.replicate_succ, List.nil_append, List.cons_append] at same
    exact other (List.cons.inj same).1
  | cons d cs ih =>
    intro same
    rw [List.replicate_succ, List.cons_append, List.cons_append] at same
    obtain ⟨rfl, same⟩ := List.cons.inj same
    apply ih (n + 1)
    rw [same]
    simp [doubled, List.replicate_succ']

theorem append_ne_inMarks {c : Char} (other : c ≠ '"') (field : String) (t u : List Char) :
    field.toList ++ c :: t ≠ inMarks field ++ u := by
  simpa [inMarks] using append_ne_marks other field.toList t ('"' :: u) 0

theorem not_plain_mark : ¬ isPlain '"' := by decide

/-- Up to where a reader may stop after it, what is written can be taken for a field in one way. -/
theorem eq_of_split {field : String} {text : List Char}
    (either : text = field.toList ∨ text = inMarks field) {c : Char} (stop : c = ',' ∨ c = '\n')
    {fs : List String} {rs : List (List String)} {t w u : List Char}
    (split : text ++ c :: t = w ++ u) (read : IsField field w) (tail : IsTail fs rs u) :
    w = text := by
  have other : c ≠ '"' := by rcases stop with rfl | rfl <;> decide
  rcases either with rfl | rfl
  · cases read with
    | plain => rfl
    | quoted => exact absurd split (append_ne_inMarks other field t u)
  · cases read with
    | quoted => rfl
    | plain bare =>
      cases shape : field.toList with
      | nil =>
        rw [shape, List.nil_append] at split
        rw [← split] at tail
        have := tail.head_eq
        simp at this
      | cons d ds =>
        rw [shape] at split bare
        obtain rfl : '"' = d := (List.cons.inj split).1
        exact absurd (bare _ List.mem_cons_self) not_plain_mark

theorem WrittenField.split_iff (x : WrittenField) {c : Char} (stop : c = ',' ∨ c = '\n')
    {fs : List String} {rs : List (List String)} {t : List Char} :
    (∃ w u, x.text ++ c :: t = w ++ u ∧ IsField x.field w ∧ IsTail fs rs u) ↔
      x.IsRead ∧ IsTail fs rs (c :: t) := by
  constructor
  · rintro ⟨w, u, split, field, tail⟩
    obtain rfl := eq_of_split x.either stop split field tail
    exact ⟨field, List.append_cancel_left split ▸ tail⟩
  · rintro ⟨read, tail⟩
    exact ⟨x.text, c :: t, rfl, read, tail⟩

/-! ### Lines -/

namespace WrittenField

variable {rs : List (List String)} {t : List Char}

theorem others_append_feed (xs : List WrittenField) (t : List Char) :
    ∃ c u, others xs ++ '\n' :: t = c :: u ∧ (c = ',' ∨ c = '\n') := by
  cases xs with
  | nil => exact ⟨'\n', t, rfl, .inr rfl⟩
  | cons x xs => exact ⟨',', x.text ++ (others xs ++ '\n' :: t), by simp [others], .inl rfl⟩

theorem isTail_others_iff (xs : List WrittenField) :
    IsTail (xs.map field) rs (others xs ++ '\n' :: t) ↔ (∀ x ∈ xs, x.IsRead) ∧ Holds rs t := by
  induction xs with
  | nil => simpa [others] using isTail_feed_iff
  | cons x xs ih =>
    obtain ⟨c, u, next, stop⟩ := others_append_feed xs t
    have first : others (x :: xs) ++ '\n' :: t = ',' :: (x.text ++ (others xs ++ '\n' :: t)) := by
      simp [others]
    rw [first, List.map_cons, isTail_comma_iff, next, x.split_iff stop, ← next, ih,
      List.forall_mem_cons, and_assoc]

theorem holds_line_iff {xs : List WrittenField} (some_ : xs ≠ []) :
    Holds (xs.map field :: rs) (line xs ++ t) ↔ (∀ x ∈ xs, x.IsRead) ∧ Holds rs t := by
  cases xs with
  | nil => contradiction
  | cons x xs =>
    obtain ⟨c, u, next, stop⟩ := others_append_feed xs t
    have whole : line (x :: xs) ++ t = x.text ++ (others xs ++ '\n' :: t) := by simp [line]
    rw [whole, List.map_cons, holds_cons_iff (by simp), next, x.split_iff stop, ← next,
      isTail_others_iff, List.forall_mem_cons, and_assoc]

/-- Lines are read as what was written just where every field is. -/
theorem holds_lines_iff {rows : List (List WrittenField)} (some_ : ∀ xs ∈ rows, xs ≠ []) :
    Holds (rows.map (·.map field)) (rows.flatMap line) ↔ ∀ xs ∈ rows, ∀ x ∈ xs, x.IsRead := by
  induction rows with
  | nil => simpa using Holds.empty
  | cons xs rows ih =>
    obtain ⟨first, later⟩ := List.forall_mem_cons.mp some_
    rw [List.map_cons, List.flatMap_cons, holds_line_iff first, ih later, List.forall_mem_cons]

theorem line_eq_intercalate (xs : List WrittenField) :
    line xs = [','].intercalate (xs.map text) ++ ['\n'] := by
  match xs with
  | [] => rfl
  | [x] => simp [line, others]
  | x :: y :: xs =>
    have later := line_eq_intercalate (y :: xs)
    rw [List.map_cons, List.map_cons, List.intercalate_cons_cons, ← List.map_cons,
      List.append_assoc, List.append_assoc, ← later]
    simp [line, others]

theorem isRead_ofName_iff {name : String} :
    (ofName name).IsRead ↔ ∀ c ∈ name.toList, isPlain c := by
  constructor
  · intro read
    have read : IsField name name.toList := read
    generalize same : name.toList = text at read
    cases read with
    | plain bare => exact bare
    | quoted =>
      have := append_ne_inMarks (c := ',') (by decide) name [] [',']
      rw [same] at this
      contradiction
  · exact IsField.plain name

theorem isRead_ofCell_iff {text : String} :
    (ofCell text).IsRead ↔ ('\r' ∈ text.toList → ∃ c ∈ text.toList, isSpecial c) := by
  by_cases special : text.toList.any isSpecial
  · have marks : (ofCell text).text = inMarks text := by simp [ofCell, csvCell, special, inMarks]
    have read : (ofCell text).IsRead := by
      rw [IsRead, marks]
      exact .quoted text
    simpa [read] using fun _ => special
  · have bare : ofCell text = ofName text := by simp [ofCell, ofName, csvCell, special]
    have none_ : ∀ c ∈ text.toList, isSpecial c = false := by simpa using special
    rw [bare, isRead_ofName_iff]
    constructor
    · intro plain return_
      exact absurd (plain '\r' return_) (by decide)
    · intro marked c member
      have other : c ≠ '\r' := by
        rintro rfl
        obtain ⟨d, inside, special⟩ := marked member
        simp [none_ d inside] at special
      simp [isPlain, none_ c member, other]

end WrittenField

/-! ### Results -/

/-- The fields of a result as they are written, line by line. -/
def written (r : Result) : List (List WrittenField) :=
  r.columnNames.map .ofName :: r.rows.map fun row => (rowTexts r.columns row).map .ofCell

theorem toList_csv (r : Result) : (csv r).toList = (written r).flatMap WrittenField.line := by
  have name : (WrittenField.text ∘ WrittenField.ofName) = String.toList := rfl
  have cell : (WrittenField.text ∘ WrittenField.ofCell) = String.toList ∘ csvCell := rfl
  simp [csv, lines, written, Text.joined, String.toList_join, String.toList_intercalate,
    WrittenField.line_eq_intercalate, List.flatMap_map, name, cell, Function.comp_def]

/-- A result with at least one column and one value for each in every row is read back, names and
cells, just where no name asks for quotation marks and each cell with a carriage return also asks
for them by another character. -/
theorem read_csv_iff {r : Result} (some_ : r.columns ≠ [])
    (full : ∀ row ∈ r.rows, row.length = r.columns.length) :
    read (csv r) = some (r.columnNames :: r.rows.map (rowTexts r.columns)) ↔
      (∀ name ∈ r.columnNames, ∀ c ∈ name.toList, isPlain c) ∧
      ∀ texts ∈ r.rows.map (rowTexts r.columns), ∀ text ∈ texts,
        '\r' ∈ text.toList → ∃ c ∈ text.toList, isSpecial c := by
  have fields : (written r).map (·.map WrittenField.field) =
      r.columnNames :: r.rows.map (rowTexts r.columns) := by
    simp [written, Function.comp_def, WrittenField.ofName, WrittenField.ofCell]
  have cells : ∀ xs ∈ written r, xs ≠ [] := by
    rw [written, List.forall_mem_cons, List.forall_mem_map]
    refine ⟨by simpa [Result.columnNames] using some_, fun row member => ?_⟩
    have filled : row ≠ [] := by
      rw [← List.length_pos_iff, full row member]
      exact List.length_pos_iff.mpr some_
    simpa [rowTexts, Report.cells] using ⟨some_, filled⟩
  rw [read_eq_some_iff, toList_csv, ← fields, WrittenField.holds_lines_iff cells, written,
    List.forall_mem_cons, List.forall_mem_map, List.forall_mem_map]
  simp only [List.forall_mem_map, WrittenField.isRead_ofName_iff, WrittenField.isRead_ofCell_iff]

/-- Names without special characters, and a cell with all of them. -/
def specialCell : Result where
  columns := [⟨"dns.qname", .text⟩, ⟨"udp.len", .integer⟩]
  rows := [[.text "a,\"b\"\r\n", .int 40], [.null, .int 8]]

theorem read_csv_specialCell :
    specialCell.columns ≠ [] ∧
      (∀ row ∈ specialCell.rows, row.length = specialCell.columns.length) ∧
      read (csv specialCell) =
        some [["dns.qname", "udp.len"], ["a,\"b\"\r\n", "40"], ["", "8"]] := by
  have some_ : specialCell.columns ≠ [] := by decide
  have full : ∀ row ∈ specialCell.rows, row.length = specialCell.columns.length := by decide
  have texts : specialCell.rows.map (rowTexts specialCell.columns) =
      [["a,\"b\"\r\n", "40"], ["", "8"]] := by decide
  refine ⟨some_, full, texts ▸ (read_csv_iff some_ full).mpr ⟨?_, ?_⟩⟩
  · simp [specialCell, Result.columnNames, isPlain, isSpecial]
  · rw [texts]
    simp [isSpecial]

/-- A name with a comma. -/
def commaName : Result where
  columns := [⟨"a,b", .integer⟩]
  rows := [[.int 1]]

/-- A name with a comma is read as two names. -/
theorem read_csv_commaName :
    commaName.columns ≠ [] ∧
      (∀ row ∈ commaName.rows, row.length = commaName.columns.length) ∧
      read (csv commaName) = some [["a", "b"], ["1"]] ∧
      read (csv commaName) ≠
        some (commaName.columnNames :: commaName.rows.map (rowTexts commaName.columns)) := by
  decide

example : read (csv { columns := [⟨"name", .text⟩], rows := [[.text "a\rb"]] }) = none := by decide

end PacketQuery.Report
