import PacketQuery.Report.Csv
/-!
What comma-separated values say to a reader that keeps to their usual rules. Fields stand between
commas; a field with a comma, a quotation mark or a part of a line end has to stand in quotation
marks, those inside it doubled. Records end with a line feed, before which a carriage return may
stand, and the last one may also end with the text. The reader accepts the texts of this grammar
and no others.
-/

namespace PacketQuery.Report

/-- Whether the character may stand in a field without quotation marks. -/
def isPlain (c : Char) : Bool :=
  !isSpecial c && c != '\r'

/-- In quotation marks, those inside doubled. -/
def inMarks (text : String) : List Char :=
  '"' :: doubled text.toList ++ ['"']

/-! ### The grammar -/

/-- The texts that stand for a field. -/
inductive IsField : String → List Char → Prop
  | plain (field : String) : (∀ c ∈ field.toList, isPlain c) → IsField field field.toList
  | quoted (field : String) : IsField field (inMarks field)

inductive IsLineEnd : List Char → Prop
  | feed : IsLineEnd ['\n']
  | returnFeed : IsLineEnd ['\r', '\n']

/-- The texts that may follow a field: further fields of its record, then further records. -/
inductive IsTail : List String → List (List String) → List Char → Prop
  | stop : IsTail [] [] []
  | lastEnd {e} : IsLineEnd e → IsTail [] [] e
  | field {f fs rs w t} : IsField f w → IsTail fs rs t → IsTail (f :: fs) rs (',' :: (w ++ t))
  | record {e f fs rs w t} : IsLineEnd e → IsField f w → IsTail fs rs t → w ++ t ≠ [] →
      IsTail [] ((f :: fs) :: rs) (e ++ (w ++ t))

/-- The texts that hold records of fields. -/
inductive Holds : List (List String) → List Char → Prop
  | empty : Holds [] []
  | records {f fs rs w t} : IsField f w → IsTail fs rs t → w ++ t ≠ [] →
      Holds ((f :: fs) :: rs) (w ++ t)

section Grammar

variable {f : String} {fs : List String} {rs : List (List String)} {t : List Char}

theorem Holds.after_lineEnd {e : List Char} (lineEnd : IsLineEnd e) (holds : Holds rs t) :
    IsTail [] rs (e ++ t) := by
  cases holds with
  | empty => simpa using IsTail.lastEnd lineEnd
  | records field tail some_ => exact .record lineEnd field tail some_

theorem IsTail.head_eq {c : Char} (tail : IsTail fs rs (c :: t)) :
    c = ',' ∨ c = '\n' ∨ c = '\r' := by
  generalize shape : c :: t = text at tail
  cases tail with
  | stop => cases shape
  | field => exact .inl (List.cons.inj shape).1
  | lastEnd lineEnd | record lineEnd =>
    cases lineEnd with
    | feed => exact .inr (.inl (List.cons.inj shape).1)
    | returnFeed => exact .inr (.inr (List.cons.inj shape).1)

theorem isTail_comma_iff : IsTail (f :: fs) rs (',' :: t) ↔
    ∃ w u, t = w ++ u ∧ IsField f w ∧ IsTail fs rs u := by
  constructor
  · rintro (_ | _ | ⟨field, tail⟩)
    exact ⟨_, _, rfl, field, tail⟩
  · rintro ⟨w, u, rfl, field, tail⟩
    exact .field field tail

theorem isTail_feed_iff : IsTail [] rs ('\n' :: t) ↔ Holds rs t := by
  constructor
  · intro tail
    generalize shape : '\n' :: t = text at tail
    cases tail with
    | stop => cases shape
    | lastEnd lineEnd =>
      cases lineEnd with
      | feed =>
        rw [(List.cons.inj shape).2]
        exact .empty
      | returnFeed => simp at shape
    | record lineEnd field tail some_ =>
      cases lineEnd with
      | feed =>
        rw [List.singleton_append, List.cons.injEq] at shape
        rw [shape.2]
        exact .records field tail some_
      | returnFeed => simp at shape
  · exact Holds.after_lineEnd .feed

theorem holds_cons_iff (some_ : t ≠ []) : Holds ((f :: fs) :: rs) t ↔
    ∃ w u, t = w ++ u ∧ IsField f w ∧ IsTail fs rs u := by
  constructor
  · rintro (_ | ⟨field, tail, _⟩)
    exact ⟨_, _, rfl, field, tail⟩
  · rintro ⟨w, u, rfl, field, tail⟩
    exact .records field tail some_

end Grammar

/-! ### The reader -/

/-- Where a reader stands. -/
inductive Place
  /-- At the start of a field. -/
  | start
  /-- In a field without quotation marks. -/
  | plain
  /-- Between quotation marks. -/
  | quoted
  /-- After a quotation mark that closes the field, unless another one follows. -/
  | closed
  /-- After a carriage return. -/
  | returned
  deriving DecidableEq, Repr

/-- What a reader finds from its place on. -/
structure Rest where
  /-- The rest of the field it is in. -/
  field : List Char := []
  /-- The further fields of the record. -/
  fields : List String := []
  /-- The further records. -/
  records : List (List String) := []
  deriving DecidableEq, Repr

namespace Rest

/-- The record that starts here. -/
def record (r : Rest) : List String :=
  String.ofList r.field :: r.fields

/-- With a character of the field before. -/
def keep (c : Char) (r : Rest) : Rest :=
  { r with field := c :: r.field }

/-- What a comma and then `r` say. -/
def afterComma (r : Rest) : Rest :=
  { fields := r.record, records := r.records }

end Rest

/-- The records of a text that says `r` where it is not empty. -/
def allRecords (text : List Char) (r : Option Rest) : Option (List (List String)) :=
  if text.isEmpty then some [] else r.map fun r => r.record :: r.records

/-- Reads on from a place. -/
def readFrom : Place → List Char → Option Rest
  | place, [] => if place = .quoted ∨ place = .returned then none else some {}
  | .quoted, c :: cs =>
    if c = '"' then readFrom .closed cs else (readFrom .quoted cs).map (Rest.keep c)
  | .returned, c :: cs =>
    if c = '\n' then (allRecords cs (readFrom .start cs)).map fun rs => { records := rs } else none
  | place, c :: cs =>
    if c = ',' then (readFrom .start cs).map Rest.afterComma
    else if c = '\n' then (allRecords cs (readFrom .start cs)).map fun rs => { records := rs }
    else if c = '\r' then readFrom .returned cs
    else if c = '"' then
      match place with
      | .start => readFrom .quoted cs
      | .closed => (readFrom .quoted cs).map (Rest.keep c)
      | _ => none
    else if place = .closed then none else (readFrom .plain cs).map (Rest.keep c)

/-- The records of a text. -/
def read (text : String) : Option (List (List String)) :=
  allRecords text.toList (readFrom .start text.toList)

example : read "a,\"b\"\"\n\",\r\n,c" = some [["a", "b\"\n", ""], ["", "c"]] := by decide

/-! ### The reader takes what the grammar allows -/

/-- Whether a field may end at the place. -/
def Place.IsOutside (place : Place) : Prop :=
  place ≠ .quoted ∧ place ≠ .returned

section Step

variable {place : Place} {r : Rest} {c : Char} {cs : List Char}

theorem readFrom_comma (outside : place.IsOutside) :
    readFrom place (',' :: cs) = (readFrom .start cs).map Rest.afterComma := by
  obtain ⟨unquoted, same⟩ := outside
  cases place <;> first | contradiction | rfl

theorem readFrom_lineEnd {e : List Char} (outside : place.IsOutside) (lineEnd : IsLineEnd e)
    (cs : List Char) : readFrom place (e ++ cs) =
      (allRecords cs (readFrom .start cs)).map fun rs => { records := rs } := by
  obtain ⟨unquoted, same⟩ := outside
  cases lineEnd <;> cases place <;> first | contradiction | rfl

theorem readFrom_plain (outside : place ≠ .quoted ∧ place ≠ .returned ∧ place ≠ .closed)
    (plain : isPlain c) :
    readFrom place (c :: cs) = (readFrom .plain cs).map (Rest.keep c) := by
  simp only [isPlain, isSpecial, Bool.and_eq_true, Bool.not_eq_true', Bool.or_eq_false_iff,
    beq_eq_false_iff_ne, bne_iff_ne] at plain
  obtain ⟨⟨⟨comma, mark⟩, feed⟩, return_⟩ := plain
  obtain ⟨unquoted, same, opened⟩ := outside
  cases place <;> first | contradiction | simp [readFrom, comma, mark, feed, return_]

end Step

section Whole

variable {f : String} {fs : List String} {rs : List (List String)} {w t : List Char}

theorem readFrom_doubled (after : readFrom .closed t = some { fields := fs, records := rs })
    (cs : List Char) :
    readFrom .quoted (doubled cs ++ '"' :: t) = some ⟨cs, fs, rs⟩ := by
  induction cs with
  | nil => simpa [doubled, readFrom] using after
  | cons c cs ih =>
    by_cases mark : c = '"'
    · subst c
      simp [doubled, readFrom, ih, Rest.keep]
    · simp [doubled, readFrom, mark, ih, Rest.keep]

theorem readFrom_unquoted {cs : List Char} (plain : ∀ c ∈ cs, isPlain c)
    (after : readFrom .plain t = some { fields := fs, records := rs }) :
    readFrom .plain (cs ++ t) = some ⟨cs, fs, rs⟩ := by
  induction cs with
  | nil => exact after
  | cons c cs ih =>
    obtain ⟨first, others⟩ := List.forall_mem_cons.mp plain
    rw [List.cons_append, readFrom_plain (by decide) first, ih others]
    rfl

theorem IsField.readFrom_eq (field : IsField f w) (after : ∀ place : Place, place.IsOutside →
      readFrom place t = some { fields := fs, records := rs }) :
    readFrom .start (w ++ t) = some ⟨f.toList, fs, rs⟩ := by
  cases field with
  | quoted =>
    have closed := after .closed (by simp [Place.IsOutside])
    simpa [inMarks, readFrom] using readFrom_doubled closed f.toList
  | plain bare =>
    cases shape : f.toList with
    | nil => exact after .start (by simp [Place.IsOutside])
    | cons c cs =>
      rw [shape] at bare
      obtain ⟨first, others⟩ := List.forall_mem_cons.mp bare
      have plain := after .plain (by simp [Place.IsOutside])
      rw [List.cons_append, readFrom_plain (by decide) first, readFrom_unquoted others plain]
      rfl

theorem allRecords_eq (field : IsField f w) (after : ∀ place : Place, place.IsOutside →
      readFrom place t = some { fields := fs, records := rs }) (some_ : w ++ t ≠ []) :
    allRecords (w ++ t) (readFrom .start (w ++ t)) = some ((f :: fs) :: rs) := by
  rw [field.readFrom_eq after, allRecords, if_neg (by simpa using some_)]
  simp [Rest.record]

/-- What follows a field says the same wherever the field may end. -/
theorem IsTail.readFrom_eq (tail : IsTail fs rs t) : ∀ place : Place, place.IsOutside →
    readFrom place t = some { fields := fs, records := rs } := by
  induction tail with
  | stop =>
    rintro place ⟨unquoted, same⟩
    cases place <;> first | contradiction | rfl
  | lastEnd lineEnd =>
    intro place outside
    simpa [allRecords] using readFrom_lineEnd outside lineEnd []
  | field field _ ih =>
    intro place outside
    rw [readFrom_comma outside, field.readFrom_eq ih]
    simp [Rest.afterComma, Rest.record]
  | record lineEnd field _ some_ ih =>
    intro place outside
    rw [readFrom_lineEnd outside lineEnd, allRecords_eq field ih some_]
    rfl

end Whole

/-! ### The reader takes nothing else -/

/-- What the text behind a place is when it says `r`. -/
def Rest.IsBehind (r : Rest) : Place → List Char → Prop
  | .start, text => ∃ w t, text = w ++ t ∧ IsField (String.ofList r.field) w ∧
      IsTail r.fields r.records t
  | .plain, text => ∃ t, text = r.field ++ t ∧ (∀ c ∈ r.field, isPlain c) ∧
      IsTail r.fields r.records t
  | .quoted, text => ∃ t, text = doubled r.field ++ '"' :: t ∧ IsTail r.fields r.records t
  -- the mark before the place is taken again, since it may be the first of two
  | .closed, text => ∃ t, '"' :: text = doubled r.field ++ '"' :: t ∧ IsTail r.fields r.records t
  | .returned, text => ∃ t, text = '\n' :: t ∧ r.field = [] ∧ r.fields = [] ∧ Holds r.records t

namespace Rest.IsBehind

variable {place : Place} {r : Rest} {c : Char} {text : List Char}

theorem of_tail (outside : place.IsOutside) {fs : List String} {rs : List (List String)}
    (tail : IsTail fs rs text) : IsBehind { fields := fs, records := rs } place text := by
  obtain ⟨unquoted, same⟩ := outside
  cases place with
  | start => exact ⟨[], text, rfl, .plain "" (by simp), tail⟩
  | plain => exact ⟨text, rfl, by simp, tail⟩
  | closed => exact ⟨text, rfl, tail⟩
  | quoted => contradiction
  | returned => contradiction

theorem afterComma (outside : place.IsOutside) (behind : r.IsBehind .start text) :
    r.afterComma.IsBehind place (',' :: text) := by
  obtain ⟨w, t, rfl, field, tail⟩ := behind
  exact of_tail outside (.field field tail)

theorem lineEnd (outside : place.IsOutside) {e : List Char} {rs : List (List String)}
    (lineEnd : IsLineEnd e) (holds : Holds rs text) :
    IsBehind { records := rs } place (e ++ text) :=
  of_tail outside (holds.after_lineEnd lineEnd)

theorem keep_plain (outside : place = .start ∨ place = .plain) (plain : isPlain c)
    (behind : r.IsBehind .plain text) : (r.keep c).IsBehind place (c :: text) := by
  obtain ⟨t, rfl, others, tail⟩ := behind
  have all : ∀ d ∈ (r.keep c).field, isPlain d := List.forall_mem_cons.mpr ⟨plain, others⟩
  rcases outside with rfl | rfl
  · refine ⟨(r.keep c).field, t, rfl, ?_, tail⟩
    have field := IsField.plain (String.ofList (r.keep c).field) (by simpa using all)
    rwa [String.toList_ofList] at field
  · exact ⟨t, rfl, all, tail⟩

theorem keep_quoted (other : c ≠ '"') (behind : r.IsBehind .quoted text) :
    (r.keep c).IsBehind .quoted (c :: text) := by
  obtain ⟨t, rfl, tail⟩ := behind
  exact ⟨t, by simp [Rest.keep, doubled, other], tail⟩

theorem keep_mark (behind : r.IsBehind .quoted text) :
    (r.keep '"').IsBehind .closed ('"' :: text) := by
  obtain ⟨t, rfl, tail⟩ := behind
  exact ⟨t, by simp [Rest.keep, doubled], tail⟩

theorem opened (behind : r.IsBehind .quoted text) : r.IsBehind .start ('"' :: text) := by
  obtain ⟨t, rfl, tail⟩ := behind
  refine ⟨inMarks (String.ofList r.field), t, ?_, .quoted _, tail⟩
  simp [inMarks]

theorem holds (behind : r.IsBehind .start text) (some_ : text ≠ []) :
    Holds (r.record :: r.records) text := by
  obtain ⟨w, t, rfl, field, tail⟩ := behind
  exact .records field tail some_

end Rest.IsBehind

theorem holds_of_allRecords {cs : List Char} {r : Option Rest} {rs : List (List String)}
    (behind : ∀ s, r = some s → s.IsBehind .start cs) (all : allRecords cs r = some rs) :
    Holds rs cs := by
  unfold allRecords at all
  split at all
  next none_ =>
    rw [List.isEmpty_iff.mp none_, ← Option.some.inj all]
    exact .empty
  next some_ =>
    obtain ⟨s, found, rfl⟩ := Option.map_eq_some_iff.mp all
    exact (behind s found).holds (by simpa using some_)

section Step

variable {place : Place} {r : Rest} {c : Char} {cs : List Char}

theorem isBehind_separator (rest : ∀ place r, readFrom place cs = some r → r.IsBehind place cs)
    (outside : place.IsOutside) (separator : c = ',' ∨ c = '\n' ∨ c = '\r')
    (reads : readFrom place (c :: cs) = some r) : r.IsBehind place (c :: cs) := by
  rcases separator with rfl | rfl | rfl
  · rw [readFrom_comma outside] at reads
    obtain ⟨s, next, rfl⟩ := Option.map_eq_some_iff.mp reads
    exact (rest _ _ next).afterComma outside
  · rw [← List.singleton_append, readFrom_lineEnd outside .feed] at reads
    obtain ⟨rs, next, rfl⟩ := Option.map_eq_some_iff.mp reads
    exact .lineEnd outside .feed (holds_of_allRecords (rest _) next)
  · have returned : readFrom .returned cs = some r := by
      obtain ⟨unquoted, same⟩ := outside
      cases place <;> first | contradiction | exact reads
    obtain ⟨fs, rs⟩ := r
    obtain ⟨t, rfl, rfl, rfl, holds⟩ := rest _ _ returned
    exact .lineEnd outside .returnFeed holds

theorem isBehind_other (rest : ∀ place r, readFrom place cs = some r → r.IsBehind place cs)
    (outside : place.IsOutside) (other : ¬ (c = ',' ∨ c = '\n' ∨ c = '\r'))
    (reads : readFrom place (c :: cs) = some r) : r.IsBehind place (c :: cs) := by
  obtain ⟨comma, feed, return_⟩ : c ≠ ',' ∧ c ≠ '\n' ∧ c ≠ '\r' := by simpa [not_or] using other
  obtain ⟨unquoted, same⟩ := outside
  by_cases mark : c = '"'
  · subst c
    cases place with
    | start => exact (rest _ _ reads).opened
    | plain => cases reads
    | closed =>
      obtain ⟨s, next, rfl⟩ := Option.map_eq_some_iff.mp reads
      exact (rest _ _ next).keep_mark
    | quoted => contradiction
    | returned => contradiction
  · have plain : isPlain c := by simp [isPlain, isSpecial, comma, mark, feed, return_]
    by_cases closed : place = .closed
    · subst place
      simp [readFrom, comma, mark, feed, return_] at reads
    · rw [readFrom_plain ⟨unquoted, same, closed⟩ plain] at reads
      obtain ⟨s, next, rfl⟩ := Option.map_eq_some_iff.mp reads
      exact (rest _ _ next).keep_plain (by cases place <;> simp_all) plain

theorem isBehind_cons (rest : ∀ place r, readFrom place cs = some r → r.IsBehind place cs)
    (reads : readFrom place (c :: cs) = some r) : r.IsBehind place (c :: cs) := by
  cases place with
  | start | plain | closed =>
    by_cases separator : c = ',' ∨ c = '\n' ∨ c = '\r'
    · exact isBehind_separator rest (by simp [Place.IsOutside]) separator reads
    · exact isBehind_other rest (by simp [Place.IsOutside]) separator reads
  | quoted =>
    rw [readFrom] at reads
    split at reads
    next mark =>
      subst c
      exact rest _ _ reads
    next other =>
      obtain ⟨s, next, rfl⟩ := Option.map_eq_some_iff.mp reads
      exact (rest _ _ next).keep_quoted other
  | returned =>
    rw [readFrom] at reads
    split at reads
    next feed =>
      subst c
      obtain ⟨rs, next, rfl⟩ := Option.map_eq_some_iff.mp reads
      exact ⟨cs, rfl, rfl, rfl, holds_of_allRecords (rest _) next⟩
    next => cases reads

end Step

theorem readFrom_sound {place : Place} {text : List Char} {r : Rest}
    (reads : readFrom place text = some r) : r.IsBehind place text := by
  induction text generalizing place r with
  | nil =>
    rw [readFrom] at reads
    split at reads
    next => cases reads
    next outside =>
      cases reads
      exact .of_tail (not_or.mp outside) .stop
  | cons c cs ih => exact isBehind_cons (fun _ _ => ih) reads

/-- The reader finds just the records that a text holds by the grammar. -/
theorem read_eq_some_iff {text : String} {rs : List (List String)} :
    read text = some rs ↔ Holds rs text.toList := by
  constructor
  · exact holds_of_allRecords fun _ => readFrom_sound
  · rw [read]
    generalize text.toList = cs
    intro holds
    cases holds with
    | empty => rfl
    | records field tail some_ => exact allRecords_eq field tail.readFrom_eq some_

end PacketQuery.Report
