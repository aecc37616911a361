import PacketQuery.Proofs.Catalog.Tables
/-!
The names of an archive's files. Every segment has a file and a table of its own, and no two of
these names or of the journals beside the tables are the same.
-/

namespace PacketQuery.Catalog

open Database (tableNames)
open Storage (IsName)

/-- The name of the file of a segment. -/
def segmentName (id : UInt32) : String :=
  toString id.toNat ++ ".pcap"

/-- The name of the table of a segment's entries. -/
def entriesName (id : UInt32) : String :=
  "segment_" ++ toString id.toNat ++ ".sqlite"

def extentsName : String := "master.sqlite"

theorem utf8ByteSize_ofList_le (cs : List Char) :
    (String.ofList cs).utf8ByteSize ≤ 4 * cs.length := by
  induction cs with
  | nil => exact Nat.le_refl 0
  | cons c cs ih =>
    have split : String.ofList (c :: cs) = String.singleton c ++ String.ofList cs := by
      rw [String.singleton_eq_ofList, ← String.ofList_append]
      rfl
    have width := c.utf8Size_le_four
    rw [split, String.utf8ByteSize_append, String.utf8ByteSize_singleton, List.length_cons]
    omega

section Number

variable (id : UInt32)

theorem toList_number : (toString id.toNat).toList = Nat.toDigits 10 id.toNat :=
  Nat.toList_repr

theorem slash_notMem_number : '/' ∉ (toString id.toNat).toList := by
  intro member
  rw [toList_number] at member
  have digit := Nat.isDigit_of_mem_toDigits (by decide) (by decide) member
  revert digit
  decide

theorem utf8ByteSize_number_le : (toString id.toNat).utf8ByteSize ≤ 40 := by
  have digits : (Nat.toDigits 10 id.toNat).length ≤ 10 := by
    rw [Nat.length_toDigits_le_iff (by decide) (by decide)]
    exact Nat.lt_trans id.toNat_lt (by decide)
  have size := utf8ByteSize_ofList_le (Nat.toDigits 10 id.toNat)
  rw [← toList_number, String.ofList_toList] at size
  rw [toList_number] at size
  omega

theorem number_inj {id j : UInt32} (same : (toString id.toNat).toList = (toString j.toNat).toList) :
    id = j := by
  rw [toList_number, toList_number] at same
  have value := congrArg (Nat.ofDigitChars 10 · 0) same
  simp only [Nat.ofDigitChars_ten_toDigits] at value
  exact UInt32.toNat_inj.mp value

end Number

/-- A number between short texts without slashes is a name. -/
theorem isName_numbered (before after : String) (id : UInt32) (first : '/' ∉ before.toList)
    (last : '/' ∉ after.toList) (short : before.utf8ByteSize + after.utf8ByteSize ≤ 200) :
    IsName (before ++ toString id.toNat ++ after) := by
  obtain ⟨digit, member⟩ :=
    List.exists_mem_of_ne_nil _ (Nat.toDigits_ne_nil (n := id.toNat) (b := 10))
  have isDigit := Nat.isDigit_of_mem_toDigits (by decide) (by decide) member
  have inside : digit ∈ (before ++ toString id.toNat ++ after).toList := by
    simp [member]
  refine ⟨?_, ?_, ?_, ?_, ?_⟩
  · intro same
    rw [same] at inside
    cases inside
  · have number := slash_notMem_number id
    simp only [String.toList_append, List.mem_append, not_or]
    exact ⟨⟨first, number⟩, last⟩
  · intro same
    rw [same] at inside
    rw [List.mem_singleton.mp inside] at isDigit
    revert isDigit
    decide
  · intro same
    rw [same] at inside
    have dot : digit = '.' := by simpa using inside
    rw [dot] at isDigit
    revert isDigit
    decide
  · have number := utf8ByteSize_number_le id
    rw [String.utf8ByteSize_append, String.utf8ByteSize_append]
    simp only [Storage.Path.maxNameLength]
    omega

theorem isName_segmentName (id : UInt32) : IsName (segmentName id) := by
  have name := isName_numbered "" ".pcap" id (by decide) (by decide)
    (by decide)
  rwa [String.empty_append] at name

theorem isTableFile_entriesName (id : UInt32) : IsTableFile (entriesName id) where
  file := isName_numbered _ _ id (by decide) (by decide) (by decide)
  journal := by
    have name := isName_numbered "segment_" (".sqlite" ++ "-journal") id
      (by decide) (by decide) (by decide)
    rwa [← String.append_assoc] at name

theorem isTableFile_extentsName : IsTableFile extentsName where
  file := ⟨by decide, by decide, by decide, by decide, by decide⟩
  journal := ⟨by decide, by decide, by decide, by decide, by decide⟩

theorem getLast?_append {suffix : String} {c : Char} (last : suffix.toList.getLast? = some c)
    (text : String) : (text ++ suffix).toList.getLast? = some c := by
  rw [String.toList_append, List.getLast?_append, last]
  rfl

theorem ne_of_getLast? {s t : String} {c d : Char} (first : s.toList.getLast? = some c)
    (second : t.toList.getLast? = some d) (ne : c ≠ d) : s ≠ t := by
  rintro rfl
  exact ne (Option.some.inj (first.symm.trans second))

theorem getLast?_segmentName (id : UInt32) : (segmentName id).toList.getLast? = some 'p' :=
  getLast?_append (by decide) _

theorem getLast?_entriesName (id : UInt32) : (entriesName id).toList.getLast? = some 'e' :=
  getLast?_append (by decide) _

theorem getLast?_journal (name : String) : (name ++ "-journal").toList.getLast? = some 'l' :=
  getLast?_append (by decide) _

theorem entriesName_inj {id j : UInt32} (same : entriesName id = entriesName j) : id = j := by
  have texts := congrArg String.toList same
  simp only [entriesName, String.toList_append, List.append_assoc, List.append_cancel_left_eq,
    List.append_cancel_right_eq] at texts
  exact number_inj texts

/-- The file of a segment is no table and no journal. -/
theorem segmentName_notMem {name : String} (table : name.toList.getLast? = some 'e') (id : UInt32) :
    segmentName id ∉ tableNames name := by
  have first := getLast?_segmentName id
  simp only [tableNames, List.mem_cons, List.not_mem_nil, or_false, not_or]
  exact ⟨ne_of_getLast? first table (by decide),
    ne_of_getLast? first (getLast?_journal name) (by decide)⟩

/-- Of two tables, one is neither the other nor the journal beside it. -/
theorem notMem_tableNames {name other : String} (table : name.toList.getLast? = some 'e')
    (ne : name ≠ other) : name ∉ tableNames other := by
  simp only [tableNames, List.mem_cons, List.not_mem_nil, or_false, not_or]
  exact ⟨ne, ne_of_getLast? table (getLast?_journal other) (by decide)⟩

theorem journal_notMem_tableNames {name other : String} (table : other.toList.getLast? = some 'e')
    (ne : name ≠ other) : name ++ "-journal" ∉ tableNames other := by
  simp only [tableNames, List.mem_cons, List.not_mem_nil, or_false, not_or]
  refine ⟨ne_of_getLast? (getLast?_journal name) table (by decide), fun same => ne ?_⟩
  exact (String.append_left_inj _).mp same

theorem entriesName_ne_extentsName (id : UInt32) : entriesName id ≠ extentsName := by
  intro same
  have heads := congrArg (·.toList.head?) same
  simp only [entriesName, String.toList_append, List.append_assoc] at heads
  revert heads
  rw [List.head?_append_of_ne_nil _ (by decide)]
  decide

end PacketQuery.Catalog
