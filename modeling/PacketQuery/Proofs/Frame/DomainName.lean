import PacketQuery.Frame.Header.Dns
import PacketQuery.Proofs.Text.Utf8
/-!
Domain names on the wire. Every byte string is a row of labels and what stands behind them, and that
alone decides what is read: a name, or why there is none. The labels are parts of the data, and a
name takes no more bytes than there are, unless the data ends between the two bytes of a pointer.
-/

namespace PacketQuery.Header

/-! ### One byte of a name -/

section Label
variable {name : String} {used room : Nat} {b : UInt8} {rest : Bytes}

/-- The first byte of a name decides how it goes on. -/
theorem labels_byte : labels name used room (b :: rest)
    = if b.toNat = 0 then .ok (name, used + 1)
      else if 0xC0 ≤ b.toNat then .ok (name, used + 2)
      else if 63 < b.toNat then .error (.labelLength b.toNat)
      else if rest.length < b.toNat then .error .labelEnds
      else match room with
        | 0 => .error .tooManyLabels
        | room + 1 => labels (if name.isEmpty then Text.ofUtf8Lossy (rest.take b.toNat)
            else name ++ "." ++ Text.ofUtf8Lossy (rest.take b.toNat))
            (used + 1 + b.toNat) room (rest.drop b.toNat) := by
  cases room <;> rfl

theorem labels_end (zero : b.toNat = 0) :
    labels name used room (b :: rest) = .ok (name, used + 1) := by
  rw [labels_byte, if_pos zero]

theorem labels_pointer (high : 0xC0 ≤ b.toNat) :
    labels name used room (b :: rest) = .ok (name, used + 2) := by
  rw [labels_byte, if_neg (by omega), if_pos high]

theorem labels_invalid (low : ¬ 0xC0 ≤ b.toNat) (long : 63 < b.toNat) :
    labels name used room (b :: rest) = .error (.labelLength b.toNat) := by
  rw [labels_byte, if_neg (by omega), if_neg low, if_pos long]

section Plain

variable (some_ : ¬ b.toNat = 0) (short : ¬ 63 < b.toNat)
include some_ short

theorem labels_cut (cut : rest.length < b.toNat) :
    labels name used room (b :: rest) = .error .labelEnds := by
  rw [labels_byte, if_neg some_, if_neg (by omega), if_neg short, if_pos cut]

theorem labels_excess (fits : ¬ rest.length < b.toNat) :
    labels name used 0 (b :: rest) = .error .tooManyLabels := by
  rw [labels_byte, if_neg some_, if_neg (by omega), if_neg short, if_neg fits]

variable (name used rest) in
theorem labels_full : ∃ fault, labels name used 0 (b :: rest) = .error fault := by
  by_cases cut : rest.length < b.toNat
  · exact ⟨_, labels_cut some_ short cut⟩
  · exact ⟨_, labels_excess some_ short cut⟩

theorem labels_cons (fits : ¬ rest.length < b.toNat) :
    labels name used (room + 1) (b :: rest)
      = labels (if name.isEmpty then Text.ofUtf8Lossy (rest.take b.toNat)
          else name ++ "." ++ Text.ofUtf8Lossy (rest.take b.toNat))
          (used + 1 + b.toNat) room (rest.drop b.toNat) := by
  rw [labels_byte, if_neg some_, if_neg (by omega), if_neg short, if_neg fits]

end Plain
end Label

/-! ### Names on the wire -/

/-- A label has one byte at least, and so few that its length is not taken for a pointer. -/
def IsLabel (label : Bytes) : Prop :=
  1 ≤ label.length ∧ label.length ≤ 63

/-- Labels on the wire, each behind its length. -/
def wire (labels : List Bytes) : Bytes :=
  labels.flatMap fun label => UInt8.ofNat label.length :: label

/-- The text of a name: its labels with points between. -/
def nameOf (labels : List Bytes) : String :=
  Text.joined "." (labels.map Text.ofUtf8Lossy)

/-- What stands behind the labels of a name: how many bytes more the name takes, or why it is
refused. -/
inductive Closes : Bytes → Except HeaderFault Nat → Prop
  | root (rest : Bytes) : Closes (0 :: rest) (.ok 1)
  | pointer {b : UInt8} (high : 0xC0 ≤ b.toNat) (rest : Bytes) : Closes (b :: rest) (.ok 2)
  | missing : Closes [] (.error .nameEnds)
  | reserved {b : UInt8} (low : b.toNat < 0xC0) (long : 63 < b.toNat) (rest : Bytes) :
      Closes (b :: rest) (.error (.labelLength b.toNat))
  | cut {b : UInt8} {rest : Bytes} (some_ : b.toNat ≠ 0) (short : b.toNat ≤ 63)
      (cut : rest.length < b.toNat) : Closes (b :: rest) (.error .labelEnds)

@[simp] theorem wire_nil : wire [] = [] :=
  rfl

@[simp] theorem wire_cons (label : Bytes) (labels : List Bytes) :
    wire (label :: labels) = UInt8.ofNat label.length :: (label ++ wire labels) :=
  rfl

theorem wire_append (first second : List Bytes) :
    wire (first ++ second) = wire first ++ wire second :=
  List.flatMap_append

/-- The name is lengthened by one label. -/
def withLabel (name : String) (label : Bytes) : String :=
  if name.isEmpty then Text.ofUtf8Lossy label else name ++ "." ++ Text.ofUtf8Lossy label

theorem foldl_withLabel {name : String} (some_ : name ≠ "") (labels : List Bytes) :
    labels.foldl withLabel name = Text.joined "." (name :: labels.map Text.ofUtf8Lossy) := by
  induction labels generalizing name with
  | nil => rfl
  | cons label labels ih =>
    have longer : withLabel name label = name ++ "." ++ Text.ofUtf8Lossy label := by
      rw [withLabel, if_neg (by simpa using some_)]
    have some' : withLabel name label ≠ "" := by
      rw [longer]
      simp [some_]
    rw [List.foldl_cons, ih some', longer, List.map_cons]
    cases labels <;> simp [Text.joined, String.intercalate_cons_cons, String.append_assoc]

/-- Only labels of no bytes would leave the name empty. -/
theorem foldl_withLabel_empty {labels : List Bytes} (each : ∀ label ∈ labels, IsLabel label) :
    labels.foldl withLabel "" = nameOf labels := by
  cases labels with
  | nil => rfl
  | cons label labels =>
    have held : label ≠ [] := List.length_pos_iff.mp (each label List.mem_cons_self).1
    exact foldl_withLabel (Text.ofUtf8Lossy_ne_empty held) labels

theorem IsLabel.toNat_length {label : Bytes} (h : IsLabel label) :
    (UInt8.ofNat label.length).toNat = label.length := by
  have short := h.2
  exact UInt8.toNat_ofNat_of_lt' (show label.length < 256 by omega)

/-- The labels on the wire are read one after another. -/
theorem labels_wire {labels : List Bytes} (each : ∀ label ∈ labels, IsLabel label) {room : Nat}
    (few : labels.length ≤ room) (name : String) (used : Nat) (tail : Bytes) :
    Header.labels name used room (wire labels ++ tail)
      = Header.labels (labels.foldl withLabel name) (used + (wire labels).length)
        (room - labels.length) tail := by
  induction labels generalizing room name used with
  | nil => rfl
  | cons label labels ih =>
    rw [List.forall_mem_cons] at each
    obtain ⟨first, each⟩ := each
    obtain ⟨room, rfl⟩ : ∃ more, room = more + 1 := ⟨room - 1, by
      rw [List.length_cons] at few
      omega⟩
    have length := first.toNat_length
    obtain ⟨some_, short⟩ := first
    have fits : ¬ (label ++ (wire labels ++ tail)).length < (UInt8.ofNat label.length).toNat := by
      rw [length, List.length_append]
      omega
    rw [wire_cons, List.cons_append, List.append_assoc,
      labels_cons (by omega) (by omega) fits, length, List.take_left, List.drop_left]
    change Header.labels (withLabel name label) _ _ _ = _
    rw [ih each (Nat.le_of_succ_le_succ few)]
    congr 1
    · rw [List.length_cons, List.length_append]
      omega
    · rw [List.length_cons]
      omega

theorem labels_closes {tail : Bytes} {o : Except HeaderFault Nat} (h : Closes tail o)
    (name : String) (used room : Nat) :
    labels name used room tail = o.map fun more => (name, used + more) := by
  cases h with
  | root => exact labels_end rfl
  | pointer high => exact labels_pointer high
  | missing => cases room <;> rfl
  | reserved low long => exact labels_invalid (Nat.not_le.mpr low) long
  | cut some_ short cut => exact labels_cut some_ (Nat.not_lt.mpr short) cut

/-- Data closes a name or begins with a whole label. -/
theorem closes_or_label (data : Bytes) : (∃ o, Closes data o) ∨
    ∃ label rest, IsLabel label ∧ data = wire [label] ++ rest := by
  cases data with
  | nil => exact .inl ⟨_, .missing⟩
  | cons b rest =>
    by_cases zero : b.toNat = 0
    · obtain rfl : b = 0 := UInt8.toNat_inj.mp zero
      exact .inl ⟨_, .root rest⟩
    by_cases high : 0xC0 ≤ b.toNat
    · exact .inl ⟨_, .pointer high rest⟩
    by_cases long : 63 < b.toNat
    · exact .inl ⟨_, .reserved (Nat.not_le.mp high) long rest⟩
    by_cases cut : rest.length < b.toNat
    · exact .inl ⟨_, .cut zero (Nat.not_lt.mp long) cut⟩
    · have length : (rest.take b.toNat).length = b.toNat :=
        List.length_take_of_le (Nat.not_lt.mp cut)
      refine .inr ⟨rest.take b.toNat, rest.drop b.toNat, ⟨by omega, by omega⟩, ?_⟩
      rw [wire_cons, wire_nil, List.append_nil, length, UInt8.ofNat_toNat, List.cons_append,
        List.take_append_drop]

/-- What closes a name lies in the data, or is the first byte of a pointer and no more. -/
theorem Closes.within_or_cut {tail : Bytes} {more : Nat} (h : Closes tail (.ok more)) :
    more ≤ tail.length ∨ ∃ b, 0xC0 ≤ b.toNat ∧ tail = [b] ∧ more = 2 := by
  cases h with
  | root rest => exact .inl (Nat.le_add_left 1 rest.length)
  | pointer high rest =>
    cases rest with
    | nil => exact .inr ⟨_, high, rfl, rfl⟩
    | cons second rest => exact .inl (Nat.le_add_left 2 rest.length)

/-- All data is labels and what closes the name, or has one label more than there is room for. -/
theorem exists_wire (room : Nat) (data : Bytes) :
    ∃ labels tail, data = wire labels ++ tail ∧ (∀ label ∈ labels, IsLabel label) ∧
      (labels.length ≤ room ∧ (∃ o, Closes tail o) ∨ labels.length = room + 1) := by
  induction room generalizing data with
  | zero =>
    rcases closes_or_label data with closes | ⟨label, rest, fits, rfl⟩
    · exact ⟨[], data, rfl, by simp, .inl ⟨Nat.le_refl 0, closes⟩⟩
    · exact ⟨[label], rest, rfl, by simpa using fits, .inr rfl⟩
  | succ room ih =>
    rcases closes_or_label data with closes | ⟨label, rest, fits, rfl⟩
    · exact ⟨[], data, rfl, by simp, .inl ⟨Nat.zero_le _, closes⟩⟩
    · obtain ⟨labels, tail, rfl, each, count⟩ := ih rest
      refine ⟨label :: labels, tail, ?_, List.forall_mem_cons.mpr ⟨fits, each⟩, ?_⟩
      · simp
      · rw [List.length_cons]
        rcases count with ⟨few, closes⟩ | many
        · exact .inl ⟨Nat.succ_le_succ few, closes⟩
        · exact .inr (congrArg (· + 1) many)

/-! ### Reading a name -/

section Read

variable {labels : List Bytes} (each : ∀ label ∈ labels, IsLabel label)
include each

theorem domainName_of_closes (few : labels.length ≤ maxLabels) {tail : Bytes}
    {o : Except HeaderFault Nat} (h : Closes tail o) :
    domainName (wire labels ++ tail)
      = o.map fun more => (nameOf labels, (wire labels).length + more) := by
  rw [domainName, labels_wire each few, foldl_withLabel_empty each, labels_closes h, Nat.zero_add]

theorem domainName_of_many (many : maxLabels < labels.length) (tail : Bytes) :
    domainName (wire labels ++ tail) = .error .tooManyLabels := by
  obtain ⟨last, more, behind⟩ : ∃ last more, labels.drop maxLabels = last :: more :=
    ⟨_, _, List.drop_eq_getElem_cons many⟩
  have split : labels = labels.take maxLabels ++ last :: more := by
    rw [← behind, List.take_append_drop]
  have full : (labels.take maxLabels).length = maxLabels :=
    List.length_take_of_le (Nat.le_of_lt many)
  generalize labels.take maxLabels = first at split full
  subst split
  obtain ⟨each, fits⟩ := List.forall_mem_append.mp each
  have fits := fits last List.mem_cons_self
  have length := fits.toNat_length
  obtain ⟨some_, short⟩ := fits
  have inside : ¬ (last ++ (wire more ++ tail)).length < (UInt8.ofNat last.length).toNat := by
    rw [length, List.length_append]
    omega
  rw [wire_append, List.append_assoc, domainName, labels_wire each (Nat.le_of_eq full), full,
    Nat.sub_self, wire_cons, List.cons_append, List.append_assoc]
  exact labels_excess (by omega) (by omega) inside

/-- A pointer that is cut off counts the byte that is missing. -/
theorem length_lt_of_cut_pointer {b : UInt8} (high : 0xC0 ≤ b.toNat) {name : String} {used : Nat}
    (read : domainName (wire labels ++ [b]) = .ok (name, used)) :
    (wire labels ++ [b]).length < used := by
  by_cases few : labels.length ≤ maxLabels
  · rw [domainName_of_closes each few (.pointer high [])] at read
    cases read
    rw [List.length_append]
    exact Nat.lt_succ_self _
  · rw [domainName_of_many each (Nat.not_le.mp few)] at read
    cases read

end Read

/-- A name that is read is labels and what closes them. -/
theorem closes_of_domainName {data : Bytes} {name : String} {used : Nat}
    (read : domainName data = .ok (name, used)) :
    ∃ labels tail more, data = wire labels ++ tail ∧ (∀ label ∈ labels, IsLabel label) ∧
      Closes tail (.ok more) ∧ used = (wire labels).length + more := by
  obtain ⟨labels, tail, rfl, each, ⟨few, o, closes⟩ | many⟩ := exists_wire maxLabels data
  · rw [domainName_of_closes each few closes] at read
    cases o with
    | error fault => cases read
    | ok more =>
      cases read
      exact ⟨labels, tail, more, rfl, each, closes, rfl⟩
  · rw [domainName_of_many each (many ▸ Nat.lt_succ_self maxLabels)] at read
    cases read

/-- Every byte string is labels and what closes the name, and the name or the fault is told from
them; a name has 128 labels at most, and the label after these is refused. The bytes that a name
takes lie in the data, unless the data ends in the first byte of a pointer. -/
theorem domainName_within_iff (data : Bytes) :
    (∃ labels tail, data = wire labels ++ tail ∧ (∀ label ∈ labels, IsLabel label) ∧
      (labels.length ≤ 128 ∧ (∃ o, Closes tail o ∧ domainName data
          = o.map fun more => (nameOf labels, (wire labels).length + more)) ∨
        labels.length = 129 ∧ domainName data = .error .tooManyLabels)) ∧
    ∀ name used, domainName data = .ok (name, used) → used ≤ data.length + 1 ∧
      (used ≤ data.length ↔ ¬ ∃ labels b, (∀ label ∈ labels, IsLabel label) ∧ 0xC0 ≤ b.toNat ∧
        data = wire labels ++ [b]) := by
  refine ⟨?_, fun name used read => ?_⟩
  · obtain ⟨labels, tail, rfl, each, ⟨few, o, closes⟩ | many⟩ := exists_wire maxLabels data
    · exact ⟨labels, tail, rfl, each, .inl ⟨few, o, closes, domainName_of_closes each few closes⟩⟩
    · have refused := domainName_of_many each (many ▸ Nat.lt_succ_self maxLabels) tail
      exact ⟨labels, tail, rfl, each, .inr ⟨many, refused⟩⟩
  · obtain ⟨labels, tail, more, rfl, each, closes, total⟩ := closes_of_domainName read
    have length : (wire labels ++ tail).length = (wire labels).length + tail.length :=
      List.length_append
    obtain inside | ⟨b, high, rfl, rfl⟩ := closes.within_or_cut
    · refine ⟨by omega, fun _ ⟨labels', b, each', high, same⟩ => ?_, fun _ => by omega⟩
      rw [same] at read length
      have outside := length_lt_of_cut_pointer each' high read
      omega
    · have outside := length_lt_of_cut_pointer each high read
      refine ⟨?_, fun within => absurd within (Nat.not_le.mpr outside), fun whole => ?_⟩
      · rw [List.length_singleton] at length
        omega
      · exact absurd ⟨labels, b, each, high, rfl⟩ whole

/-- A label and a whole pointer: both bytes of the pointer lie in the data. -/
theorem domainName_within_pointer :
    domainName [3, 119, 119, 119, 0xC0, 0x0C] = .ok ("www", 6) ∧
      ¬ ∃ labels b, (∀ label ∈ labels, IsLabel label) ∧ 0xC0 ≤ UInt8.toNat b ∧
        [3, 119, 119, 119, 0xC0, 0x0C] = wire labels ++ [b] := by
  have name : nameOf [[119, 119, 119]] = "www" := by decide +kernel
  have read : domainName (wire [[119, 119, 119]] ++ [0xC0, 0x0C]) = .ok ("www", 6) := by
    rw [domainName_of_closes (by simp [IsLabel]) (by decide) (.pointer (by decide) [0x0C]), name]
    rfl
  have ⟨_, within⟩ := (domainName_within_iff [3, 119, 119, 119, 0xC0, 0x0C]).2 "www" 6 read
  exact ⟨read, within.mp (by decide)⟩

/-- One byte is taken for a pointer of two. -/
theorem domainName_of_half_pointer :
    domainName [0xC0] = .ok ("", 2) ∧ ¬ ∀ data name used, domainName data = .ok (name, used) →
      used ≤ data.length :=
  ⟨rfl, fun within => absurd (within [0xC0] "" 2 rfl) (by decide)⟩

end PacketQuery.Header
