import Mathlib
import PacketQuery.Text.Ascii
/-!
Texts cut at separators, and numbers in decimal digits: what is written is read back.
-/

namespace PacketQuery.Text

theorem pieces_ne_nil (sep : Char) (cs : List Char) : pieces sep cs ≠ [] := by
  cases cs with
  | nil => exact List.cons_ne_nil _ _
  | cons c cs =>
    rw [pieces]
    split
    next => exact List.cons_ne_nil _ _
    next => split <;> exact List.cons_ne_nil _ _

theorem pieces_of_notMem {sep : Char} {cs : List Char} (absent : sep ∉ cs) :
    pieces sep cs = [cs] := by
  induction cs with
  | nil => rfl
  | cons c cs ih =>
    rw [List.mem_cons, not_or] at absent
    obtain ⟨other, rest⟩ := absent
    rw [pieces, ih rest]
    simp [Ne.symm other]

theorem notMem_of_mem_pieces {sep : Char} {cs piece : List Char} (h : piece ∈ pieces sep cs) :
    sep ∉ piece := by
  induction cs generalizing piece with
  | nil =>
    rw [pieces, List.mem_singleton] at h
    simp [h]
  | cons c cs ih =>
    rw [pieces] at h
    cases found : pieces sep cs with
    | nil => exact absurd found (pieces_ne_nil sep cs)
    | cons first rest =>
      have free : sep ∉ first := ih (found ▸ List.mem_cons_self)
      have later : ∀ piece ∈ rest, sep ∉ piece := fun _ later =>
        ih (found ▸ List.mem_cons_of_mem first later)
      rw [found] at h
      dsimp only at h
      split at h
      · simp only [List.mem_cons] at h
        rcases h with rfl | rfl | held
        · exact List.not_mem_nil
        · exact free
        · exact later piece held
      next other =>
        have differs : sep ≠ c := fun same => other (beq_iff_eq.mpr same.symm)
        rcases List.mem_cons.mp h with rfl | held
        · simpa [differs] using free
        · exact later piece held

theorem pieces_append_cons (sep : Char) (cs ds : List Char) :
    pieces sep (cs ++ sep :: ds) = pieces sep cs ++ pieces sep ds := by
  induction cs with
  | nil =>
    cases found : pieces sep ds with
    | nil => exact absurd found (pieces_ne_nil sep ds)
    | cons piece rest => simp [pieces, found]
  | cons c cs ih =>
    rw [List.cons_append, pieces, pieces, ih]
    cases found : pieces sep cs with
    | nil => exact absurd found (pieces_ne_nil sep cs)
    | cons piece rest =>
      rw [List.cons_append]
      dsimp only
      split <;> rfl

/-- Parts without the separator are the pieces of what they are joined to. -/
theorem pieces_joined {sep : Char} {parts : List String} (some_ : parts ≠ [])
    (free : ∀ part ∈ parts, sep ∉ part.toList) :
    pieces sep (joined (String.singleton sep) parts).toList = parts.map String.toList := by
  induction parts with
  | nil => exact absurd rfl some_
  | cons part parts ih =>
    rw [List.forall_mem_cons] at free
    cases parts with
    | nil => simpa [joined] using pieces_of_notMem free.1
    | cons next parts =>
      have later := ih (List.cons_ne_nil _ _) free.2
      have written : (joined (String.singleton sep) (part :: next :: parts)).toList
          = part.toList ++ sep :: (joined (String.singleton sep) (next :: parts)).toList := by
        simp [joined, String.intercalate_cons_cons]
      rw [written, pieces_append_cons, pieces_of_notMem free.1, later]
      rfl

section Run

variable {p : Char → Bool} {run rest : List Char} (all : ∀ d ∈ run, p d = true)
  (ends : ∀ d ∈ rest.head?, p d = false)
include all ends

theorem takeWhile_run : (run ++ rest).takeWhile p = run := by
  rw [List.takeWhile_append_of_pos all]
  cases rest with
  | nil => exact List.append_nil run
  | cons d rest => rw [List.takeWhile_cons, if_neg (by simp [ends d rfl]), List.append_nil]

theorem dropWhile_run : (run ++ rest).dropWhile p = rest := by
  rw [List.dropWhile_append_of_pos all]
  cases rest with
  | nil => rfl
  | cons d rest => rw [List.dropWhile_cons, if_neg (by simp [ends d rfl])]

end Run

theorem cut_eq_some {sep : Char} {s before after : String} (absent : sep ∉ before.toList)
    (shape : s.toList = before.toList ++ sep :: after.toList) :
    cut sep s = some (before, after) := by
  have all : ∀ c ∈ before.toList, (c != sep) = true := by
    intro c member
    rw [bne_iff_ne]
    rintro rfl
    exact absent member
  have stops : ∀ c ∈ (sep :: after.toList).head?, (c != sep) = false := by
    rintro c ⟨⟩
    exact bne_self_eq_false sep
  rw [cut, shape, List.span_eq_takeWhile_dropWhile, takeWhile_run all stops,
    dropWhile_run all stops]
  simp

/-- One digit or more and nothing else. -/
structure IsNumeral (cs : List Char) : Prop where
  nonempty : cs ≠ []
  digits : ∀ c ∈ cs, c.isDigit = true

theorem IsNumeral.notMem {cs : List Char} {c : Char} (numeral : IsNumeral cs)
    (other : c.isDigit = false) : c ∉ cs := by
  intro member
  cases other.symm.trans (numeral.digits c member)

theorem IsNumeral.decimal? {cs : List Char} (numeral : IsNumeral cs) :
    decimal? cs = some (valueOf 10 cs) := by
  have some_ : cs.isEmpty = false := by simpa using numeral.nonempty
  have all : cs.all Char.isDigit = true := List.all_eq_true.mpr numeral.digits
  rw [Text.decimal?, some_, all]
  rfl

theorem isNumeral_toDigits (n : Nat) : IsNumeral (Nat.toDigits 10 n) where
  nonempty := by simp
  digits := fun _ member => Nat.isDigit_of_mem_toDigits (by decide) (by decide) member

theorem valueOf_toDigits (n : Nat) : valueOf 10 (Nat.toDigits 10 n) = n := by
  have same : valueOf 10 (Nat.toDigits 10 n) = Nat.ofDigitChars 10 (Nat.toDigits 10 n) 0 := by
    rw [valueOf, Nat.ofDigitChars_eq_foldl]
    apply List.foldl_ext
    intro sofar c member
    rw [hexValue, if_pos ((isNumeral_toDigits n).digits c member), Nat.mul_comm]
    rfl
  rw [same, Nat.ofDigitChars_ten_toDigits]

theorem decimal?_toDigits (n : Nat) : decimal? (Nat.toDigits 10 n) = some n := by
  rw [(isNumeral_toDigits n).decimal?, valueOf_toDigits]

theorem unsigned?_toDigits {n limit : Nat} (fits : n ≤ limit) :
    unsigned? limit (Nat.toDigits 10 n) = some n := by
  unfold unsigned?
  split
  next rest shape =>
    have sign := (isNumeral_toDigits n).digits '+' (shape ▸ List.mem_cons_self)
    exact absurd sign (by decide)
  next => simp [decimal?_toDigits, fits]

/-! ### How great a number of so many digits is -/

theorem foldl_base_lt {α : Type} {base : Nat} {digit : α → Nat} {xs : List α}
    (small : ∀ x ∈ xs, digit x < base) (n : Nat) :
    xs.foldl (fun n x => n * base + digit x) n < (n + 1) * base ^ xs.length := by
  induction xs generalizing n with
  | nil => simp
  | cons x xs ih =>
    rw [List.forall_mem_cons] at small
    have head : n * base + digit x + 1 ≤ (n + 1) * base := by
      have first := small.1
      rw [Nat.add_mul, Nat.one_mul]
      omega
    calc (x :: xs).foldl (fun n x => n * base + digit x) n
        < (n * base + digit x + 1) * base ^ xs.length := ih small.2 _
      _ ≤ (n + 1) * base * base ^ xs.length := Nat.mul_le_mul_right _ head
      _ = (n + 1) * base ^ (x :: xs).length := by
          rw [List.length_cons, Nat.pow_succ', Nat.mul_assoc]

theorem hexValue_lt {c : Char} (hex : isHexDigit c = true) :
    hexValue c < 16 ∧ (c.isDigit = true → hexValue c < 10) := by
  have ascii : c.toNat < 128 := by
    simp only [isHexDigit, Char.isDigit, Char.le_def, Bool.or_eq_true, Bool.and_eq_true,
      decide_eq_true_eq, UInt32.le_iff_toNat_le, ge_iff_le] at hex
    rcases hex with (⟨-, high⟩ | ⟨-, high⟩) | ⟨-, high⟩ <;>
      exact lt_of_le_of_lt high (by decide)
  have all : ∀ n < 128, isHexDigit (Char.ofNat n) = true → hexValue (Char.ofNat n) < 16 ∧
      ((Char.ofNat n).isDigit = true → hexValue (Char.ofNat n) < 10) := by decide
  have code := all c.toNat ascii
  rw [Char.ofNat_toNat] at code
  exact code hex

theorem lt_of_decimal? {cs : List Char} {n : Nat} (h : decimal? cs = some n) :
    n < 10 ^ cs.length := by
  unfold decimal? at h
  split at h
  next => cases h
  next digits =>
    cases h
    have all : ∀ c ∈ cs, hexValue c < 10 := by
      intro c member
      simp only [Bool.or_eq_true, Bool.not_eq_true', not_or, Bool.not_eq_false] at digits
      have digit := List.all_eq_true.mp digits.2 c member
      exact (hexValue_lt (by simp [isHexDigit, digit])).2 digit
    simpa [valueOf] using foldl_base_lt all 0

theorem lt_of_hex? {cs : List Char} {n : Nat} (h : hex? cs = some n) : n < 16 ^ cs.length := by
  unfold hex? at h
  split at h
  next => cases h
  next digits =>
    cases h
    have all : ∀ c ∈ cs, hexValue c < 16 := by
      intro c member
      simp only [Bool.or_eq_true, Bool.not_eq_true', not_or, Bool.not_eq_false] at digits
      exact (hexValue_lt (List.all_eq_true.mp digits.2 c member)).1
    simpa [valueOf] using foldl_base_lt all 0

theorem isNumeral_toString (n : Nat) : IsNumeral (toString n).toList := by
  rw [Nat.toString_eq_repr, Nat.toList_repr]
  exact isNumeral_toDigits n

section Digits

variable (width n : Nat)

theorem toList_digits :
    (digits width n).toList = padLeft '0' width (Nat.toDigits 10 n) :=
  String.toList_ofList

theorem isNumeral_digits : IsNumeral (digits width n).toList := by
  rw [toList_digits, padLeft]
  refine ⟨by simp, fun c member => ?_⟩
  rcases List.mem_append.mp member with pad | digit
  · rw [List.eq_of_mem_replicate pad]
    rfl
  · exact (isNumeral_toDigits n).digits c digit

/-- Zeros in front make no difference. -/
theorem decimal?_digits : decimal? (digits width n).toList = some n := by
  have zeros : ∀ k, (List.replicate k '0').foldl (fun n c => n * 10 + hexValue c) 0 = 0 := by
    intro k
    induction k with
    | zero => rfl
    | succ k ih => rwa [List.replicate_succ, List.foldl_cons]
  rw [(isNumeral_digits width n).decimal?, toList_digits, padLeft, valueOf, List.foldl_append,
    zeros]
  exact congrArg some (valueOf_toDigits n)

theorem length_digits {width n : Nat} (positive : 0 < width) (fits : n < 10 ^ width) :
    (digits width n).toList.length = width := by
  have short := Nat.toDigits_length 10 n width positive fits
  rw [toList_digits, padLeft, List.length_append, List.length_replicate]
  omega

end Digits

end PacketQuery.Text
