import PacketQuery.Text.Ascii
import PacketQuery.Text.Blank
import Mathlib
/-!
Text up to the case of ASCII letters: `same` is an equivalence, and raising or lowering letters
stays within a class. A test of characters that agrees on each capital and its small letter finds
in a lowered text what it finds in the text.
-/

namespace PacketQuery.Text

theorem same_iff {a b : String} :
    same a b = true ↔ a.toList.map Char.toLower = b.toList.map Char.toLower := by
  simp [same]

theorem same_comm (a b : String) : same a b = same b a := by
  apply Bool.eq_iff_iff.mpr
  rw [same_iff, same_iff, eq_comm]

/-- Words of one class are alike to every third word. -/
theorem same_left_congr {a b : String} (h : same a b = true) (c : String) :
    same a c = same b c := by
  apply Bool.eq_iff_iff.mpr
  rw [same_iff, same_iff, same_iff.mp h]

theorem same_right_congr {a b : String} (h : same a b = true) (c : String) :
    same c a = same c b := by
  rw [same_comm c a, same_comm c b, same_left_congr h]

@[simp] theorem same_self (a : String) : same a a = true := by
  simp [same]

@[simp] theorem same_upper (a : String) : same (upper a) a = true := by
  simp [same_iff, upper, Function.comp_def]

@[simp] theorem upper_upper (a : String) : upper (upper a) = upper a := by
  simp [upper, Function.comp_def]

/-- Only a capital is lowered to another character, and to a small letter. -/
theorem eq_of_toLower {c d : Char} (lowered : c.toLower = d)
    (other : d.toNat < 97 ∨ 122 < d.toNat) : c = d := by
  unfold Char.toLower at lowered
  split at lowered
  next capital =>
    have code : (c.val + ('a'.val - 'A'.val)).toNat = d.toNat :=
      congrArg Char.toNat lowered
    have low : 65 ≤ c.val.toNat := capital.1
    have high : c.val.toNat ≤ 90 := capital.2
    have shift : ('a'.val - 'A'.val).toNat = 32 := by decide
    rw [UInt32.toNat_add, shift] at code
    omega
  next => exact lowered

/-! ### Lowered characters and texts -/

/-- A function that agrees on each capital and its small letter does not see case. -/
theorem apply_toLower {α : Type} {f : Char → α}
    (pairs : ∀ n < 26, f (Char.ofNat (97 + n)) = f (Char.ofNat (65 + n))) (c : Char) :
    f c.toLower = f c := by
  by_cases capital : 65 ≤ c.toNat ∧ c.toNat ≤ 90
  · have code : c = Char.ofNat (65 + (c.toNat - 65)) := by
      rw [show 65 + (c.toNat - 65) = c.toNat by omega, Char.ofNat_toNat]
    have letters : ∀ n < 26, (Char.ofNat (65 + n)).toLower = Char.ofNat (97 + n) := by decide
    have small : c.toLower = Char.ofNat (97 + (c.toNat - 65)) := by
      rw [← letters _ (by omega), ← code]
    rw [small, pairs _ (by omega), ← code]
  · have same : c.toLower = c := by
      unfold Char.toLower
      rw [dif_neg]
      exact fun range => capital ⟨range.1, range.2⟩
    rw [same]

theorem isBlank_toLower : ∀ c, isBlank c.toLower = isBlank c :=
  apply_toLower (by decide)

theorem isWordChar_toLower : ∀ c, isWordChar c.toLower = isWordChar c :=
  apply_toLower (by decide)

theorem isHexDigit_toLower : ∀ c, isHexDigit c.toLower = isHexDigit c :=
  apply_toLower (by decide)

theorem isDigit_toLower : ∀ c : Char, c.toLower.isDigit = c.isDigit :=
  apply_toLower (by decide)

theorem isAlpha_toLower : ∀ c : Char, c.toLower.isAlpha = c.isAlpha :=
  apply_toLower (by decide)

theorem toLower_of_not_alpha {c : Char} (other : c.isAlpha = false) : c.toLower = c := by
  unfold Char.toLower
  rw [dif_neg]
  intro range
  have capital : c.isUpper = true := by simpa [Char.isUpper] using range
  simp [Char.isAlpha, capital] at other

theorem toLower_of_isDigit {c : Char} (digit : c.isDigit = true) : c.toLower = c := by
  unfold Char.toLower
  rw [dif_neg]
  intro range
  simp only [Char.isDigit, Bool.and_eq_true, decide_eq_true_eq] at digit
  exact absurd (UInt32.le_trans range.1 digit.2) (by decide)

/-- Lowering neither makes nor hides a character that is no letter. -/
theorem toLower_eq_iff {c d : Char} (other : d.isAlpha = false) : c.toLower = d ↔ c = d := by
  constructor
  · intro lowered
    have plain : c.isAlpha = false := by rw [← isAlpha_toLower, lowered, other]
    rw [← toLower_of_not_alpha plain, lowered]
  · rintro rfl
    exact toLower_of_not_alpha other

section Runs

variable {p : Char → Bool} (blind : ∀ c, p c.toLower = p c) (cs : List Char)
include blind

theorem takeWhile_toLower :
    (cs.map Char.toLower).takeWhile p = (cs.takeWhile p).map Char.toLower := by
  rw [List.takeWhile_map, show p ∘ Char.toLower = p from funext blind]

theorem dropWhile_toLower :
    (cs.map Char.toLower).dropWhile p = (cs.dropWhile p).map Char.toLower := by
  rw [List.dropWhile_map, show p ∘ Char.toLower = p from funext blind]

theorem all_toLower : (cs.map Char.toLower).all p = cs.all p := by
  rw [List.all_map, show p ∘ Char.toLower = p from funext blind]

end Runs

@[simp] theorem toList_lower (s : String) : (lower s).toList = s.toList.map Char.toLower :=
  String.toList_ofList

theorem lower_ofList (cs : List Char) :
    lower (String.ofList cs) = String.ofList (cs.map Char.toLower) := by
  rw [lower, String.toList_ofList]

theorem lower_append (s t : String) : lower (s ++ t) = lower s ++ lower t := by
  rw [lower, String.toList_append, List.map_append, String.ofList_append, lower, lower]

theorem lower_joined (sep : String) (parts : List String) :
    lower (joined sep parts) = joined (lower sep) (parts.map lower) := by
  induction parts with
  | nil => rfl
  | cons part parts ih =>
    cases parts with
    | nil => simp [joined]
    | cons next parts =>
      simp only [joined, List.map_cons, String.intercalate_cons_cons, lower_append] at ih ⊢
      rw [ih]

theorem isEmpty_lower (s : String) : (lower s).isEmpty = s.isEmpty := by
  rw [Bool.eq_iff_iff, String.isEmpty_iff, String.isEmpty_iff, ← String.toList_eq_nil_iff,
    toList_lower, List.map_eq_nil_iff, String.toList_eq_nil_iff]

theorem length_lower (s : String) : (lower s).length = s.length := by
  rw [← String.length_toList, toList_lower, List.length_map, String.length_toList]

@[simp] theorem lower_lower (s : String) : lower (lower s) = lower s := by
  simp [lower, Function.comp_def]

theorem same_lower (s : String) : same (lower s) s = true := by
  simp [same_iff, Function.comp_def]

theorem lower_upper (s : String) : lower (upper s) = lower s := by
  simp [lower, upper, Function.comp_def]

end PacketQuery.Text
