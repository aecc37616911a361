import PacketQuery.Text.Utf8
/-!
The lenient reading of UTF-8 gives back every text that was written: each character is one
sequence, and no malformed part begins inside of it. It drops nothing either: where there are
bytes there is a character.
-/

namespace PacketQuery.Text

/-! ### Bytes of a sequence -/

/-- A byte that goes on with a sequence adds six bits. -/
theorem utf8Tail_cons {low high : UInt8} {bits : Nat} (small : bits < 64)
    (above : low.toNat ≤ bits + 128) (below : bits + 128 ≤ high.toNat) (missing n : Nat)
    (rest : Bytes) :
    utf8Tail (missing + 1) low high n (UInt8.ofNat (bits + 128) :: rest)
      = utf8Tail missing 0x80 0xBF (n * 64 + bits) rest := by
  have value : (UInt8.ofNat (bits + 128)).toNat = bits + 128 :=
    UInt8.toNat_ofNat_of_lt' (show bits + 128 < 256 by omega)
  have last : (bits + 128) % 64 = bits := by omega
  simp only [utf8Tail, UInt8.le_iff_toNat_le, value, last]
  rw [if_pos (by simp [above, below])]

section Lead

variable {n : Nat}

theorem utf8Lead_one (small : n ≤ 127) :
    utf8Lead (UInt8.ofNat n) = some (0, 0x80, 0xBF, n) := by
  have all : ∀ n ≤ 127, utf8Lead (UInt8.ofNat n) = some (0, 0x80, 0xBF, n) := by decide
  exact all n small

theorem utf8Lead_two (low : 2 ≤ n) (high : n < 32) :
    utf8Lead (UInt8.ofNat (n + 192)) = some (1, 0x80, 0xBF, n) := by
  have all : ∀ k < 30, utf8Lead (UInt8.ofNat (k + 2 + 192)) = some (1, 0x80, 0xBF, k + 2) := by
    decide
  obtain ⟨k, rfl⟩ := Nat.exists_eq_add_of_le' low
  exact all k (by omega)

/-- The least byte that may follow a lead with the bits `n`. -/
def leastAfter (narrow : UInt8) (n : Nat) : UInt8 := if n = 0 then narrow else 0x80

/-- The greatest byte that may follow a lead with the bits `n`. -/
def greatestAfter (top : Nat) (narrow : UInt8) (n : Nat) : UInt8 := if n = top then narrow else 0xBF

theorem leastAfter_le {narrow : UInt8} {bits : Nat} (h : n = 0 → narrow.toNat ≤ bits + 128) :
    (leastAfter narrow n).toNat ≤ bits + 128 := by
  unfold leastAfter
  split
  next zero => exact h zero
  next => simp

theorem le_greatestAfter {top : Nat} {narrow : UInt8} {bits : Nat} (small : bits < 64)
    (h : n = top → bits + 128 ≤ narrow.toNat) :
    bits + 128 ≤ (greatestAfter top narrow n).toNat := by
  unfold greatestAfter
  split
  next last => exact h last
  next => simp; omega

/-- A lead of three bytes rules out short numbers and surrogates. -/
theorem utf8Lead_three (small : n < 16) : utf8Lead (UInt8.ofNat (n + 224))
    = some (2, leastAfter 0xA0 n, greatestAfter 13 0x9F n, n) := by
  have all : ∀ n < 16, utf8Lead (UInt8.ofNat (n + 224))
      = some (2, leastAfter 0xA0 n, greatestAfter 13 0x9F n, n) := by
    decide
  exact all n small

/-- A lead of four bytes rules out short numbers and those above the last character. -/
theorem utf8Lead_four (small : n ≤ 4) : utf8Lead (UInt8.ofNat (n + 240))
    = some (3, leastAfter 0x90 n, greatestAfter 4 0x8F n, n) := by
  have all : ∀ n ≤ 4, utf8Lead (UInt8.ofNat (n + 240))
      = some (3, leastAfter 0x90 n, greatestAfter 4 0x8F n, n) := by
    decide
  exact all n small

end Lead

/-! ### Characters -/

theorem utf8Chars_lead {b low high : UInt8} {missing n : Nat} (rest : Bytes)
    (lead : utf8Lead b = some (missing, low, high, n)) :
    utf8Chars (b :: rest) = (utf8Tail missing low high n rest).1
      :: utf8Chars (utf8Tail missing low high n rest).2 := by
  rw [utf8Chars, lead]

theorem utf8Chars_encodeChar (c : Char) (rest : Bytes) :
    utf8Chars (String.utf8EncodeChar c ++ rest) = some c :: utf8Chars rest := by
  have valid := c.valid
  have whole : Char.ofNat c.val.toNat = c := Char.ofNat_toNat c
  simp only [UInt32.isValidChar, Nat.isValidChar] at valid
  unfold String.utf8EncodeChar
  extract_lets v
  have valid : v < 0xD800 ∨ 0xDFFF < v ∧ v < 0x110000 := valid
  have whole : Char.ofNat v = c := whole
  split
  next one =>
    rw [List.singleton_append, utf8Chars_lead rest (utf8Lead_one one), utf8Tail, whole]
  next one =>
    split
    next two =>
      have high : v / 64 % 32 = v / 64 := by omega
      have bits : v / 64 * 64 + v % 64 = v := by omega
      rw [List.cons_append, List.cons_append, List.nil_append, high,
        utf8Chars_lead _ (utf8Lead_two (by omega) (by omega)),
        utf8Tail_cons (by omega) (by simp) (by simp; omega), utf8Tail, bits, whole]
    next two =>
      split
      next three =>
        have high : v / 4096 % 16 = v / 4096 := by omega
        have bits : (v / 4096 * 64 + v / 64 % 64) * 64 + v % 64 = v := by omega
        -- The lead narrows the byte behind it: no overlong forms, and no surrogates.
        have least : (leastAfter 0xA0 (v / 4096)).toNat ≤ v / 64 % 64 + 128 :=
          leastAfter_le fun zero => by simp; omega
        have greatest : v / 64 % 64 + 128 ≤ (greatestAfter 13 0x9F (v / 4096)).toNat :=
          le_greatestAfter (by omega) fun surrogates => by simp; omega
        rw [List.cons_append, List.cons_append, List.cons_append, List.nil_append, high,
          utf8Chars_lead _ (utf8Lead_three (by omega)), utf8Tail_cons (by omega) least greatest,
          utf8Tail_cons (by omega) (by simp) (by simp; omega), utf8Tail, bits, whole]
      next three =>
        have high : v / 262144 % 8 = v / 262144 := by omega
        have bits : ((v / 262144 * 64 + v / 4096 % 64) * 64 + v / 64 % 64) * 64 + v % 64 = v := by
          omega
        have least : (leastAfter 0x90 (v / 262144)).toNat ≤ v / 4096 % 64 + 128 :=
          leastAfter_le fun zero => by simp; omega
        have greatest : v / 4096 % 64 + 128 ≤ (greatestAfter 4 0x8F (v / 262144)).toNat :=
          le_greatestAfter (by omega) fun last => by simp; omega
        rw [List.cons_append, List.cons_append, List.cons_append, List.cons_append,
          List.nil_append, high, utf8Chars_lead _ (utf8Lead_four (by omega)),
          utf8Tail_cons (by omega) least greatest,
          utf8Tail_cons (by omega) (by simp) (by simp; omega),
          utf8Tail_cons (by omega) (by simp) (by simp; omega), utf8Tail, bits, whole]

/-! ### Texts -/

/-- An array of bytes is listed from the front; `before` are those that come before `i`. -/
theorem toList_loop (array : ByteArray) (i : Nat) (before : Bytes) :
    ByteArray.toList.loop array i before = before.reverse ++ array.data.toList.drop i := by
  fun_induction ByteArray.toList.loop array i before with
  | case1 i before inside ih =>
    have inside : i < array.data.toList.length := inside
    have head : array.get! i = array.data.toList[i] := by
      rw [ByteArray.get!, getElem!_pos array.data i inside]
      rfl
    rw [ih, head, List.reverse_cons, List.append_assoc, List.singleton_append,
      ← List.drop_eq_getElem_cons inside]
  | case2 i before outside =>
    have outside : array.data.toList.length ≤ i := Nat.le_of_not_lt outside
    rw [List.drop_eq_nil_of_le outside, List.append_nil]

theorem toUtf8_eq_flatMap (s : String) : toUtf8 s = s.toList.flatMap String.utf8EncodeChar := by
  have chars : s.toUTF8 = s.toList.utf8Encode := by
    conv => lhs; rw [← String.ofList_toList (s := s)]
    exact String.toByteArray_ofList
  rw [toUtf8, chars, ByteArray.toList, toList_loop]
  exact List.toList_data_toByteArray

theorem utf8Chars_flatMap (cs : List Char) :
    utf8Chars (cs.flatMap String.utf8EncodeChar) = cs.map some := by
  induction cs with
  | nil => rw [List.flatMap_nil, utf8Chars, List.map_nil]
  | cons c cs ih => rw [List.flatMap_cons, utf8Chars_encodeChar, ih, List.map_cons]

/-- What is written in UTF-8 is read back. -/
theorem ofUtf8Lossy_toUtf8 (s : String) : ofUtf8Lossy (toUtf8 s) = s := by
  rw [ofUtf8Lossy, toUtf8_eq_flatMap, utf8Chars_flatMap, List.map_map]
  exact (congrArg String.ofList (List.map_id s.toList)).trans String.ofList_toList

theorem ofUtf8Lossy_ne_empty {bs : Bytes} (held : bs ≠ []) : ofUtf8Lossy bs ≠ "" := by
  obtain ⟨b, rest, rfl⟩ := List.exists_cons_of_ne_nil held
  have some_ : utf8Chars (b :: rest) ≠ [] := by
    rw [utf8Chars]
    split <;> exact List.cons_ne_nil _ _
  intro empty
  have none := congrArg String.toList empty
  rw [ofUtf8Lossy, String.toList_ofList] at none
  exact some_ (List.map_eq_nil_iff.mp none)

theorem toUtf8_ne_nil {s : String} (some_ : s ≠ "") : toUtf8 s ≠ [] := by
  intro none
  have back := ofUtf8Lossy_toUtf8 s
  rw [none, ofUtf8Lossy, utf8Chars] at back
  exact some_ back.symm

end PacketQuery.Text
