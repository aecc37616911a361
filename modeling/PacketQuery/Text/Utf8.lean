import PacketQuery.Bytes
/-!
Reading bytes as UTF-8. The strict reading refuses malformed input; the lenient one puts
U+FFFD in the place of every maximal part that no well-formed sequence starts with.
-/

namespace PacketQuery.Text

/-- What a leading byte promises: how many bytes follow, the range of the first of them, and the
bits that the leading byte gives. The narrow ranges rule out overlong forms, surrogates and
numbers above U+10FFFF. -/
def utf8Lead (b : UInt8) : Option (Nat × UInt8 × UInt8 × Nat) :=
  if b < 0x80 then some (0, 0x80, 0xBF, b.toNat)
  else if 0xC2 ≤ b && b ≤ 0xDF then some (1, 0x80, 0xBF, b.toNat % 32)
  else if b == 0xE0 then some (2, 0xA0, 0xBF, 0)
  else if b == 0xED then some (2, 0x80, 0x9F, 13)
  else if 0xE1 ≤ b && b ≤ 0xEF then some (2, 0x80, 0xBF, b.toNat % 16)
  else if b == 0xF0 then some (3, 0x90, 0xBF, 0)
  else if 0xF1 ≤ b && b ≤ 0xF3 then some (3, 0x80, 0xBF, b.toNat % 8)
  else if b == 0xF4 then some (3, 0x80, 0x8F, 4)
  else none

/-- Follows a sequence: `missing` bytes are due and the next lies in `low` to `high`. Gives the
character, or `none` where the sequence breaks off, and the bytes after it. -/
def utf8Tail : Nat → UInt8 → UInt8 → Nat → Bytes → Option Char × Bytes
  | 0, _, _, n, rest => (some (Char.ofNat n), rest)
  | _ + 1, _, _, _, [] => (none, [])
  | missing + 1, low, high, n, b :: rest =>
    if low ≤ b && b ≤ high then utf8Tail missing 0x80 0xBF (n * 64 + b.toNat % 64) rest
    else (none, b :: rest)

theorem length_utf8Tail (missing : Nat) (low high : UInt8) (n : Nat) (bs : Bytes) :
    (utf8Tail missing low high n bs).2.length ≤ bs.length := by
  induction missing generalizing low high n bs with
  | zero => simp [utf8Tail]
  | succ missing ih =>
    cases bs with
    | nil => simp [utf8Tail]
    | cons b rest =>
      unfold utf8Tail
      split
      · exact Nat.le_succ_of_le (ih ..)
      · exact Nat.le_refl _

/-- The characters of `bs`, with `none` for each malformed part. -/
def utf8Chars : Bytes → List (Option Char)
  | [] => []
  | b :: rest =>
    match utf8Lead b with
    | none => none :: utf8Chars rest
    | some (missing, low, high, n) =>
      (utf8Tail missing low high n rest).1 :: utf8Chars (utf8Tail missing low high n rest).2
termination_by bs => bs.length
decreasing_by
  · exact Nat.lt_succ_self _
  · exact Nat.lt_succ_of_le (length_utf8Tail ..)

/-- The text of `bs`, with U+FFFD for each malformed part. -/
def ofUtf8Lossy (bs : Bytes) : String :=
  String.ofList ((utf8Chars bs).map (·.getD (Char.ofNat 0xFFFD)))

/-- The text of `bs`, if it is well formed. -/
def ofUtf8? (bs : Bytes) : Option String :=
  ((utf8Chars bs).mapM id).map String.ofList

def toUtf8 (s : String) : Bytes :=
  s.toUTF8.toList

end PacketQuery.Text
