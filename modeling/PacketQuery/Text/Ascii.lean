/-!
Text compared without regard to the case of ASCII letters, cut at separators, and read as
decimal or hexadecimal numbers. All character classes here are ASCII: a letter outside it
equals itself alone and is neither a digit nor part of a name.
-/

namespace PacketQuery.Text

/-- `s` with the ASCII capitals lowered. -/
def lower (s : String) : String :=
  String.ofList (s.toList.map Char.toLower)

/-- `s` with the ASCII small letters raised. -/
def upper (s : String) : String :=
  String.ofList (s.toList.map Char.toUpper)

/-- Equal up to the case of ASCII letters. -/
def same (a b : String) : Bool :=
  a.toList.map Char.toLower == b.toList.map Char.toLower

/-- The parts before and after the first `sep`. -/
def cut (sep : Char) (s : String) : Option (String × String) :=
  match s.toList.span (· != sep) with
  | (_, []) => none
  | (before, _ :: after) => some (String.ofList before, String.ofList after)

/-- The pieces between the separators; one more than there are separators. -/
def pieces (sep : Char) : List Char → List (List Char)
  | [] => [[]]
  | c :: cs =>
    match pieces sep cs with
    | [] => [[c]]
    | piece :: rest => if c == sep then [] :: piece :: rest else (c :: piece) :: rest

/-- The texts with `sep` between neighbours. -/
def joined (sep : String) (parts : List String) : String :=
  sep.intercalate parts

/-- A character that continues a word: a letter, a digit or the underscore. -/
def isWordChar (c : Char) : Bool :=
  c.isAlphanum || c == '_'

def isHexDigit (c : Char) : Bool :=
  c.isDigit || ('a' ≤ c && c ≤ 'f') || ('A' ≤ c && c ≤ 'F')

def hexValue (c : Char) : Nat :=
  if c.isDigit then c.toNat - 48 else c.toLower.toNat - 87

/-- The number that the digits write in `base`. -/
def valueOf (base : Nat) (digits : List Char) : Nat :=
  digits.foldl (fun n c => n * base + hexValue c) 0

/-- A decimal number: one digit or more and nothing else. -/
def decimal? (cs : List Char) : Option Nat :=
  if cs.isEmpty || !cs.all Char.isDigit then none else some (valueOf 10 cs)

/-- A hexadecimal number: one digit or more and nothing else. -/
def hex? (cs : List Char) : Option Nat :=
  if cs.isEmpty || !cs.all isHexDigit then none else some (valueOf 16 cs)

/-- A decimal number of at most `limit`, where one plus sign may stand in front. -/
def unsigned? (limit : Nat) (cs : List Char) : Option Nat :=
  let digits := match cs with
    | '+' :: rest => rest
    | _ => cs
  (decimal? digits).filter (· ≤ limit)

/-- `cs` filled up with `pad` on the left to at least `width` characters. -/
def padLeft (pad : Char) (width : Nat) (cs : List Char) : List Char :=
  List.replicate (width - cs.length) pad ++ cs

/-- The decimal digits of `n`, at least `width` of them. -/
def digits (width n : Nat) : String :=
  String.ofList (padLeft '0' width (Nat.toDigits 10 n))

/-- The pairs of hexadecimal digits as bytes; `none` at an odd digit or another character. -/
def hexBytes? : List Char → Option (List UInt8)
  | [] => some []
  | [_] => none
  | a :: b :: rest =>
    if isHexDigit a && isHexDigit b then
      (hexBytes? rest).map (UInt8.ofNat (hexValue a * 16 + hexValue b) :: ·)
    else none

end PacketQuery.Text
