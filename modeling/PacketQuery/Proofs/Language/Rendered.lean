import PacketQuery.Language.Eval
import PacketQuery.Proofs.Bytes
import PacketQuery.Proofs.Language.Selecting
import PacketQuery.Proofs.Time.Calendar
import PacketQuery.Report.Cell
/-!
The texts of cells as literals: an address, a moment or a number that is shown in a row can be
written in a statement again, where it stands for the same number.
-/

namespace PacketQuery.Language

/-- A statement up to the right side of a comparison. -/
def comparing : String :=
  "select * from a where x.y == "

/-- What it is divided into. -/
def comparingWords : List (Kind × String) :=
  [(.keyword .select, "select"), (.symbol .star, "*"), (.keyword .from_, "from"), (.name, "a"),
    (.keyword .where_, "where"), (.name, "x"), (.symbol .dot, "."), (.name, "y"),
    (.symbol .equal, "==")]

/-- The same with the field fused. -/
def comparingTokens : List (Kind × String) :=
  [(.keyword .select, "select"), (.symbol .star, "*"), (.keyword .from_, "from"), (.name, "a"),
    (.keyword .where_, "where"), (.field, "x.y"), (.symbol .equal, "==")]

/-- What stands before the literal in the condition. -/
def comparingField : List (Kind × String) :=
  [(.name, "x"), (.symbol .dot, "."), (.name, "y"), (.symbol .equal, "==")]

section Divided

variable {cs : List Char} {xs ys : List (Kind × String)}

theorem lexes_comparingField (after : Lexes (some ' ') cs xs) :
    Lexes (some ' ') ("x.y == ".toList ++ cs) (comparingField ++ xs) := by
  have x : Spelled "x" .name := ⟨⟨'x', rfl, rfl⟩, rfl, by decide +kernel, by decide +kernel⟩
  have y : Spelled "y" .name := ⟨⟨'y', rfl, rfl⟩, rfl, by decide +kernel, by decide +kernel⟩
  have equal : Lexes (some ' ') ('=' :: (['='] ++ ' ' :: cs)) ((.symbol .equal, "==") :: xs) :=
    .one rfl (.blank after)
  have chars : "x.y == ".toList ++ cs
      = "x".toList ++ '.' :: ("y".toList ++ ' ' :: '=' :: (['='] ++ ' ' :: cs)) :=
    rfl
  rw [chars]
  exact lexes_dotted x y equal

theorem comparing_eq : comparing = selecting ++ "x.y == " := by
  decide

theorem lexes_comparing (after : Lexes (some ' ') cs xs) :
    Lexes none (comparing.toList ++ cs) (comparingWords ++ xs) := by
  rw [comparing_eq, String.toList_append, List.append_assoc]
  exact lexes_selecting (lexes_comparingField after)

theorem fuses_comparingField (after : Fuses xs ys) :
    Fuses (comparingField ++ xs) ((.field, "x.y") :: (.symbol .equal, "==") :: ys) :=
  .field ⟨rfl, rfl⟩ (.skip after (.inl (by decide))) (by decide)

theorem fuses_comparing (after : Fuses xs ys) :
    Fuses (comparingWords ++ xs) (comparingTokens ++ ys) := by
  refine .skip (.skip (.skip (.skip (.skip (fuses_comparingField after) (.inl ?_)) (.inr ?_))
    (.inl ?_)) (.inl ?_)) (.inl ?_)
  case refine_2 =>
    rintro _ ⟨⟩
    decide
  all_goals decide

end Divided

/-- The statement of a comparison with a literal. -/
def comparison (literal : Expr) : Statement where
  distinct := false
  projection := .wildcard
  sources := ["a"]
  filter := some (.binary .equal (.field "x.y") literal)
  groupBy := []
  orderBy := []
  protocols := []
  networks := {}
  top := none
  limit := none
  interval := none

section Comparison

variable {now : Int64} {v text : String} {kind : Kind} {xs : List (Kind × String)}
  (lexed : Lexes (some ' ') v.toList xs) (fused : Fuses xs [(kind, text), (.stop, "")])
include lexed fused

theorem composed_comparing : (compose (tokens (comparing ++ v))).map Token.unplaced
    = comparingTokens ++ [(kind, text), (.stop, "")] := by
  refine fuses_comparing fused _ (Lexes.unplaced ?_)
  rw [String.toList_append]
  exact lexes_comparing lexed

theorem parse_comparing {literal : Expr} (flat : literal.nesting = 0)
    (leaf : ∀ t : Token, t.kind = kind → t.text = text → Phrase.Leaf now [t] literal) :
    ∃ s, (parse now (comparing ++ v)).1 = .ok s ∧ s.bare = comparison literal := by
  have lexed' : Lexes (some ' ') ("x.y == " ++ v).toList (comparingField ++ xs) := by
    rw [String.toList_append]
    exact lexes_comparingField lexed
  have shallow : (Expr.binary .equal (.field "x.y") literal).nesting ≤ 63 := by
    rw [Expr.nesting, flat]
    decide
  have accepted := @parse_condition now _ _
    [(.field, "x.y"), (.symbol .equal, "=="), (kind, text)] lexed' (fuses_comparingField fused) _
    (fun us words => ?_) shallow
  · rw [comparing_eq, String.append_assoc]
    exact ⟨_, accepted, rfl⟩
  · simp only [List.map_eq_cons_iff, List.map_eq_nil_iff, Token.unplaced, Prod.mk.injEq] at words
    obtain ⟨field, _, rfl, ⟨field', named⟩, equal, _, rfl, ⟨equal', _⟩, t, _, rfl, ⟨t', value⟩,
      rfl⟩ := words
    have operator : Parser.relation? equal.kind = some .equal := by rw [equal']; rfl
    exact derives_comparison field' named operator (leaf t t' value)

end Comparison

/-- A text on the right side of a comparison is one literal, which stands for the number. -/
structure ReadsBack (now : Int64) (v : String) (literal : Expr) (n : Int64) : Prop where
  token : ∃ kind text, (compose (tokens (comparing ++ v))).map Token.unplaced
    = comparingTokens ++ [(kind, text), (.stop, "")]
  statement : ∃ s, (parse now (comparing ++ v)).1 = .ok s ∧ s.bare = comparison literal
  value : ∀ p, evaluate p now literal = .int n

open Report

/-! ### Integers -/

/-- A numeral is not in the notation with `0x`. -/
theorem integerOf?_numeral {t : Token} (numeral : Text.IsNumeral t.text.toList) :
    Parser.integerOf? t = (Text.decimal? t.text.toList).bind fun n => Number.int64? n := by
  have unmarked : ∀ {mark : Char}, mark.isDigit = false → ∀ hex,
      t.text.toList ≠ '0' :: mark :: hex := by
    intro mark other hex same
    refine numeral.notMem other ?_
    rw [same]
    exact List.mem_cons_of_mem _ List.mem_cons_self
  unfold Parser.integerOf?
  dsimp only
  split
  next hex same => exact absurd same (unmarked rfl hex)
  next hex same => exact absurd same (unmarked rfl hex)
  next => rfl

theorem int64?_toInt (n : Int64) : Number.int64? n.toInt = some n := by
  rw [Number.int64?, if_pos ⟨n.le_toInt, n.toInt_le⟩, Int64.ofInt_toInt]

theorem integerOf?_toString {t : Token} {n : Int64} (positive : 0 ≤ n)
    (text : t.text = toString n.toInt.toNat) : Parser.integerOf? t = some n := by
  have natural : (n.toInt.toNat : Int) = n.toInt :=
    Int.toNat_of_nonneg (Int64.le_iff_toInt_le.mp positive)
  have numeral := Text.isNumeral_toString n.toInt.toNat
  rw [integerOf?_numeral (text ▸ numeral), text, Nat.toString_eq_repr, Nat.toList_repr,
    Text.decimal?_toDigits, Option.bind_some, natural, int64?_toInt]

theorem integer_readsBack (now : Int64) {display : Search.Display} {n : Int64}
    (plain : display ∉ [.ipv4, .mac, .timestamp]) (positive : 0 ≤ n) :
    ReadsBack now (cell display (.int n)) (.integer n) n := by
  have natural : (n.toInt.toNat : Int) = n.toInt :=
    Int.toNat_of_nonneg (Int64.le_iff_toInt_le.mp positive)
  have shown : cell display (.int n) = toString n.toInt.toNat := by
    have text : toString n.toInt = toString n.toInt.toNat := by
      rw [← natural]
      rfl
    cases display with
    | ipv4 | mac | timestamp => simp at plain
    | integer | float | text => exact text
  have numeral := Text.isNumeral_toString n.toInt.toNat
  rw [shown]
  have lexed := @Lexes.numeral (some ' ') [] _ _ numeral (by simp) fun _ => .nil
  rw [List.append_nil] at lexed
  have fused := @Fuses.skip (.integer, toString n.toInt.toNat) _ _ .stop
    (.inr (by rintro _ ⟨⟩; decide))
  refine ⟨⟨_, _, composed_comparing lexed fused⟩, parse_comparing lexed fused rfl ?_, fun p => rfl⟩
  exact fun t kind text => .integer kind (integerOf?_toString positive text)

/-! ### Addresses -/

theorem ipv4Of?_octets {t : Token} {a b c d : Nat} (small : ∀ n ∈ [a, b, c, d], n ≤ 255)
    (text : t.text = toString a ++ "." ++ toString b ++ "." ++ toString c ++ "." ++ toString d) :
    Parser.ipv4Of? t = some (UInt32.ofNat (((a * 256 + b) * 256 + c) * 256 + d)) := by
  have dot : ∀ n, '.' ∉ Nat.toDigits 10 n := fun n => (Text.isNumeral_toDigits n).notMem rfl
  have written : t.text.toList = Nat.toDigits 10 a ++ '.' :: (Nat.toDigits 10 b ++ '.' ::
      (Nat.toDigits 10 c ++ '.' :: Nat.toDigits 10 d)) := by
    rw [text]
    simp [String.toList_append]
  have pieces : (Text.pieces '.' t.text.toList).take 4 = [Nat.toDigits 10 a, Nat.toDigits 10 b,
      Nat.toDigits 10 c, Nat.toDigits 10 d] := by
    rw [written, Text.pieces_append_cons, Text.pieces_append_cons, Text.pieces_append_cons,
      Text.pieces_of_notMem (dot a), Text.pieces_of_notMem (dot b), Text.pieces_of_notMem (dot c),
      Text.pieces_of_notMem (dot d)]
    rfl
  simp only [List.forall_mem_cons] at small
  obtain ⟨a', b', c', d', _⟩ := small
  rw [Parser.ipv4Of?, pieces]
  simp [Text.unsigned?_toDigits, a', b', c', d']

theorem ipv4Text_eq (a : UInt32) : Address.ipv4Text a =
    toString (Address.octet a.toNat 3) ++ "." ++ toString (Address.octet a.toNat 2) ++ "."
      ++ toString (Address.octet a.toNat 1) ++ "." ++ toString (Address.octet a.toNat 0) :=
  rfl

theorem ofNat_octets (a : UInt32) : UInt32.ofNat (((Address.octet a.toNat 3 * 256
    + Address.octet a.toNat 2) * 256 + Address.octet a.toNat 1) * 256 + Address.octet a.toNat 0)
    = a := by
  have bound := a.toNat_lt
  have number : ((Address.octet a.toNat 3 * 256 + Address.octet a.toNat 2) * 256
      + Address.octet a.toNat 1) * 256 + Address.octet a.toNat 0 = a.toNat := by
    simp only [Address.octet, Nat.shiftRight_eq_div_pow]
    omega
  rw [number, UInt32.ofNat_toNat]

/-- What the text of an address is divided into. -/
def octetWords (a : UInt32) : List (Kind × String) :=
  [(.integer, toString (Address.octet a.toNat 3)), (.symbol .dot, "."),
    (.integer, toString (Address.octet a.toNat 2)), (.symbol .dot, "."),
    (.integer, toString (Address.octet a.toNat 1)), (.symbol .dot, "."),
    (.integer, toString (Address.octet a.toNat 0))]

section Address

variable (a : UInt32)

theorem octets_numerals : ∀ s ∈ [toString (Address.octet a.toNat 3),
    toString (Address.octet a.toNat 2), toString (Address.octet a.toNat 1),
    toString (Address.octet a.toNat 0)], Text.IsNumeral s.toList := by
  simp only [List.forall_mem_cons, List.not_mem_nil, false_implies, implies_true, and_true]
  exact ⟨Text.isNumeral_toString _, Text.isNumeral_toString _, Text.isNumeral_toString _,
    Text.isNumeral_toString _⟩

theorem lexes_address {previous : Option Char} {rest : List Char} {xs : List (Kind × String)}
    (apart : previous ≠ some ':') (ends : ∀ e ∈ rest.head?, e.isDigit = false ∧ e ≠ '.')
    (after : ∀ q, Lexes q rest xs) :
    Lexes previous ((Address.ipv4Text a).toList ++ rest) (octetWords a ++ xs) := by
  rw [ipv4Text_eq]
  exact .quad (octets_numerals a) apart ends after

theorem fuses_address {xs ys : List (Kind × String)} (after : Fuses xs ys) :
    Fuses (octetWords a ++ xs) ((.ipv4, Address.ipv4Text a) :: ys) := by
  rw [ipv4Text_eq]
  exact .ipv4 (octets_numerals a) after

theorem ipv4Of?_address {t : Token} (text : t.text = Address.ipv4Text a) :
    Parser.ipv4Of? t = some a := by
  rw [ipv4Of?_octets _ text, ofNat_octets]
  simp only [List.forall_mem_cons, List.not_mem_nil, false_implies, implies_true, and_true,
    Address.octet]
  omega

end Address

theorem address_of_host (a : UInt32) : (Network.of a 32).address = a := by
  have mask : Network.mask 32 = -1 := by decide
  rw [Network.of, Nat.min_self, mask]
  exact UInt32.and_neg_one

theorem ipv4_readsBack (now : Int64) (a : UInt32) :
    ReadsBack now (cell .ipv4 (.int (Int64.ofNat a.toNat))) (.ipv4 (Network.of a 32))
      (Int64.ofNat a.toNat) := by
  have bound := a.toNat_lt
  have number : (Int64.ofNat a.toNat).toInt = a.toNat :=
    Int64.toInt_ofNat_of_lt (by omega)
  have shown : cell .ipv4 (.int (Int64.ofNat a.toNat)) = Address.ipv4Text a := by
    have fits : (0 : Int) ≤ a.toNat ∧ (a.toNat : Int) < UInt32.size := by
      constructor
      · exact Int.natCast_nonneg _
      · exact_mod_cast bound
    simp only [cell, number, if_pos fits, Int.toNat_natCast, UInt32.ofNat_toNat]
  rw [shown]
  have lexed := @lexes_address a (some ' ') [] _ (by decide) (by simp) fun _ => .nil
  have fused := fuses_address a .stop
  rw [List.append_nil] at lexed
  refine ⟨⟨_, _, composed_comparing lexed fused⟩, parse_comparing lexed fused rfl ?_, fun p => ?_⟩
  · exact fun t kind text => .address kind (ipv4Of?_address a text)
  · rw [evaluate, address_of_host]

/-! ### Moments -/

section Moment

variable {y m d h i s : String}
  (numerals : ∀ n ∈ [y, m, d, h, i, s], Text.IsNumeral n.toList)
include numerals

theorem lexes_moment {previous : Option Char} :
    Lexes previous (y ++ "-" ++ m ++ "-" ++ d ++ " " ++ (h ++ ":" ++ i ++ ":" ++ s)).toList
      [(.integer, y), (.symbol .minus, "-"), (.integer, m), (.symbol .minus, "-"), (.integer, d),
        (.integer, h), (.symbol .colon, ":"), (.integer, i), (.symbol .colon, ":"), (.integer, s),
        (.stop, "")] := by
  simp only [List.forall_mem_cons, List.not_mem_nil, false_implies, implies_true, and_true]
    at numerals
  obtain ⟨y', m', d', h', i', s'⟩ := numerals
  have written : (y ++ "-" ++ m ++ "-" ++ d ++ " " ++ (h ++ ":" ++ i ++ ":" ++ s)).toList
      = y.toList ++ '-' :: (m.toList ++ '-' :: (d.toList ++ ' ' :: (h.toList ++ ':' ::
        (i.toList ++ ':' :: (s.toList ++ []))))) := by
    simp [String.toList_append]
  have ends : ∀ {c : Char} {tail : List Char}, Text.isHexDigit c = false ∧ c ∉ ['x', 'X', '.'] →
      ∀ e ∈ (c :: tail).head?, Text.isHexDigit e = false ∧ e ∉ ['x', 'X', '.'] := by
    rintro c tail stops e ⟨⟩
    exact stops
  have mark : ∀ {c : Char} {tail : List Char}, (∀ e, Symbol.ofPair? c e = none) →
      ∀ e ∈ tail.head?, Symbol.ofPair? c e = none := fun none e _ => none e
  rw [written]
  refine .numeral y' (ends (by decide)) fun _ => .mark rfl (by decide) (mark fun _ => rfl) rfl ?_
  refine .numeral m' (ends (by decide)) fun _ => .mark rfl (by decide) (mark fun _ => rfl) rfl ?_
  refine .numeral d' (ends (by decide)) fun _ => .blank ?_
  refine .numeral h' (ends (by decide)) fun _ => .mark rfl (by decide) (mark fun _ => rfl) rfl ?_
  refine .numeral i' (ends (by decide)) fun _ => .mark rfl (by decide) (mark fun _ => rfl) rfl ?_
  exact .numeral s' (by simp) fun _ => .nil

end Moment

theorem momentOf?_text {t : Token} {now seconds : Int64} (kind : t.kind = .timestamp)
    (four : Time.HasFourDigits seconds.toInt) (text : t.text = Time.text seconds.toInt) :
    Parser.momentOf? now t = some seconds := by
  have short : (seconds.toInt % Time.secondsPerDay).toNat < 86400 := by
    unfold Time.secondsPerDay
    omega
  have parts : Text.cut ' ' t.text =
      some (Time.dateText (Time.Date.ofDays (seconds.toInt / Time.secondsPerDay)),
        Time.clockText (seconds.toInt % Time.secondsPerDay).toNat) := by
    refine Text.cut_eq_some ?_ ?_
    · have digits := Time.notMem_digits (c := ' ') rfl
      simp [Time.dateText, String.toList_append, digits]
    · rw [text, Time.text_eq four]
      simp [String.toList_append]
  have date := Time.readDate?_dateText four.1 four.2 (Time.Date.isValid_ofDays _)
  have clock := Time.readClock?_clockText short
  unfold Parser.momentOf?
  dsimp only
  rw [kind]
  simp only [parts, date, clock, Option.bind_eq_bind, Option.bind_some, Option.map_some,
    Time.ofDate_ofDays_add, Int64.ofInt_toInt]

theorem timestamp_readsBack (now : Int64) {t : Int64} (four : Time.HasFourDigits t.toInt) :
    ReadsBack now (cell .timestamp (.int t)) (.moment t) t := by
  have shown : cell .timestamp (.int t) = Time.text t.toInt := rfl
  rw [shown]
  obtain ⟨_, _, _, _, _, _, numerals, written⟩ := Time.text_numerals four
  have lexed := @lexes_moment _ _ _ _ _ _ numerals (some ' ')
  have fused := Fuses.timestamp numerals
  rw [← written] at lexed fused
  refine ⟨⟨_, _, composed_comparing lexed fused⟩, parse_comparing lexed fused rfl ?_, fun p => rfl⟩
  exact fun _ kind text => .moment (momentOf?_text kind four text)

/-! ### Hardware addresses -/

/-- How a group of two hexadecimal digits begins decides whether it is a number or a word. -/
def groupOf (b : UInt8) : Kind × String :=
  (if b.toNat < 160 then .integer else .name, String.ofList (Bytes.hexPair b))

theorem hexDigit_spec : ∀ n < 16, Text.isHexDigit (Bytes.hexDigit n) = true ∧
    Text.hexValue (Bytes.hexDigit n) = n ∧ (Bytes.hexDigit n).toLower = Bytes.hexDigit n ∧
    (n < 10 → (Bytes.hexDigit n).isDigit = true) ∧
    (10 ≤ n → (Bytes.hexDigit n).isAlpha = true) := by
  decide

/-- The words that the kind of a word is told by. -/
def knownWords : List String :=
  ["order", "group"] ++ Keyword.spellings.map (·.1) ++ baseProtocols ++ Service.all.map (·.name)

/-- No keyword and no protocol has a name of two hexadecimal digits. -/
theorem knownWords_not_hex : (knownWords.all fun word =>
    word.toList.length != 2 || !(word.toList.map Char.toLower).all Text.isHexDigit) = true := by
  decide +kernel

section Pair

variable (b : UInt8)

theorem half_lt : b.toNat / 16 < 16 ∧ b.toNat % 16 < 16 := by
  have byte := b.toNat_lt
  omega

theorem hex_pair : ∀ c ∈ Bytes.hexPair b, Text.isHexDigit c = true := by
  have high := (hexDigit_spec _ (half_lt b).1).1
  have low := (hexDigit_spec _ (half_lt b).2).1
  simp [Bytes.hexPair, high, low]

theorem hex?_pair : Text.hex? (Bytes.hexPair b) = some b.toNat := by
  have digits := List.all_eq_true.mpr (hex_pair b)
  obtain ⟨-, high, -⟩ := hexDigit_spec _ (half_lt b).1
  obtain ⟨-, low, -⟩ := hexDigit_spec _ (half_lt b).2
  have whole : b.toNat / 16 * 16 + b.toNat % 16 = b.toNat := Nat.div_add_mod' _ _
  rw [Text.hex?, digits]
  simp [Bytes.hexPair, Text.valueOf, high, low, whole]

theorem lower_pair : (Bytes.hexPair b).map Char.toLower = Bytes.hexPair b := by
  obtain ⟨-, -, high, -⟩ := hexDigit_spec _ (half_lt b).1
  obtain ⟨-, -, low, -⟩ := hexDigit_spec _ (half_lt b).2
  simp [Bytes.hexPair, high, low]

theorem colon_notMem_pair : ':' ∉ Bytes.hexPair b := by
  intro member
  cases hex_pair b ':' member

theorem isHexGroup_groupOf : Literal.isHexGroup (Literal.placed (groupOf b)) = true := by
  have digits := List.all_eq_true.mpr (hex_pair b)
  have two : (Bytes.hexPair b).length = 2 := rfl
  unfold groupOf
  split <;> simp [Literal.isHexGroup, Literal.placed, digits, two]

theorem digits_of_lt (small : b.toNat < 160) :
    (Bytes.hexDigit (b.toNat / 16)).isDigit = true ∧
      Text.isHexDigit (Bytes.hexDigit (b.toNat % 16)) = true := by
  obtain ⟨-, -, -, digit, -⟩ := hexDigit_spec _ (half_lt b).1
  exact ⟨digit (by omega), (hexDigit_spec _ (half_lt b).2).1⟩

theorem not_same_pair {word : String} (known : word ∈ knownWords) :
    Text.same word (String.ofList (Bytes.hexPair b)) = false := by
  refine eq_false_of_ne_true fun same => ?_
  rw [Text.same_iff, String.toList_ofList, lower_pair] at same
  have two : word.toList.length = 2 := by
    rw [← List.length_map Char.toLower, same]
    rfl
  have other := List.all_eq_true.mp knownWords_not_hex word known
  rw [same, two, List.all_eq_true.mpr (hex_pair b)] at other
  cases other

theorem word_pair : Step.pairKeyword? (String.ofList (Bytes.hexPair b)) = none ∧
    Kind.ofWord (String.ofList (Bytes.hexPair b)) = .name := by
  have other := fun word known => @not_same_pair b word known
  simp only [knownWords, List.forall_mem_append, List.forall_mem_cons, List.forall_mem_map] at other
  obtain ⟨⟨⟨⟨order, group, -⟩, keyword⟩, base⟩, service⟩ := other
  constructor
  · rw [Step.pairKeyword?, Text.same_comm, order, Text.same_comm, group]
    rfl
  · have keyless : Keyword.ofWord? (String.ofList (Bytes.hexPair b)) = none := by
      simpa [Keyword.ofWord?] using keyword
    have foreign : isProtocolName (String.ofList (Bytes.hexPair b)) = false := by
      simpa [isProtocolName, Service.isName] using ⟨base, service⟩
    rw [Kind.ofWord, keyless, foreign]
    rfl

theorem word_of_le (large : 160 ≤ b.toNat) :
    (Bytes.hexDigit (b.toNat / 16)).isAlpha = true ∧
      Text.isWordChar (Bytes.hexDigit (b.toNat % 16)) = true := by
  obtain ⟨-, -, -, -, letter⟩ := hexDigit_spec _ (half_lt b).1
  obtain ⟨-, -, -, digit, letter'⟩ := hexDigit_spec _ (half_lt b).2
  refine ⟨letter (by omega), ?_⟩
  rcases Nat.lt_or_ge (b.toNat % 16) 10 with small | large
  · simp [Text.isWordChar, Char.isAlphanum, digit small]
  · simp [Text.isWordChar, Char.isAlphanum, letter' large]

end Pair

theorem lexes_group (b : UInt8) {previous : Option Char} {rest : List Char}
    {xs : List (Kind × String)} (ends : ∀ d ∈ rest.head?, d = ':')
    (colon : previous = some ':' ∨ rest.head? = some ':') (after : ∀ q, Lexes q rest xs) :
    Lexes previous (Bytes.hexPair b ++ rest) (groupOf b :: xs) := by
  by_cases small : b.toNat < 160
  · obtain ⟨digit, hex⟩ := digits_of_lt b small
    rw [groupOf, if_pos small]
    refine Lexes.group digit (List.forall_mem_singleton.mpr hex) (fun d head => ?_) colon after
    rw [ends d head]
    decide
  · obtain ⟨letter, word⟩ := word_of_le b (not_lt.mp small)
    obtain ⟨single, named⟩ := word_pair b
    rw [groupOf, if_neg small]
    refine Lexes.word letter (List.forall_mem_singleton.mpr word) (fun d head => ?_) rfl single
      named after
    rw [ends d head]
    rfl

section Mac

variable (a b c d e f : UInt8)

theorem toList_pairsText : (Address.pairsText [a, b, c, d, e, f]).toList =
    Bytes.hexPair a ++ ':' :: (Bytes.hexPair b ++ ':' :: (Bytes.hexPair c ++ ':' ::
      (Bytes.hexPair d ++ ':' :: (Bytes.hexPair e ++ ':' :: Bytes.hexPair f)))) := by
  have joined : Address.pairsText [a, b, c, d, e, f] = String.ofList (Bytes.hexPair a) ++ ":"
      ++ String.ofList (Bytes.hexPair b) ++ ":" ++ String.ofList (Bytes.hexPair c) ++ ":"
      ++ String.ofList (Bytes.hexPair d) ++ ":" ++ String.ofList (Bytes.hexPair e) ++ ":"
      ++ String.ofList (Bytes.hexPair f) :=
    rfl
  rw [joined]
  simp [String.toList_append]

theorem lexes_mac {previous : Option Char} :
    Lexes previous (Address.pairsText [a, b, c, d, e, f]).toList
      [groupOf a, (.symbol .colon, ":"), groupOf b, (.symbol .colon, ":"), groupOf c,
        (.symbol .colon, ":"), groupOf d, (.symbol .colon, ":"), groupOf e,
        (.symbol .colon, ":"), groupOf f, (.stop, "")] := by
  have group : ∀ (b : UInt8) {previous : Option Char} {rest : List Char}
      {xs : List (Kind × String)}, Lexes (some ':') rest xs →
      Lexes previous (Bytes.hexPair b ++ ':' :: rest)
        (groupOf b :: (.symbol .colon, ":") :: xs) := by
    intro b previous rest xs after
    refine lexes_group b (by rintro d ⟨⟩; rfl) (.inr rfl) fun q => ?_
    exact .mark rfl (by decide) (fun _ _ => rfl) rfl after
  have last : Lexes (some ':') (Bytes.hexPair f) [groupOf f, (.stop, "")] := by
    rw [← List.append_nil (Bytes.hexPair f)]
    exact lexes_group f (by simp) (.inl rfl) fun _ => .nil
  rw [toList_pairsText]
  exact group a (group b (group c (group d (group e last))))

theorem fuses_mac : Fuses [groupOf a, (.symbol .colon, ":"), groupOf b, (.symbol .colon, ":"),
      groupOf c, (.symbol .colon, ":"), groupOf d, (.symbol .colon, ":"), groupOf e,
      (.symbol .colon, ":"), groupOf f, (.stop, "")]
    [(.mac, Address.pairsText [a, b, c, d, e, f]), (.stop, "")] := by
  have fused := @Fuses.mac (groupOf a) (groupOf b) (groupOf c) (groupOf d) (groupOf e) (groupOf f)
    (by simp [isHexGroup_groupOf])
  have same : ∀ b, String.ofList (Text.padLeft '0' 2 (Text.lower (groupOf b).2).toList)
      = String.ofList (Bytes.hexPair b) := by
    intro b
    rw [Text.lower, String.toList_ofList, groupOf, String.toList_ofList, lower_pair]
    rfl
  simp only [List.map_cons, List.map_nil, same] at fused
  exact fused

theorem macOf?_pairs {t : Token} (text : t.text = Address.pairsText [a, b, c, d, e, f]) :
    Parser.macOf? t = some (UInt64.ofNat (Bytes.toNatBE [a, b, c, d, e, f])) := by
  have uncut : ∀ b : UInt8, Text.pieces ':' (Bytes.hexPair b) = [Bytes.hexPair b] :=
    fun b => Text.pieces_of_notMem (colon_notMem_pair b)
  have pieces : Text.pieces ':' t.text.toList = [a, b, c, d, e, f].map Bytes.hexPair := by
    rw [text, toList_pairsText]
    simp only [Text.pieces_append_cons, uncut]
    rfl
  rw [Parser.macOf?, pieces]
  simp [hex?_pair, Bytes.toNatBE]

end Mac

theorem mac_readsBack (now : Int64) {m : Nat} (fits : m < 2 ^ 48) :
    ReadsBack now (cell .mac (.int (Int64.ofNat m))) (.mac (UInt64.ofNat m)) (Int64.ofNat m) := by
  have number : (Int64.ofNat m).toInt = m := Int64.toInt_ofNat_of_lt (by omega)
  have address : (UInt64.ofNat m).toNat = m := UInt64.toNat_ofNat_of_lt (lt_trans fits (by decide))
  have shown : cell .mac (.int (Int64.ofNat m)) = Address.pairsText (Bytes.ofNatBE 6 m) := by
    have positive : (0 : Int) ≤ m := Int.natCast_nonneg m
    simp only [cell, number, if_pos positive, Int.toNat_natCast, Address.macText, address]
  obtain ⟨a, b, c, d, e, f, octets⟩ : ∃ a b c d e f, Bytes.ofNatBE 6 m = [a, b, c, d, e, f] :=
    ⟨_, _, _, _, _, _, rfl⟩
  have value : Bytes.toNatBE [a, b, c, d, e, f] = m := by
    rw [← octets, toNatBE_ofNatBE]
    exact Nat.mod_eq_of_lt fits
  rw [shown, octets]
  have lexed := @lexes_mac a b c d e f (some ' ')
  have fused := fuses_mac a b c d e f
  refine ⟨⟨_, _, composed_comparing lexed fused⟩, parse_comparing lexed fused rfl ?_, fun p => ?_⟩
  · intro t kind text
    refine .mac kind ?_
    rw [macOf?_pairs a b c d e f text, value]
  · rw [evaluate, address]

/-- What a row shows of an address, a moment or a number is a literal of the same number. -/
theorem rendered_readsBack (now : Int64) :
    (∀ a : UInt32, ReadsBack now (cell .ipv4 (.int (Int64.ofNat a.toNat)))
      (.ipv4 (Network.host a)) (Int64.ofNat a.toNat)) ∧
    (∀ m < 2 ^ 48, ReadsBack now (cell .mac (.int (Int64.ofNat m)))
      (.mac (UInt64.ofNat m)) (Int64.ofNat m)) ∧
    (∀ t : Int64, Time.HasFourDigits t.toInt → ReadsBack now (cell .timestamp (.int t))
      (.moment t) t) ∧
    (∀ (display : Search.Display) (n : Int64), display ∉ [.ipv4, .mac, .timestamp] → 0 ≤ n →
      ReadsBack now (cell display (.int n)) (.integer n) n) :=
  ⟨ipv4_readsBack now, fun _ fits => mac_readsBack now fits,
    fun _ four => timestamp_readsBack now four,
    fun _ _ plain positive => integer_readsBack now plain positive⟩

theorem rendered_readsBack_samples :
    ReadsBack 0 "0a:1b:2c:3d:4e:5f" (.mac 0x0a1b2c3d4e5f) 0x0a1b2c3d4e5f ∧
      ReadsBack 0 "2024-05-10 12:00:00" (.moment 1715342400) 1715342400 ∧
      ReadsBack 0 "42" (.integer 42) 42 := by
  obtain ⟨_, mac, moment, integer⟩ := rendered_readsBack 0
  have mac' := mac 0x0a1b2c3d4e5f (by decide)
  have moment' := moment 1715342400 (by unfold Time.HasFourDigits; decide)
  have integer' := integer .integer 42 (by decide) (by decide)
  have macShown : cell .mac (.int (Int64.ofNat 0x0a1b2c3d4e5f)) = "0a:1b:2c:3d:4e:5f" := by
    decide +kernel
  have momentShown : cell .timestamp (.int 1715342400) = "2024-05-10 12:00:00" := by
    decide +kernel
  rw [macShown] at mac'
  rw [momentShown] at moment'
  exact ⟨mac', moment', integer'⟩

end PacketQuery.Language
