import PacketQuery.Proofs.Language.Running
import PacketQuery.Proofs.Language.Endings
import PacketQuery.Proofs.Language.Composition
import PacketQuery.Proofs.Text.Case
import PacketQuery.Proofs.Time.Calendar
import Mathlib
/-!
Reading any text is safe. It ends by itself and never looks past the end of the tokens, a failure
names a token that it came by, and what is computed of a token in a machine integer is what it
would be without a bound.
-/

namespace PacketQuery

/-! ### Integers of 64 bits -/

theorem Number.int64?_eq_some_iff {x : Int} {n : Int64} : int64? x = some n ↔ n.toInt = x := by
  constructor
  · intro h
    unfold int64? at h
    split at h
    next fits =>
      cases h
      exact Int64.toInt_ofInt_of_le fits.1 (Int.lt_of_le_sub_one fits.2)
    next => cases h
  · rintro rfl
    rw [int64?, if_pos ⟨n.le_toInt, n.toInt_le⟩, Int64.ofInt_toInt]

/-- A moment is reckoned back exactly, and only where neither the distance nor the moment leaves 64
bits. -/
theorem Time.Unit.shiftBack_eq_some_iff {u : Unit} {now offset m : Int64} :
    u.shiftBack now offset = some m ↔
      (∃ distance : Int64, distance.toInt = offset.toInt * u.length) ∧
        m.toInt = now.toInt - offset.toInt * u.length := by
  refine Option.bind_eq_some_iff.trans ?_
  constructor
  · rintro ⟨distance, far, moment⟩
    rw [Number.int64?_eq_some_iff] at far moment
    exact ⟨⟨distance, far⟩, far ▸ moment⟩
  · rintro ⟨⟨distance, far⟩, moment⟩
    exact ⟨distance, Number.int64?_eq_some_iff.mpr far,
      Number.int64?_eq_some_iff.mpr (far ▸ moment)⟩

section Counts

variable {n : Int64} (positive : 0 ≤ n.toInt)
include positive

theorem toInt_neg_of_nonneg : (-n).toInt = -n.toInt := by
  have high := n.toInt_lt
  rw [Int64.toInt_neg, Int.bmod_eq_of_le] <;> omega

theorem toNat_toUInt64_of_nonneg : (n.toUInt64.toNat : Int) = n.toInt := by
  have le : 0 ≤ n := Int64.le_iff_toInt_le.mpr positive
  rw [Int64.toNat_toUInt64_of_le le]
  exact Int.toNat_of_nonneg positive

theorem toNat_ofNat_of_byte (small : n.toInt ≤ 255) :
    ((UInt8.ofNat n.toInt.toNat).toNat : Int) = n.toInt := by
  have fits : n.toInt.toNat < 256 := by omega
  rw [UInt8.toNat_ofNat', Nat.mod_eq_of_lt fits]
  exact Int.toNat_of_nonneg positive

end Counts

namespace Language

namespace Parser

/-! ### Numbers -/

/-- The number that a token writes in digits, without a bound. -/
def numberOf? (t : Token) : Option Nat :=
  match t.text.toList with
  | '0' :: 'x' :: hex => Text.hex? hex
  | '0' :: 'X' :: hex => Text.hex? hex
  | cs => Text.decimal? cs

theorem integerOf?_eq_some_iff {t : Token} {n : Int64} : integerOf? t = some n ↔
    ∃ number : Nat, numberOf? t = some number ∧ n.toInt = number := by
  have read : integerOf? t = (numberOf? t).bind fun number => Number.int64? number := rfl
  rw [read, Option.bind_eq_some_iff]
  simp only [Number.int64?_eq_some_iff]

/-! ### Numbers of several octets -/

/-- Octets as one number, the first the highest. -/
def joinOctets (octets : List Nat) : Nat :=
  octets.foldl (fun n octet => n * 256 + octet) 0

theorem joinOctets_lt {octets : List Nat} (small : ∀ n ∈ octets, n < 256) :
    joinOctets octets < 256 ^ octets.length := by
  simpa [joinOctets] using @Text.foldl_base_lt _ 256 id octets small 0

/-- The octets of an IPv4 address that a token writes. -/
def quad? (t : Token) : Option (List Nat) :=
  match (Text.pieces '.' t.text.toList).take 4 with
  | [a, b, c, d] => [a, b, c, d].mapM (Text.unsigned? 255)
  | _ => none

theorem ipv4Of?_eq (t : Token) :
    ipv4Of? t = (quad? t).map fun octets => UInt32.ofNat (joinOctets octets) := by
  unfold ipv4Of? quad?
  generalize (Text.pieces '.' t.text.toList).take 4 = parts
  rcases parts with _ | ⟨a, _ | ⟨b, _ | ⟨c, _ | ⟨d, _ | _⟩⟩⟩⟩
  case cons.cons.cons.cons.nil =>
    rw [Option.map_eq_bind]
    rfl
  all_goals rfl

/-- The octets of a hardware address that a token writes. -/
def groups? (t : Token) : Option (List Nat) :=
  (Text.pieces ':' t.text.toList).mapM Text.hex?

theorem macOf?_eq (t : Token) :
    macOf? t = (groups? t).map fun octets => UInt64.ofNat (joinOctets octets) := by
  rw [Option.map_eq_bind]
  rfl

theorem of_mapM {α β : Type} {f : α → Option β} {xs : List α} {ys : List β}
    (h : xs.mapM f = some ys) : ys.length = xs.length ∧ ∀ y ∈ ys, ∃ x ∈ xs, f x = some y := by
  induction xs generalizing ys with
  | nil =>
    cases h
    simp
  | cons x xs ih =>
    rw [List.mapM_cons] at h
    obtain ⟨y, first, h⟩ := Option.bind_eq_some_iff.mp h
    obtain ⟨zs, others, h⟩ := Option.bind_eq_some_iff.mp h
    cases h
    obtain ⟨lengths, each⟩ := ih others
    refine ⟨congrArg (· + 1) lengths, List.forall_mem_cons.mpr ⟨⟨x, by simp, first⟩, ?_⟩⟩
    intro z member
    obtain ⟨w, inside, read⟩ := each z member
    exact ⟨w, List.mem_cons_of_mem x inside, read⟩

theorem quad?_lt {t : Token} {octets : List Nat} (h : quad? t = some octets) :
    joinOctets octets < 2 ^ 32 := by
  unfold quad? at h
  split at h
  next a b c d _ =>
    obtain ⟨four, each⟩ := of_mapM h
    have small : ∀ n ∈ octets, n < 256 := by
      intro n member
      obtain ⟨text, -, read⟩ := each n member
      have limit := (Option.filter_eq_some_iff.mp read).2
      exact Nat.lt_succ_of_le (of_decide_eq_true limit)
    have bound := joinOctets_lt small
    rw [four, show [a, b, c, d].length = 4 from rfl] at bound
    omega
  next => cases h

/-! ### Moments -/

/-- The seconds since the epoch that a token writes, without a bound. -/
def secondsOf? (now : Int64) (t : Token) : Option Int :=
  match t.kind with
  | .date => (Time.readDate? t.text.toList).map Time.ofDate
  | .time => (Time.readClock? t.text.toList).map fun s => Time.midnight now.toInt + s
  | .timestamp => do
    let (date, clock) ← Text.cut ' ' t.text
    let day ← Time.readDate? date.toList
    let s ← Time.readClock? clock.toList
    some (Time.ofDate day + s)
  | _ => none

theorem momentOf?_eq (now : Int64) (t : Token) :
    momentOf? now t = (secondsOf? now t).map Int64.ofInt := rfl

/-- The day of the moment `now` lies within 64 bits. The moments of a calendar of some hundred
thousand years do; the integers within a day of the least one do not. -/
def DayFits (now : Int64) : Prop :=
  -2 ^ 63 ≤ Time.midnight now.toInt ∧ Time.midnight now.toInt + 86400 ≤ 2 ^ 63

theorem secondsOf?_range {now : Int64} (day : DayFits now) {t : Token} {s : Int}
    (h : secondsOf? now t = some s) : -2 ^ 63 ≤ s ∧ s < 2 ^ 63 := by
  unfold secondsOf? at h
  split at h
  next =>
    obtain ⟨date, read, rfl⟩ := Option.map_eq_some_iff.mp h
    obtain ⟨first, last, short⟩ := Time.readDate?_range read
    have range := Time.ofDate_range first last short
    omega
  next =>
    obtain ⟨_, whole, rfl⟩ := Option.map_eq_some_iff.mp h
    obtain ⟨clock, read, same⟩ := Option.bind_eq_some_iff.mp whole
    cases same
    have short := Time.readClock?_lt read
    unfold DayFits at day
    omega
  next =>
    obtain ⟨parts, -, h⟩ := Option.bind_eq_some_iff.mp h
    obtain ⟨date, read, h⟩ := Option.bind_eq_some_iff.mp h
    obtain ⟨clock, readClock, h⟩ := Option.bind_eq_some_iff.mp h
    obtain ⟨first, last, short⟩ := Time.readDate?_range read
    have range := Time.ofDate_range first last short
    have shortClock := Time.readClock?_lt readClock
    cases h
    omega
  next => cases h

end Parser

/-! ### Hardware addresses -/

theorem everyOther_of_alternating {mark : Symbol} {item : Token → Bool} {marks : Nat}
    {us : List Token}
    (fits : List.Forall₂ (fun t test => test t = true) us (Form.alternating mark item marks)) :
    (Literal.everyOther us).length = marks + 1 ∧
      ∀ u ∈ Literal.everyOther us, item u = true := by
  induction marks generalizing us with
  | zero =>
    cases fits with
    | cons passed rest =>
      cases rest
      simpa [Literal.everyOther] using passed
  | succ marks ih =>
    cases fits with
    | cons passed later =>
      cases later with
      | cons _ rest =>
        obtain ⟨length, each⟩ := ih rest
        rw [Literal.everyOther, List.length_cons, length, List.forall_mem_cons]
        exact ⟨rfl, passed, each⟩

/-- A hardware address is composed of six groups of one or two digits. -/
theorem exists_groups {text : String} {t : Token} (member : t ∈ compose (tokens text))
    (kind : t.kind = .mac) : ∃ us : List Token, us.length = 6 ∧
      (∀ u ∈ us, Literal.isHexGroup u = true) ∧ t.text = Text.joined ":" (us.map fun u =>
        String.ofList (Text.padLeft '0' 2 (Text.lower u.text).toList)) := by
  rcases mem_compose_cases member with before | ⟨f, form, us, fits, sameKind, sameText⟩
  · refine absurd ?_ (raw_tokens text t before)
    rw [kind]
    decide
  · have mac : f = Form.mac := by
      have single : ∀ f ∈ Form.all, f.kind = .mac → f = Form.mac := by
        intro f form made
        simp only [Form.all, List.mem_cons, List.not_mem_nil, or_false] at form
        rcases form with rfl | rfl | rfl | rfl | rfl | rfl <;> first | rfl | cases made
      exact single f form (sameKind.symm.trans kind)
    subst mac
    obtain ⟨six, each⟩ := everyOther_of_alternating fits
    exact ⟨Literal.everyOther us, six, each, sameText⟩

/-- What is computed of the groups of a hardware address fits 48 bits. -/
theorem groups?_lt {text : String} {t : Token} (member : t ∈ compose (tokens text))
    (kind : t.kind = .mac) {octets : List Nat} (h : Parser.groups? t = some octets) :
    Parser.joinOctets octets < 2 ^ 48 := by
  obtain ⟨us, six, each, written⟩ := exists_groups member kind
  -- a group is filled up to two digits, and no colon is one of them
  have groups : ∀ u ∈ us, (Text.padLeft '0' 2 (Text.lower u.text).toList).length ≤ 2 ∧
      ':' ∉ Text.padLeft '0' 2 (Text.lower u.text).toList := by
    intro u found
    have group := each u found
    simp only [Literal.isHexGroup, Bool.and_eq_true, decide_eq_true_eq, List.all_eq_true] at group
    rw [Text.padLeft, List.length_append, List.length_replicate, String.length_toList,
      Text.length_lower, List.mem_append, not_or, Text.toList_lower]
    refine ⟨by omega, by simp, fun inside => ?_⟩
    obtain ⟨c, char, lowered⟩ := List.mem_map.mp inside
    have colon := (Text.toLower_eq_iff (by decide)).mp lowered
    rw [colon] at char
    cases group.2 ':' char
  have pieces : Text.pieces ':' t.text.toList = us.map fun u =>
      Text.padLeft '0' 2 (Text.lower u.text).toList := by
    have some_ : us ≠ [] := by
      rintro rfl
      cases six
    have cut := @Text.pieces_joined ':' (us.map fun u =>
      String.ofList (Text.padLeft '0' 2 (Text.lower u.text).toList))
      (by simpa using some_) (by simpa using fun u found => (groups u found).2)
    rw [written]
    simpa [Function.comp_def] using cut
  rw [Parser.groups?, pieces] at h
  obtain ⟨count, read⟩ := Parser.of_mapM h
  have small : ∀ n ∈ octets, n < 256 := by
    intro n found
    obtain ⟨group, inside, value⟩ := read n found
    obtain ⟨u, found, rfl⟩ := List.mem_map.mp inside
    calc n < 16 ^ (Text.padLeft '0' 2 (Text.lower u.text).toList).length := Text.lt_of_hex? value
      _ ≤ 16 ^ 2 := Nat.pow_le_pow_right (by decide) (groups u found).1
  have bound := Parser.joinOctets_lt small
  rw [count, List.length_map, six] at bound
  omega

/-! ### Reading -/

/-- What is computed of a token in machine integers, at the moment `now`, is what is computed of it
without a bound. -/
structure Token.Exact (now : Int64) (t : Token) : Prop where
  /-- A number is read exactly if it has 63 bits. -/
  integer : ∀ n, Parser.integerOf? t = some n ↔
    ∃ number : Nat, Parser.numberOf? t = some number ∧ n.toInt = number
  /-- The distance ahead of the present. -/
  negated : ∀ n, Parser.integerOf? t = some n → (-n).toInt = -n.toInt
  /-- A count of rows or bytes. -/
  count : ∀ n, Parser.integerOf? t = some n → (n.toUInt64.toNat : Int) = n.toInt
  byte : ∀ n, Parser.integerOf? t = some n → n ≤ 255 →
    ((UInt8.ofNat n.toInt.toNat).toNat : Int) = n.toInt
  address : ∀ a, Parser.ipv4Of? t = some a →
    (Parser.quad? t).map Parser.joinOctets = some a.toNat
  hardware : t.kind = .mac → ∀ a, Parser.macOf? t = some a →
    (Parser.groups? t).map Parser.joinOctets = some a.toNat
  moment : Parser.DayFits now → ∀ m, Parser.momentOf? now t = some m →
    Parser.secondsOf? now t = some m.toInt

theorem exact_of_mem_compose {now : Int64} {text : String} {t : Token}
    (member : t ∈ compose (tokens text)) : t.Exact now := by
  have positive : ∀ {n}, Parser.integerOf? t = some n → 0 ≤ n.toInt := by
    intro n h
    obtain ⟨number, -, same⟩ := Parser.integerOf?_eq_some_iff.mp h
    omega
  refine ⟨fun n => Parser.integerOf?_eq_some_iff, fun n h => toInt_neg_of_nonneg (positive h),
    fun n h => toNat_toUInt64_of_nonneg (positive h), fun n h small => ?_, ?_, ?_, ?_⟩
  · exact toNat_ofNat_of_byte (positive h) (Int64.le_iff_toInt_le.mp small)
  · intro a h
    rw [Parser.ipv4Of?_eq] at h
    obtain ⟨octets, read, rfl⟩ := Option.map_eq_some_iff.mp h
    rw [read, Option.map_some, UInt32.toNat_ofNat', Nat.mod_eq_of_lt (Parser.quad?_lt read)]
  · intro kind a h
    rw [Parser.macOf?_eq] at h
    obtain ⟨octets, read, rfl⟩ := Option.map_eq_some_iff.mp h
    have fits := groups?_lt member kind read
    rw [read, Option.map_some, UInt64.toNat_ofNat', Nat.mod_eq_of_lt (by omega)]
  · intro day m h
    rw [Parser.momentOf?_eq] at h
    obtain ⟨seconds, read, rfl⟩ := Option.map_eq_some_iff.mp h
    obtain ⟨low, high⟩ := Parser.secondsOf?_range day read
    rw [read, Int64.toInt_ofInt_of_le low high]

/-- Reading a text ends by itself. On its way it looks at tokens that are there, from left to right
and not past the one end; where it fails it names a token up to the one it has reached; and no
integer leaves its bounds. -/
theorem reading_safe (now : Int64) (text : String) :
    (∃ trace last, Parser.Run (Parser.statement now) (.ofTokens (compose (tokens text))) trace
          (Parser.statement now (.ofTokens (compose (tokens text)))) ∧
        Ascends (compose (tokens text)) 0 trace last ∧
        Stands (compose (tokens text)) last
          (Parser.leftOf (Parser.statement now (.ofTokens (compose (tokens text))))) ∧
        last < (compose (tokens text)).length ∧
        (∀ i ∈ trace, ∃ k ≤ last, Stands (compose (tokens text)) k i ∧
          (compose (tokens text))[k]? = some i.next) ∧
        ∀ e, (parse now text).1 = .error e → ∃ k ≤ last,
          (compose (tokens text))[k]? = some e.token) ∧
      EndsOnce (compose (tokens text)) ∧
      (∀ t ∈ compose (tokens text), t.Exact now) ∧
      ∀ (unit : Time.Unit) (offset m : Int64), unit.shiftBack now offset = some m ↔
        (∃ distance : Int64, distance.toInt = offset.toInt * unit.length) ∧
          m.toInt = now.toInt - offset.toInt * unit.length := by
  have once := endsOnce_compose (endsOnce_tokens text)
  refine ⟨?_, once, fun t member => exact_of_mem_compose member,
    fun unit offset m => Time.Unit.shiftBack_eq_some_iff⟩
  obtain ⟨us, stop, composed, ended, -⟩ := once.exists_append
  have start : Stands (compose (tokens text)) 0 (.ofTokens (compose (tokens text))) := by
    rw [composed]
    exact ⟨by simp [Input.ofTokens], by simpa [Input.ofTokens] using ended⟩
  obtain ⟨trace, run, reached⟩ := Parser.finishes_statement now 0 _ start
  obtain ⟨last, ascends, stands⟩ := run.ascends start
  refine ⟨trace, last, run, ascends, stands, ?_, ?_, ?_⟩
  · have lengths := stands.length_eq
    omega
  · intro i member
    obtain ⟨k, le, here⟩ := ascends.stands member
    exact ⟨k, le, here, here.getElem?_next⟩
  -- A failure names the token that the run stands at or one that it has passed.
  · intro e failed
    unfold parse at failed
    split at failed
    next => cases failed
    next e' j read =>
      cases failed
      rw [read] at reached stands
      cases reached with
      | failure _ here seen =>
        rw [stands.unique here]
        exact seen

/-- A text without `select` is named at its first word. -/
theorem reading_safe_top : Parser.DayFits 0 ∧
    (parse 0 "top").1 = .error ⟨.noSelect, ⟨.keyword .top, "top", 1, 1⟩⟩ ∧
    ∃ k : Nat, (compose (tokens "top"))[k]? = some ⟨.keyword .top, "top", 1, 1⟩ := by
  have day : Parser.DayFits 0 := by
    unfold Parser.DayFits
    decide
  have composed : compose (tokens "top")
      = [⟨.keyword .top, "top", 1, 1⟩, ⟨.stop, "", 1, 4⟩] := by
    decide +kernel
  have failed : (parse 0 "top").1 = .error ⟨.noSelect, ⟨.keyword .top, "top", 1, 1⟩⟩ := by
    rw [parse, composed]
    rfl
  obtain ⟨⟨trace, last, -, -, -, -, -, named⟩, -⟩ := reading_safe 0 "top"
  obtain ⟨k, -, found⟩ := named _ failed
  exact ⟨day, failed, k, found⟩

end Language

end PacketQuery
