import PacketQuery.Proofs.Language.Derivation
import PacketQuery.Proofs.Language.Harvest
/-!
What is read is derived. Every reader takes tokens that write what it returns, up to where it stops.
-/

namespace PacketQuery.Language

/-- The tokens `ts` of the input `i` have been taken, and `j` is left, up to the end of the text. -/
structure Took (i : Input) (ts : List Token) (j : Input) : Prop where
  rest : i.rest = ts ++ j.rest
  ended : j.stop.kind = .stop

namespace Took

variable {i j k : Input} {ts us : List Token}

theorem refl (ended : i.stop.kind = .stop) : Took i [] i :=
  ⟨rfl, ended⟩

theorem trans (first : Took i ts j) (second : Took j us k) : Took i (ts ++ us) k := by
  refine ⟨?_, second.ended⟩
  rw [first.rest, second.rest, List.append_assoc]

end Took

namespace Parser

open Phrase

variable {α β : Type}

/-- What the reader returns is written by the tokens that it takes. -/
def Sound (p : Parser α) (phrase : Phrase α) : Prop :=
  ∀ ⦃i j : Input⦄ ⦃a : α⦄, i.stop.kind = .stop → p i = .ok a j → ∃ ts, Took i ts j ∧ phrase ts a

/-! ### Tokens -/

theorem peek_ok {i j : Input} {t : Token} (h : peek i = .ok t j) : i.next = t ∧ i = j := by
  rw [peek_eq] at h
  cases h
  exact ⟨rfl, rfl⟩

theorem took_advance {i j : Input} {t : Token} (ended : i.stop.kind = .stop)
    (more : i.next.kind ≠ .stop) (h : advance i = .ok t j) : t = i.next ∧ Took i [t] j := by
  obtain ⟨rest, stop, references⟩ := i
  cases rest with
  | nil => exact absurd ended more
  | cons u us =>
    cases h
    exact ⟨rfl, rfl, ended⟩

theorem sound_accept {kind : Kind} (mark : kind ≠ .stop) : (accept kind).Sound (Mark kind) := by
  intro i j b ended h
  obtain ⟨t, i₁, peeked, h⟩ := bind_ok h
  obtain ⟨rfl, rfl⟩ := peek_ok peeked
  split at h
  next same =>
    obtain ⟨u, i₂, taken, h⟩ := bind_ok h
    cases h
    obtain ⟨rfl, took⟩ := took_advance ended (same ▸ mark) taken
    exact ⟨_, took, .present same⟩
  next =>
    cases h
    exact ⟨_, .refl ended, .absent⟩

theorem sound_expectWhere {test : Kind → Bool} (mark : test .stop = false) (fault : Fault) :
    (expectWhere test fault).Sound fun ts t => ts = [t] ∧ test t.kind = true := by
  intro i j t ended h
  obtain ⟨_, i₁, peeked, h⟩ := bind_ok h
  obtain ⟨rfl, rfl⟩ := peek_ok peeked
  split at h
  next passes =>
    have more : i.next.kind ≠ .stop := by
      intro same
      rw [same, mark] at passes
      cases passes
    obtain ⟨rfl, took⟩ := took_advance ended more h
    exact ⟨_, took, rfl, passes⟩
  next => cases h

theorem sound_expect {kind : Kind} (mark : kind ≠ .stop) (fault : Fault) :
    (expect kind fault).Sound fun ts t => ts = [t] ∧ t.kind = kind := by
  intro i j t ended h
  obtain ⟨_, i₁, peeked, h⟩ := bind_ok h
  obtain ⟨rfl, rfl⟩ := peek_ok peeked
  split at h
  next same =>
    obtain ⟨rfl, took⟩ := took_advance ended (same ▸ mark) h
    exact ⟨_, took, rfl, same⟩
  next => cases h

/-- The token that was expected, and what is left. -/
theorem took_expect {kind : Kind} (mark : kind ≠ .stop) {fault : Fault} {i j : Input} {t : Token}
    (ended : i.stop.kind = .stop) (h : expect kind fault i = .ok t j) :
    t.kind = kind ∧ Took i [t] j := by
  obtain ⟨_, took, rfl, same⟩ := sound_expect mark fault ended h
  exact ⟨same, took⟩

theorem ofOption_ok {token : Token} {fault : Fault} {a? : Option α} {i j : Input} {a : α}
    (h : ofOption token fault a? i = .ok a j) : a? = some a ∧ i = j := by
  cases a? with
  | none => cases h
  | some b =>
    cases h
    exact ⟨rfl, rfl⟩

theorem integerOf_ok {t : Token} {i j : Input} {n : Int64} (h : integerOf t i = .ok n j) :
    integerOf? t = some n ∧ i = j :=
  ofOption_ok h

theorem took_note {f : References → References} {i j k : Input} {ts : List Token} {u : Unit}
    (took : Took i ts j) (h : note f j = .ok u k) : Took i ts k := by
  cases h
  exact ⟨took.rest, took.ended⟩

/-! ### Names, numbers and times -/

theorem sound_unsigned : unsigned.Sound Unsigned := by
  intro i j n ended h
  obtain ⟨t, i₁, read, h⟩ := bind_ok h
  obtain ⟨kind, took⟩ := took_expect (by decide) ended read
  obtain ⟨value, i₂, read, h⟩ := bind_ok h
  obtain ⟨number, rfl⟩ := integerOf_ok read
  split at h
  next => cases h
  next low =>
    cases h
    exact ⟨_, took, .mk kind number (Int64.not_lt.mp low)⟩

theorem sound_byteValue : byteValue.Sound Byte := by
  intro i j n ended h
  obtain ⟨t, i₁, read, h⟩ := bind_ok h
  obtain ⟨kind, took⟩ := took_expect (by decide) ended read
  obtain ⟨value, i₂, read, h⟩ := bind_ok h
  obtain ⟨number, rfl⟩ := integerOf_ok read
  split at h
  next fits =>
    cases h
    exact ⟨_, took, .mk kind number fits.1 fits.2⟩
  next => cases h

theorem sound_fieldName : fieldName.Sound FieldName := by
  intro i j name ended h
  obtain ⟨t, i₁, peeked, h⟩ := bind_ok h
  obtain ⟨rfl, rfl⟩ := peek_ok peeked
  generalize kind : i.next.kind = k at h
  split at h
  next =>
    obtain ⟨u, i₂, taken, h⟩ := bind_ok h
    obtain ⟨rfl, took⟩ := took_advance ended (by simp [kind]) taken
    obtain ⟨_, i₃, noted, h⟩ := bind_ok h
    cases h
    exact ⟨_, took_note took noted, .mk (.inl kind)⟩
  next =>
    obtain ⟨u, i₂, taken, h⟩ := bind_ok h
    obtain ⟨rfl, took⟩ := took_advance ended (by simp [kind]) taken
    cases h
    exact ⟨_, took, .mk (.inr kind)⟩
  next => cases h

theorem sound_source : source.Sound SourceName := by
  intro i j name ended h
  obtain ⟨t, i₁, read, h⟩ := bind_ok h
  obtain ⟨_, took, rfl, kind⟩ := sound_expectWhere rfl _ ended read
  cases h
  exact ⟨_, took, .mk kind⟩

theorem sound_nowCall {now : Int64} {i j : Input} {a : Int64 × Time.Unit}
    (ended : i.stop.kind = .stop) (word : i.next.kind = .keyword .now)
    (h : nowCall now i = .ok a j) : ∃ ts, Took i ts j ∧ Present now ts a := by
  obtain ⟨t, i₁, taken, h⟩ := bind_ok h
  obtain ⟨rfl, took⟩ := took_advance ended (by simp [word]) taken
  obtain ⟨opening, i₂, read, h⟩ := bind_ok h
  obtain ⟨opens, took₂⟩ := took_expect (by decide) took.ended read
  obtain ⟨here, i₃, read, h⟩ := bind_ok h
  obtain ⟨ts, took₃, closed⟩ := sound_accept (by decide) took₂.ended read
  cases closed with
  | present closes =>
    cases h
    exact ⟨_, took.trans (took₂.trans took₃), .here word opens closes⟩
  | absent =>
    obtain ⟨ahead, i₄, read, h⟩ := bind_ok h
    obtain ⟨us, took₄, plus⟩ := sound_accept (by decide) took₃.ended read
    extract_lets amount at h
    -- Whatever the sign was, the amount and its unit are read by the same steps.
    have rest : ∀ {k vs}, Took i₃ vs k → Sign vs ahead → amount () k = .ok a j →
        ∃ ts, Took i ts j ∧ Present now ts a := by
      intro k vs sign signed h
      obtain ⟨t, k₁, read, h⟩ := bind_ok h
      obtain ⟨kind, took₅⟩ := took_expect (by decide) sign.ended read
      obtain ⟨distance, k₂, read, h⟩ := bind_ok h
      obtain ⟨number, rfl⟩ := integerOf_ok read
      obtain ⟨suffix, k₃, read, h⟩ := bind_ok h
      obtain ⟨named, took₆⟩ := took_expect (by decide) took₅.ended read
      obtain ⟨unit, k₄, read, h⟩ := bind_ok h
      obtain ⟨spelled, rfl⟩ := ofOption_ok read
      extract_lets close at h
      by_cases outside : (unit.shiftBack now (if ahead then -distance else distance)).isNone = true
      · rw [if_pos outside] at h
        obtain ⟨_, _, failed, _⟩ := bind_ok h
        cases failed
      · rw [if_neg outside] at h
        obtain ⟨closing, k₅, read, h⟩ := bind_ok h
        obtain ⟨closes, took₇⟩ := took_expect (by decide) took₆.ended read
        cases h
        have reached : (unit.shiftBack now (if ahead then -distance else distance)).isSome
            = true := by
          rwa [Option.isNone_iff_eq_none, ← ne_eq, ← Option.isSome_iff_ne_none] at outside
        exact ⟨_, took.trans (took₂.trans (took₃.trans (sign.trans (took₅.trans
          (took₆.trans took₇))))), .away word opens signed kind number named spelled rfl reached
          closes⟩
    cases plus with
    | present mark => exact rest took₄ (.plus mark) h
    | absent =>
      obtain ⟨back, i₅, read, h⟩ := bind_ok h
      obtain ⟨vs, took₅, minus⟩ := sound_accept (by decide) took₄.ended read
      cases minus with
      | present mark => exact rest (took₄.trans took₅) (.minus mark) h
      | absent => exact rest (took₄.trans took₅) .back h

theorem sound_timeBound (now : Int64) : (timeBound now).Sound (Bound now) := by
  intro i j s ended h
  obtain ⟨t, i₁, peeked, h⟩ := bind_ok h
  obtain ⟨rfl, rfl⟩ := peek_ok peeked
  have moment : ∀ {i₁ i₂ t}, t.kind ≠ .stop → i.next = t → advance i = .ok i₁ i₂ →
      momentOf now t i₂ = .ok s j → ∃ ts, Took i ts j ∧ Bound now ts s := by
    intro u i₂ t more next taken h
    obtain ⟨rfl, took⟩ := took_advance ended (next ▸ more) taken
    obtain ⟨value, rfl⟩ := ofOption_ok h
    exact ⟨_, took, .moment (next ▸ value)⟩
  generalize kind : i.next.kind = k at h
  split at h
  next =>
    obtain ⟨u, i₂, taken, h⟩ := bind_ok h
    exact moment (by simp [kind]) rfl taken h
  next =>
    obtain ⟨u, i₂, taken, h⟩ := bind_ok h
    exact moment (by simp [kind]) rfl taken h
  next =>
    obtain ⟨u, i₂, taken, h⟩ := bind_ok h
    exact moment (by simp [kind]) rfl taken h
  next =>
    obtain ⟨u, i₂, taken, h⟩ := bind_ok h
    obtain ⟨rfl, took⟩ := took_advance ended (by simp [kind]) taken
    obtain ⟨number, rfl⟩ := integerOf_ok h
    exact ⟨_, took, .integer kind number⟩
  next =>
    obtain ⟨⟨offset, unit⟩, i₂, read, h⟩ := bind_ok h
    obtain ⟨ts, took, present⟩ := sound_nowCall ended kind read
    obtain ⟨shifted, rfl⟩ := ofOption_ok h
    exact ⟨ts, took, .present present shifted⟩
  next => cases h

theorem sound_intervalBounds (now : Int64) : (intervalBounds now).Sound (Interval now) := by
  intro i j span ended h
  obtain ⟨first, i₁, read, h⟩ := bind_ok h
  obtain ⟨ts, took₁, from_⟩ := sound_timeBound now ended read
  obtain ⟨t, i₂, read, h⟩ := bind_ok h
  obtain ⟨kind, took₂⟩ := took_expect (by decide) took₁.ended read
  obtain ⟨last, i₃, read, h⟩ := bind_ok h
  obtain ⟨us, took₃, until_⟩ := sound_timeBound now took₂.ended read
  cases h
  exact ⟨_, took₁.trans (took₂.trans took₃), .mk from_ kind until_⟩

theorem sound_limitBounds : limitBounds.Sound Limit := by
  intro i j limit ended h
  obtain ⟨first, i₁, read, h⟩ := bind_ok h
  obtain ⟨ts, took₁, number⟩ := sound_unsigned ended read
  obtain ⟨more, i₂, read, h⟩ := bind_ok h
  obtain ⟨us, took₂, mark⟩ := sound_accept (by decide) took₁.ended read
  cases mark with
  | absent =>
    cases h
    refine ⟨_, took₁.trans took₂, ?_⟩
    rw [List.append_nil]
    exact .count number
  | present comma =>
    obtain ⟨n, i₃, read, h⟩ := bind_ok h
    obtain ⟨vs, took₃, number'⟩ := sound_unsigned took₂.ended read
    cases h
    exact ⟨_, took₁.trans (took₂.trans took₃), .both number comma number'⟩

/-! ### Lists and clauses -/

/-- The items after commas. -/
theorem sound_moreItems {item : Parser α} {phrase : Phrase α} (each : item.Sound phrase)
    (room : Nat) {i j k : Input} {ts : List Token} {x : α} {xs : List α} (took : Took i ts j)
    (first : phrase ts x) (h : moreItems item room j = .ok xs k) :
    ∃ us, Took i us k ∧ Listed phrase us (x :: xs) := by
  induction room generalizing i j k ts x xs with
  | zero =>
    cases h
    exact ⟨ts, took, .one first⟩
  | succ room ih =>
    obtain ⟨more, j₁, read, h⟩ := bind_ok h
    obtain ⟨us, took₁, mark⟩ := sound_accept (by decide) took.ended read
    cases mark with
    | absent =>
      cases h
      refine ⟨_, took.trans took₁, ?_⟩
      rw [List.append_nil]
      exact .one first
    | present comma =>
      obtain ⟨y, j₂, read, h⟩ := bind_ok h
      obtain ⟨vs, took₂, second⟩ := each took₁.ended read
      obtain ⟨ys, j₃, read, h⟩ := bind_ok h
      obtain ⟨ws, took₃, rest⟩ := ih took₂ second read
      cases h
      exact ⟨_, took.trans (took₁.trans took₃), .more first comma rest⟩

theorem sound_listOf {item : Parser α} {phrase : Phrase α} (each : item.Sound phrase) :
    (listOf item).Sound (Listed phrase) := by
  intro i j xs ended h
  obtain ⟨x, i₁, read, h⟩ := bind_ok h
  obtain ⟨ts, took, first⟩ := each ended read
  obtain ⟨ys, i₂, read, h⟩ := bind_ok h
  obtain ⟨_, i₃, got, read⟩ := bind_ok read
  cases got
  obtain ⟨us, took', listed⟩ := sound_moreItems each _ took first read
  cases h
  exact ⟨us, took', listed⟩

theorem sound_clause {content : Parser α} {phrase : Phrase α} (inner : content.Sound phrase)
    (word : Keyword) : (clause word content).Sound (Clause word phrase) := by
  intro i j a? ended h
  obtain ⟨present, i₁, read, h⟩ := bind_ok h
  obtain ⟨ts, took, mark⟩ := sound_accept (by simp) ended read
  cases mark with
  | absent =>
    cases h
    exact ⟨_, took, .absent⟩
  | present kind =>
    obtain ⟨a, i₂, read, h⟩ := bind_ok h
    obtain ⟨us, took', content⟩ := inner took.ended read
    cases h
    exact ⟨_, took.trans took', .present kind content⟩

/-! ### Expressions -/

/-- The expressions of a level whose operands stand under fewer than `room` parentheses and prefix
operators. -/
def Fits (now : Int64) (level : Level) (room : Nat) : Phrase Expr :=
  fun ts e => Derives now level ts e ∧ e.nesting < room

theorem operator?_stop (level : Level) : level.operator? .stop = none := by
  cases level <;> rfl

section Operators

variable {now : Int64} {room : Nat} {operand : Parser Expr}

section Chain

variable (level : Level) {tighter : Level} (step : level.tighter? = some tighter)
  (each : operand.Sound (Fits now tighter room))
include step each

theorem sound_moreOperands (n : Nat) {i j k : Input} {ts : List Token} {left e : Expr}
    (took : Took i ts j) (first : Fits now level room ts left)
    (h : moreOperands level.operator? operand n left j = .ok e k) :
    ∃ us, Took i us k ∧ Fits now level room us e := by
  induction n generalizing j ts left with
  | zero =>
    cases h
    exact ⟨ts, took, first⟩
  | succ n ih =>
    obtain ⟨t, j₁, peeked, h⟩ := bind_ok h
    obtain ⟨rfl, rfl⟩ := peek_ok peeked
    cases operator : level.operator? j.next.kind with
    | none =>
      rw [operator] at h
      cases h
      exact ⟨ts, took, first⟩
    | some op =>
      rw [operator] at h
      obtain ⟨_, j₂, taken, h⟩ := bind_ok h
      have more : j.next.kind ≠ .stop := by
        intro same
        rw [same, operator?_stop] at operator
        cases operator
      obtain ⟨rfl, took₁⟩ := took_advance took.ended more taken
      obtain ⟨right, j₃, read, h⟩ := bind_ok h
      obtain ⟨us, took₂, second⟩ := each took₁.ended read
      have both : Fits now level room (ts ++ j.next :: us) (.binary op left right) := by
        refine ⟨.binary step first.1 operator second.1, ?_⟩
        rw [Expr.nesting]
        exact max_lt first.2 second.2
      exact ih (took.trans (took₁.trans took₂)) both h

theorem sound_chain : (chain level.operator? operand).Sound (Fits now level room) := by
  intro i j e ended h
  obtain ⟨left, i₁, read, h⟩ := bind_ok h
  obtain ⟨ts, took, first⟩ := each ended read
  obtain ⟨_, i₂, got, h⟩ := bind_ok h
  cases got
  exact sound_moreOperands level step each _ took ⟨.lift step first.1, first.2⟩ h

end Chain

theorem relation?_stop : relation? .stop = none := rfl

theorem sound_relation (each : operand.Sound (Fits now .bits room)) :
    (relation operand).Sound (Fits now .relation room) := by
  intro i j e ended h
  obtain ⟨left, i₁, read, h⟩ := bind_ok h
  obtain ⟨ts, took, first⟩ := each ended read
  obtain ⟨t, i₂, peeked, h⟩ := bind_ok h
  obtain ⟨rfl, rfl⟩ := peek_ok peeked
  cases operator : relation? i₁.next.kind with
  | none =>
    rw [operator] at h
    cases h
    exact ⟨ts, took, .lift rfl first.1, first.2⟩
  | some op =>
    rw [operator] at h
    obtain ⟨_, i₃, taken, h⟩ := bind_ok h
    have more : i₁.next.kind ≠ .stop := by
      intro same
      rw [same, relation?_stop] at operator
      cases operator
    obtain ⟨rfl, took₁⟩ := took_advance took.ended more taken
    obtain ⟨right, i₄, read, h⟩ := bind_ok h
    obtain ⟨us, took₂, second⟩ := each took₁.ended read
    extract_lets single at h
    have alone : ∀ {k}, Took i₃ us k → single () k = .ok e j →
        ∃ vs, Took i vs j ∧ Fits now .relation room vs e := by
      intro k took₂ h
      cases h
      refine ⟨_, took.trans (took₁.trans took₂), .relation first.1 operator second.1, ?_⟩
      rw [Expr.nesting]
      exact max_lt first.2 second.2
    split at h
    next range =>
      obtain ⟨ranged, i₅, read, h⟩ := bind_ok h
      obtain ⟨vs, took₃, mark⟩ := sound_accept (by decide) took₂.ended read
      cases mark with
      | absent =>
        have took₄ := took₂.trans took₃
        rw [List.append_nil] at took₄
        exact alone took₄ h
      | present kind =>
        obtain ⟨upper, i₆, read, h⟩ := bind_ok h
        obtain ⟨ws, took₄, third⟩ := each took₃.ended read
        cases h
        refine ⟨_, took.trans (took₁.trans (took₂.trans (took₃.trans took₄))),
          .range first.1 operator range second.1 kind third.1, ?_⟩
        rw [Expr.nesting, Expr.nesting]
        exact max_lt first.2 (max_lt second.2 third.2)
    next => exact alone took₂ h

theorem sound_expression (each : operand.Sound (Fits now .operand room)) :
    (expression operand).Sound (Fits now .disjunction room) := by
  have products : (chain productOperator? operand).Sound (Fits now .product room) :=
    sound_chain .product rfl each
  have sums : (chain sumOperator? _).Sound (Fits now .sum room) := sound_chain .sum rfl products
  have bits : (chain bitOperator? _).Sound (Fits now .bits room) := sound_chain .bits rfl sums
  have conjunctions : (chain conjunction? _).Sound (Fits now .conjunction room) :=
    sound_chain .conjunction rfl (sound_relation bits)
  exact sound_chain .disjunction rfl conjunctions

end Operators

/-! ### Operands -/

theorem sound_ipv4 {now : Int64} {i j : Input} {e : Expr} (ended : i.stop.kind = .stop)
    (kind : i.next.kind = .ipv4) (h : ipv4 i = .ok e j) : ∃ ts, Took i ts j ∧ Leaf now ts e := by
  obtain ⟨t, i₁, taken, h⟩ := bind_ok h
  obtain ⟨rfl, took⟩ := took_advance ended (by simp [kind]) taken
  obtain ⟨address, i₂, read, h⟩ := bind_ok h
  obtain ⟨value, rfl⟩ := ofOption_ok read
  obtain ⟨more, i₃, read, h⟩ := bind_ok h
  obtain ⟨ts, took₁, mark⟩ := sound_accept (by decide) took.ended read
  cases mark with
  | absent =>
    obtain ⟨length, i₄, whole, h⟩ := bind_ok h
    cases whole
    obtain ⟨_, i₅, noted, h⟩ := bind_ok h
    cases h
    exact ⟨_, took_note (took.trans took₁) noted, .address kind value⟩
  | present slash =>
    obtain ⟨u, i₄, read, h⟩ := bind_ok h
    obtain ⟨integer, took₂⟩ := took_expect (by decide) took₁.ended read
    obtain ⟨length, i₅, read, h⟩ := bind_ok h
    obtain ⟨number, rfl⟩ := integerOf_ok read
    split at h
    next fits =>
      obtain ⟨_, i₆, whole, h⟩ := bind_ok h
      cases whole
      obtain ⟨_, i₇, noted, h⟩ := bind_ok h
      cases h
      exact ⟨_, took_note (took.trans (took₁.trans took₂)) noted,
        .network kind value slash integer number fits.1 fits.2⟩
    next =>
      obtain ⟨_, _, failed, _⟩ := bind_ok h
      cases failed

theorem sound_byteString {now : Int64} {i j : Input} {e : Expr} (ended : i.stop.kind = .stop)
    (kind : i.next.kind = .symbol .leftBrace) (h : byteString i = .ok e j) :
    ∃ ts, Took i ts j ∧ Leaf now ts e := by
  obtain ⟨t, i₁, taken, h⟩ := bind_ok h
  obtain ⟨rfl, took⟩ := took_advance ended (by simp [kind]) taken
  obtain ⟨values, i₂, read, h⟩ := bind_ok h
  obtain ⟨ts, took₁, listed⟩ := sound_listOf sound_byteValue took.ended read
  obtain ⟨closing, i₃, read, h⟩ := bind_ok h
  obtain ⟨closes, took₂⟩ := took_expect (by decide) took₁.ended read
  cases h
  exact ⟨_, took.trans (took₁.trans took₂), .bytes kind listed closes⟩

theorem sound_subscript {now : Int64} {i j : Input} {e : Expr} (ended : i.stop.kind = .stop)
    (kind : i.next.kind = .name ∨ i.next.kind = .constant)
    (opens : ∃ t, i.rest[1]? = some t ∧ t.kind = .symbol .leftBracket)
    (h : subscript i = .ok e j) : ∃ ts, Took i ts j ∧ Leaf now ts e := by
  obtain ⟨t, i₁, taken, h⟩ := bind_ok h
  have more : i.next.kind ≠ .stop := by rcases kind with kind | kind <;> simp [kind]
  obtain ⟨rfl, took⟩ := took_advance ended more taken
  obtain ⟨opening, second, bracket⟩ := opens
  extract_lets base finish start at h
  have finished : ∀ {k}, Took i [i.next] k → finish () k = .ok e j → base ∈ subscriptBases →
      ∃ ts, Took i ts j ∧ Leaf now ts e := by
    intro k took h known
    obtain ⟨u, k₁, taken, h⟩ := bind_ok h
    have next : k.next = opening := by
      rw [took.rest] at second
      cases rest : k.rest with
      | nil => simp [rest] at second
      | cons v vs => simpa [rest, Input.next] using second
    obtain ⟨rfl, took₁⟩ := took_advance took.ended (by simp [next, bracket]) taken
    obtain ⟨offset, k₂, read, h⟩ := bind_ok h
    obtain ⟨ts, took₂, first⟩ := sound_unsigned took₁.ended read
    obtain ⟨colon, k₃, read, h⟩ := bind_ok h
    obtain ⟨between, took₃⟩ := took_expect (by decide) took₂.ended read
    obtain ⟨length, k₄, read, h⟩ := bind_ok h
    obtain ⟨us, took₄, last⟩ := sound_unsigned took₃.ended read
    obtain ⟨closing, k₅, read, h⟩ := bind_ok h
    obtain ⟨closes, took₅⟩ := took_expect (by decide) took₄.ended read
    cases h
    exact ⟨_, took.trans (took₁.trans (took₂.trans (took₃.trans (took₄.trans took₅)))),
      .subscript kind known (next ▸ bracket) first between last closes⟩
  split at h
  next =>
    obtain ⟨_, _, failed, _⟩ := bind_ok h
    cases failed
  next allowed =>
    have known : base ∈ subscriptBases := by simpa using allowed
    replace h : (if _ then _ else _ : Parser Expr) i₁ = .ok e j := h
    split at h
    next =>
      obtain ⟨_, i₂, noted, h⟩ := bind_ok h
      exact finished (took_note took noted) h known
    next => exact finished took h known

/-- Members of a list, the first before the comma and the others after it. -/
theorem derives_sequence {now : Int64} {room : Nat} {ts us : List Token} {t : Token} {e : Expr}
    {es : List Expr} (first : Fits now .disjunction room ts e) (comma : t.kind = .symbol .comma)
    (others : Listed (Fits now .disjunction room) us es) :
    Derives now .list (ts ++ t :: us) (.sequence (e :: es)) ∧
      Expr.nestingOfAll (e :: es) < room := by
  induction others generalizing ts t e with
  | one last =>
    refine ⟨.pair first.1 comma last.1, ?_⟩
    simp only [Expr.nestingOfAll]
    exact max_lt first.2 (max_lt last.2 (Nat.zero_lt_of_lt last.2))
  | more next comma' _ ih =>
    obtain ⟨rest, small⟩ := ih next comma'
    refine ⟨.more first.1 comma rest, ?_⟩
    rw [Expr.nestingOfAll]
    exact max_lt first.2 small

theorem sound_parenthesised {now : Int64} {room : Nat} {nested : Parser Expr}
    (each : nested.Sound (Fits now .disjunction room)) {i j : Input} {e : Expr}
    (ended : i.stop.kind = .stop) (kind : i.next.kind = .symbol .leftParen)
    (h : parenthesised nested i = .ok e j) :
    ∃ ts, Took i ts j ∧ Fits now .operand (room + 1) ts e := by
  obtain ⟨t, i₁, taken, h⟩ := bind_ok h
  obtain ⟨rfl, took⟩ := took_advance ended (by simp [kind]) taken
  obtain ⟨first, i₂, read, h⟩ := bind_ok h
  obtain ⟨ts, took₁, one⟩ := each took.ended read
  obtain ⟨more, i₃, read, h⟩ := bind_ok h
  obtain ⟨us, took₂, mark⟩ := sound_accept (by decide) took₁.ended read
  cases mark with
  | absent =>
    obtain ⟨closing, i₄, read, h⟩ := bind_ok h
    obtain ⟨closes, took₃⟩ := took_expect (by decide) took₂.ended read
    cases h
    refine ⟨_, took.trans (took₁.trans (took₂.trans took₃)), .group kind one.1 closes, ?_⟩
    rw [Expr.nesting]
    exact Nat.succ_lt_succ one.2
  | present comma =>
    obtain ⟨members, i₄, read, h⟩ := bind_ok h
    obtain ⟨vs, took₃, listed⟩ := sound_listOf each took₂.ended read
    obtain ⟨closing, i₅, read, h⟩ := bind_ok h
    obtain ⟨closes, took₄⟩ := took_expect (by decide) took₃.ended read
    cases h
    have all := derives_sequence one comma listed
    have took_ := took.trans ((took₁.trans (took₂.trans took₃)).trans took₄)
    refine ⟨_, took_, .sequence kind all.1 closes, ?_⟩
    rw [Expr.nesting]
    exact Nat.succ_lt_succ all.2

/-- A token that is taken and read by itself. -/
theorem took_literal {a? : Option α} {fault : Fault} {literal : α → Expr} {i j : Input} {e : Expr}
    (ended : i.stop.kind = .stop) (more : i.next.kind ≠ .stop)
    (h : (do let _ ← advance; let a ← ofOption i.next fault a?; return literal a : Parser Expr) i
      = .ok e j) : ∃ a, a? = some a ∧ e = literal a ∧ Took i [i.next] j := by
  obtain ⟨t, i₁, taken, h⟩ := bind_ok h
  obtain ⟨rfl, took⟩ := took_advance ended more taken
  obtain ⟨a, i₂, read, h⟩ := bind_ok h
  obtain ⟨value, rfl⟩ := ofOption_ok read
  cases h
  exact ⟨a, value, rfl, took⟩

/-- A token that is taken and made into an expression. -/
theorem took_word {word : Token → Expr} {e : Expr} {i j : Input} (ended : i.stop.kind = .stop)
    (more : i.next.kind ≠ .stop)
    (h : (do let t ← advance; return word t : Parser Expr) i = .ok e j) :
    e = word i.next ∧ Took i [i.next] j := by
  obtain ⟨t, i₁, taken, h⟩ := bind_ok h
  obtain ⟨rfl, took⟩ := took_advance ended more taken
  cases h
  exact ⟨rfl, took⟩

/-- A token that is taken and noted, and stands for an expression. -/
theorem took_noted {f : References → References} {e e' : Expr} {i j : Input}
    (ended : i.stop.kind = .stop) (more : i.next.kind ≠ .stop)
    (h : (do let _ ← advance; note f; return e' : Parser Expr) i = .ok e j) :
    e = e' ∧ Took i [i.next] j := by
  obtain ⟨t, i₁, taken, h⟩ := bind_ok h
  obtain ⟨rfl, took⟩ := took_advance ended more taken
  obtain ⟨_, i₂, noted, h⟩ := bind_ok h
  cases h
  exact ⟨rfl, took_note took noted⟩

theorem subscriptFollows_ok {i j : Input} {follows : Bool}
    (h : subscriptFollows i = .ok follows j) :
    i = j ∧ (follows = true → ∃ t, i.rest[1]? = some t ∧ t.kind = .symbol .leftBracket) := by
  cases h
  refine ⟨rfl, fun follows => ?_⟩
  cases second : i.rest[1]? with
  | none => simp [second] at follows
  | some t => exact ⟨t, rfl, by simpa [second] using follows⟩

/-- A word is the base of a subscript, or is read as it is without one. -/
theorem sound_subscripted {now : Int64} {plain : Parser Expr} {i j : Input} {e : Expr}
    (ended : i.stop.kind = .stop) (kind : i.next.kind = .name ∨ i.next.kind = .constant)
    (alone : plain i = .ok e j → ∃ ts, Took i ts j ∧ Leaf now ts e)
    (h : (do if ← subscriptFollows then subscript else plain : Parser Expr) i = .ok e j) :
    ∃ ts, Took i ts j ∧ Leaf now ts e := by
  obtain ⟨follows, i₁, looked, h⟩ := bind_ok h
  obtain ⟨rfl, bracket⟩ := subscriptFollows_ok looked
  split at h
  next follows => exact sound_subscript ended kind (bracket follows) h
  next => exact alone h

theorem sound_primary {now : Int64} {room : Nat} {nested : Parser Expr}
    (each : nested.Sound (Fits now .disjunction room)) :
    (primary now nested).Sound (Fits now .operand (room + 1)) := by
  intro i j e ended h
  -- an operand of a fixed shape stands under no parentheses of its own
  have leaf : ∀ {ts}, Leaf now ts e → Fits now .operand (room + 1) ts e := by
    intro ts derived
    refine ⟨.leaf derived, ?_⟩
    cases derived <;> exact Nat.zero_lt_succ room
  obtain ⟨t, i₁, peeked, h⟩ := bind_ok h
  obtain ⟨rfl, rfl⟩ := peek_ok peeked
  generalize kind : i.next.kind = k at h
  split at h
  next =>
    obtain ⟨n, number, rfl, took⟩ := took_literal ended (by simp [kind]) h
    exact ⟨_, took, leaf (.integer kind number)⟩
  next =>
    obtain ⟨x, number, rfl, took⟩ := took_literal ended (by simp [kind]) h
    exact ⟨_, took, leaf (.float kind number)⟩
  next =>
    obtain ⟨rfl, took⟩ := took_word ended (by simp [kind]) h
    exact ⟨_, took, leaf (.string kind)⟩
  next =>
    obtain ⟨rfl, took⟩ := took_word ended (by simp [kind]) h
    exact ⟨_, took, leaf (.true_ kind)⟩
  next =>
    obtain ⟨rfl, took⟩ := took_word ended (by simp [kind]) h
    exact ⟨_, took, leaf (.false_ kind)⟩
  next =>
    obtain ⟨s, moment, rfl, took⟩ := took_literal ended (by simp [kind]) h
    exact ⟨_, took, leaf (.moment moment)⟩
  next =>
    obtain ⟨s, moment, rfl, took⟩ := took_literal ended (by simp [kind]) h
    exact ⟨_, took, leaf (.moment moment)⟩
  next =>
    obtain ⟨s, moment, rfl, took⟩ := took_literal ended (by simp [kind]) h
    exact ⟨_, took, leaf (.moment moment)⟩
  next =>
    obtain ⟨ts, took, address⟩ := sound_ipv4 ended kind h
    exact ⟨ts, took, leaf address⟩
  next =>
    obtain ⟨m, address, rfl, took⟩ := took_literal ended (by simp [kind]) h
    exact ⟨_, took, leaf (.mac kind address)⟩
  next =>
    obtain ⟨ts, took, bytes⟩ := sound_byteString ended kind h
    exact ⟨ts, took, leaf bytes⟩
  next =>
    obtain ⟨rfl, took⟩ := took_noted ended (by simp [kind]) h
    exact ⟨_, took, leaf (.field (.inl kind))⟩
  next =>
    obtain ⟨ts, took, word⟩ := sound_subscripted ended (.inl kind) (fun h => by
      obtain ⟨rfl, took⟩ := took_word ended (by simp [kind]) h
      exact ⟨_, took, .field (.inr kind)⟩) h
    exact ⟨ts, took, leaf word⟩
  next =>
    obtain ⟨ts, took, word⟩ := sound_subscripted ended (.inr kind) (fun h => by
      obtain ⟨rfl, took⟩ := took_noted ended (by simp [kind]) h
      exact ⟨_, took, .protocol kind⟩) h
    exact ⟨ts, took, leaf word⟩
  next => exact sound_parenthesised each ended kind h
  next =>
    obtain ⟨⟨offset, unit⟩, i₁, read, h⟩ := bind_ok h
    obtain ⟨ts, took, present⟩ := sound_nowCall ended kind read
    cases h
    exact ⟨ts, took, leaf (.present present)⟩
  next =>
    obtain ⟨rfl, took⟩ := took_word ended (by simp [kind]) h
    exact ⟨_, took, leaf (.wildcard kind)⟩
  next => cases h

theorem sound_unary (now : Int64) (room : Nat) :
    (unary now room).Sound (Fits now .operand room) := by
  induction room with
  | zero =>
    intro i j e _ h
    cases h
  | succ room ih =>
    intro i j e ended h
    obtain ⟨t, i₁, peeked, h⟩ := bind_ok h
    obtain ⟨rfl, rfl⟩ := peek_ok peeked
    cases operator : unaryOperator? i.next.kind with
    | none =>
      rw [operator] at h
      exact sound_primary (sound_expression ih) ended h
    | some op =>
      rw [operator] at h
      obtain ⟨t, i₁, taken, h⟩ := bind_ok h
      have more : i.next.kind ≠ .stop := by
        intro same
        rw [same] at operator
        cases operator
      obtain ⟨rfl, took⟩ := took_advance ended more taken
      obtain ⟨operand, i₂, read, h⟩ := bind_ok h
      obtain ⟨ts, took₁, derived, small⟩ := ih took.ended read
      cases h
      refine ⟨_, took.trans took₁, .prefixed operator derived, ?_⟩
      rw [Expr.nesting]
      exact Nat.succ_lt_succ small

theorem sound_expr (now : Int64) : (expr now).Sound (Fits now .disjunction maxNesting) :=
  sound_expression (sound_unary now maxNesting)

/-! ### Statements -/

theorem sound_argument : argument.Sound Argument := by
  intro i j name? ended h
  obtain ⟨t, i₁, peeked, h⟩ := bind_ok h
  obtain ⟨rfl, rfl⟩ := peek_ok peeked
  generalize kind : i.next.kind = k at h
  split at h
  next =>
    cases h
    exact ⟨[], .refl ended, .plain .none⟩
  next =>
    obtain ⟨t, i₁, taken, h⟩ := bind_ok h
    obtain ⟨rfl, took⟩ := took_advance ended (by simp [kind]) taken
    cases h
    exact ⟨_, took, .star kind⟩
  next =>
    obtain ⟨name, i₁, read, h⟩ := bind_ok h
    obtain ⟨ts, took, named⟩ := sound_fieldName ended read
    cases h
    exact ⟨ts, took, .plain (.field named)⟩

theorem sound_item : item.Sound (Column Argument) := by
  intro i j column ended h
  obtain ⟨t, i₁, peeked, h⟩ := bind_ok h
  obtain ⟨rfl, rfl⟩ := peek_ok peeked
  cases aggregate : aggregateOf? i.next.kind with
  | none =>
    rw [aggregate] at h
    obtain ⟨name, i₁, read, h⟩ := bind_ok h
    obtain ⟨ts, took, named⟩ := sound_fieldName ended read
    cases h
    exact ⟨ts, took, .field named⟩
  | some function =>
    rw [aggregate] at h
    obtain ⟨t, i₁, taken, h⟩ := bind_ok h
    have more : i.next.kind ≠ .stop := by
      intro same
      rw [same] at aggregate
      cases aggregate
    obtain ⟨rfl, took⟩ := took_advance ended more taken
    obtain ⟨opening, i₂, read, h⟩ := bind_ok h
    obtain ⟨opens, took₁⟩ := took_expect (by decide) took.ended read
    obtain ⟨name?, i₃, read, h⟩ := bind_ok h
    obtain ⟨ts, took₂, argument⟩ := sound_argument took₁.ended read
    obtain ⟨closing, i₄, read, h⟩ := bind_ok h
    obtain ⟨closes, took₃⟩ := took_expect (by decide) took₂.ended read
    obtain ⟨labelled, i₅, read, h⟩ := bind_ok h
    obtain ⟨us, took₄, mark⟩ := sound_accept (by decide) took₃.ended read
    have call := took.trans (took₁.trans (took₂.trans (took₃.trans took₄)))
    cases mark with
    | absent =>
      cases h
      exact ⟨_, call, .bare aggregate opens argument closes⟩
    | present as_ =>
      obtain ⟨label, i₆, read, h⟩ := bind_ok h
      obtain ⟨_, took₅, rfl, labels⟩ := sound_expectWhere rfl _ took₄.ended read
      cases h
      exact ⟨_, took.trans (took₁.trans (took₂.trans (took₃.trans (took₄.trans took₅)))),
        .labelled aggregate opens argument closes as_ labels⟩

theorem sound_projection : projection.Sound (Columns Argument) := by
  intro i j columns ended h
  obtain ⟨all, i₁, read, h⟩ := bind_ok h
  obtain ⟨ts, took, mark⟩ := sound_accept (by decide) ended read
  cases mark with
  | present star =>
    cases h
    exact ⟨_, took, .wildcard star⟩
  | absent =>
    obtain ⟨items, i₂, read, h⟩ := bind_ok h
    obtain ⟨us, took₁, listed⟩ := sound_listOf sound_item took.ended read
    cases h
    exact ⟨us, took.trans took₁, .items listed⟩

theorem clause_fits_iff {now : Int64} {word : Keyword} {level : Level} {room : Nat}
    {ts : List Token} {e? : Option Expr} : Clause word (Fits now level room) ts e? ↔
      Clause word (Derives now level) ts e? ∧ ∀ e, e? = some e → e.nesting < room := by
  constructor
  · intro h
    cases h with
    | absent => exact ⟨.absent, nofun⟩
    | present kind fits =>
      refine ⟨.present kind fits.1, ?_⟩
      rintro e ⟨⟩
      exact fits.2
  · rintro ⟨h, shallow⟩
    cases h with
    | absent => exact .absent
    | present kind derived => exact .present kind ⟨derived, shallow _ rfl⟩

theorem rest_of_stop {fault : Fault} {i j : Input} {t : Token} (h : expect .stop fault i = .ok t j)
    (clear : ∀ t ∈ i.rest, t.kind ≠ .stop) : i.rest = [] := by
  obtain ⟨_, i₁, peeked, h⟩ := bind_ok h
  obtain ⟨rfl, rfl⟩ := peek_ok peeked
  split at h
  next kind =>
    cases rest : i.rest with
    | nil => rfl
    | cons u us =>
      have next : i.next = u := by
        rw [Input.next, rest]
        rfl
      exact absurd (next ▸ kind) (clear u (rest ▸ List.mem_cons_self))
  next => cases h

/-- A statement that is accepted is derived from the tokens up to the end. -/
theorem statement_derived {now : Int64} {i j : Input} {s : Statement} (ended : i.stop.kind = .stop)
    (clear : ∀ t ∈ i.rest, t.kind ≠ .stop) (h : statement now i = .ok s j) :
    Sentence Argument now i.rest s.bare ∧ ∀ e, s.filter = some e → e.nesting < maxNesting := by
  obtain ⟨_, i₁, select, h⟩ := bind_ok h
  obtain ⟨distinct, i₂, readDistinct, h⟩ := bind_ok h
  obtain ⟨projection, i₃, readProjection, h⟩ := bind_ok h
  obtain ⟨_, i₄, from_, h⟩ := bind_ok h
  obtain ⟨sources, i₅, readSources, h⟩ := bind_ok h
  obtain ⟨filter, i₆, readFilter, h⟩ := bind_ok h
  obtain ⟨groupBy, i₇, readGroupBy, h⟩ := bind_ok h
  obtain ⟨orderBy, i₈, readOrderBy, h⟩ := bind_ok h
  obtain ⟨interval, i₉, readInterval, h⟩ := bind_ok h
  obtain ⟨top, i₁₀, readTop, h⟩ := bind_ok h
  obtain ⟨limit, i₁₁, readLimit, h⟩ := bind_ok h
  obtain ⟨_, i₁₂, readSemicolon, h⟩ := bind_ok h
  obtain ⟨_, i₁₃, readStop, h⟩ := bind_ok h
  obtain ⟨input, i₁₄, get, h⟩ := bind_ok h
  cases get
  cases h
  obtain ⟨selects, took₁⟩ := took_expect (by decide) ended select
  obtain ⟨_, took₂, distinct_⟩ := sound_accept (by decide) took₁.ended readDistinct
  obtain ⟨_, took₃, columns⟩ := sound_projection took₂.ended readProjection
  obtain ⟨froms, took₄⟩ := took_expect (by decide) took₃.ended from_
  obtain ⟨_, took₅, names⟩ := sound_listOf sound_source took₄.ended readSources
  obtain ⟨_, took₆, where_⟩ := sound_clause (sound_expr now) .where_ took₅.ended readFilter
  obtain ⟨_, took₇, groups⟩ :=
    sound_clause (sound_listOf sound_fieldName) .groupBy took₆.ended readGroupBy
  obtain ⟨_, took₈, orders⟩ :=
    sound_clause (sound_listOf sound_fieldName) .orderBy took₇.ended readOrderBy
  obtain ⟨_, took₉, span⟩ :=
    sound_clause (sound_intervalBounds now) .interval took₈.ended readInterval
  obtain ⟨_, took₁₀, tops⟩ := sound_clause sound_unsigned .top took₉.ended readTop
  obtain ⟨_, took₁₁, limits⟩ := sound_clause sound_limitBounds .limit took₁₀.ended readLimit
  obtain ⟨_, took₁₂, closed⟩ := sound_accept (by decide) took₁₁.ended readSemicolon
  have took := took₁.trans (took₂.trans (took₃.trans (took₄.trans (took₅.trans (took₆.trans
    (took₇.trans (took₈.trans (took₉.trans (took₁₀.trans (took₁₁.trans took₁₂))))))))))
  -- The stop token was met, and no other token is of its kind, so none is left.
  have last : i₁₂.rest = [] := rest_of_stop readStop fun t member => by
    refine clear t ?_
    rw [took.rest]
    exact List.mem_append_right _ member
  have whole := took.rest
  rw [last, List.append_nil] at whole
  obtain ⟨filtered, shallow⟩ := clause_fits_iff.mp where_
  have sentence : Sentence Argument now _ _ :=
    .mk selects distinct_ columns froms names filtered groups orders span tops limits closed
  refine ⟨?_, shallow⟩
  rw [whole]
  exact sentence

end Parser

end PacketQuery.Language
