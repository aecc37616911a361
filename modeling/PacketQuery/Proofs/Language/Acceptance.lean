import PacketQuery.Proofs.Language.Reading
/-!
What is derived is read. A reader takes all the tokens that write a value if the token after them
cannot belong to it; so operands end at an operator that binds less, and clauses at the next word.
-/

namespace PacketQuery.Language

/-- How tightly a token after an expression holds to it: as a part of an operand, as an operator of
a level, or not at all. -/
def Kind.binding : Kind → Nat
  | .symbol .slash | .symbol .leftBracket => 0
  | .symbol .star => 1
  | .symbol .plus | .symbol .minus => 2
  | .symbol .ampersand | .symbol .pipe | .symbol .caret | .symbol .shiftLeft
  | .symbol .shiftRight => 3
  | .symbol .less | .symbol .atMost | .symbol .greater | .symbol .atLeast | .symbol .equal
  | .symbol .notEqual | .keyword .in_ | .keyword .between | .keyword .to_ => 4
  | .keyword .and_ => 5
  | .keyword .or_ => 6
  | _ => 7

namespace Level

/-- The levels counted from the operands. -/
def rank : Level → Nat
  | operand => 0
  | product => 1
  | sum => 2
  | bits => 3
  | relation => 4
  | conjunction => 5
  | disjunction => 6
  | list => 7

theorem binding_of_operator? {level : Level} {kind : Kind} {op : BinaryOp}
    (h : level.operator? kind = some op) : kind.binding = level.rank := by
  cases level with
  | disjunction =>
    change Parser.disjunction? kind = some op at h
    unfold Parser.disjunction? at h
    split at h <;> first | rfl | cases h
  | conjunction =>
    change Parser.conjunction? kind = some op at h
    unfold Parser.conjunction? at h
    split at h <;> first | rfl | cases h
  | bits =>
    change Parser.bitOperator? kind = some op at h
    unfold Parser.bitOperator? at h
    split at h <;> first | rfl | cases h
  | sum =>
    change Parser.sumOperator? kind = some op at h
    unfold Parser.sumOperator? at h
    split at h <;> first | rfl | cases h
  | product =>
    change Parser.productOperator? kind = some op at h
    unfold Parser.productOperator? at h
    split at h <;> first | rfl | cases h
  | list | relation | operand => cases h

theorem operator?_of_lt {level : Level} {kind : Kind} (lt : level.rank < kind.binding) :
    level.operator? kind = none := by
  cases operator : level.operator? kind with
  | none => rfl
  | some op => exact absurd (binding_of_operator? operator) lt.ne'

theorem binding_of_relation? {kind : Kind} {op : BinaryOp}
    (h : Parser.relation? kind = some op) : kind.binding = relation.rank := by
  unfold Parser.relation? at h
  split at h <;> first | rfl | cases h

theorem relation?_of_lt {kind : Kind} (lt : relation.rank < kind.binding) :
    Parser.relation? kind = none := by
  cases operator : Parser.relation? kind with
  | none => rfl
  | some op => exact absurd (binding_of_relation? operator) lt.ne'

theorem rank_of_tighter? {level tighter : Level} (step : level.tighter? = some tighter) :
    level.rank = tighter.rank + 1 := by
  cases level <;> cases step <;> rfl

/-- The reader of a level over that of operands. -/
def reader (operand : Parser Expr) : Level → Parser Expr
  | .list | .operand => operand
  | product => .chain Parser.productOperator? operand
  | sum => .chain Parser.sumOperator? (.chain Parser.productOperator? operand)
  | bits => .chain Parser.bitOperator? (.chain Parser.sumOperator?
      (.chain Parser.productOperator? operand))
  | relation => .relation (.chain Parser.bitOperator? (.chain Parser.sumOperator?
      (.chain Parser.productOperator? operand)))
  | conjunction => .chain Parser.conjunction? (.relation (.chain Parser.bitOperator?
      (.chain Parser.sumOperator? (.chain Parser.productOperator? operand))))
  | disjunction => .expression operand

theorem reader_eq_chain {level tighter : Level} (step : level.tighter? = some tighter)
    (several : level ≠ relation) (operand : Parser Expr) :
    level.reader operand = .chain level.operator? (tighter.reader operand) := by
  cases level <;> cases step <;> first | rfl | exact absurd rfl several

end Level

namespace Parser

open Phrase

variable {α β : Type} {stop : Token}

/-- The kind of the token that comes next. -/
def following (stop : Token) (rest : List Token) : Kind :=
  (rest.head?.getD stop).kind

/-- The reader takes just the tokens `ts` and returns `a` where `rest` is left after them. -/
def Passes (stop : Token) (p : Parser α) (ts : List Token) (a : α) (rest : List Token) : Prop :=
  ∀ r, ∃ r', p ⟨ts ++ rest, stop, r⟩ = .ok a ⟨rest, stop, r'⟩

variable {ts us rest : List Token}

/-! ### Tokens -/

theorem Passes.bind {p : Parser α} {q : α → Parser β} {a : α} {b : β}
    (first : Passes stop p ts a (us ++ rest)) (second : Passes stop (q a) us b rest) :
    Passes stop (p >>= q) (ts ++ us) b rest := by
  intro r
  obtain ⟨r₁, read⟩ := first r
  obtain ⟨r₂, read'⟩ := second r₁
  refine ⟨r₂, ?_⟩
  rw [List.append_assoc]
  change EStateM.bind p q _ = _
  rw [EStateM.bind, read]
  exact read'

theorem Passes.bind_nil {p : Parser α} {q : α → Parser β} {a : α} {b : β}
    (first : Passes stop p ts a rest) (second : Passes stop (q a) [] b rest) :
    Passes stop (p >>= q) ts b rest := by
  have before : Passes stop p ts a ([] ++ rest) := first
  have both := before.bind second
  rwa [List.append_nil] at both

theorem passes_pure (a : α) : Passes stop (pure a) [] a rest :=
  fun r => ⟨r, rfl⟩

theorem passes_note (f : References → References) : Passes stop (note f) [] () rest :=
  fun r => ⟨f r, rfl⟩

theorem passes_ofOption {t : Token} {fault : Fault} {a? : Option α} {a : α} (value : a? = some a) :
    Passes stop (ofOption t fault a?) [] a rest := by
  rw [value]
  exact passes_pure a

theorem passes_integerOf {t : Token} {n : Int64} (number : integerOf? t = some n) :
    Passes stop (integerOf t) [] n rest :=
  passes_ofOption number

theorem passes_advance (t : Token) : Passes stop advance [t] t rest :=
  fun r => ⟨r, rfl⟩

/-- A reader that first looks at the token that it will take. -/
theorem passes_peek {t : Token} {q : Token → Parser β} {b : β}
    (then_ : Passes stop (q t) (t :: us) b rest) : Passes stop (peek >>= q) (t :: us) b rest :=
  then_

/-- A reader that first looks at a token that it will leave. -/
theorem passes_peek_left {q : Token → Parser β} {b : β}
    (then_ : Passes stop (q (rest.head?.getD stop)) [] b rest) :
    Passes stop (peek >>= q) [] b rest :=
  then_

theorem passes_accept {kind : Kind} {t : Token} (same : t.kind = kind) :
    Passes stop (accept kind) [t] true rest := by
  refine passes_peek ?_
  rw [if_pos same]
  exact (passes_advance t).bind (passes_pure true)

theorem passes_accept_other {kind : Kind} (other : following stop rest ≠ kind) :
    Passes stop (accept kind) [] false rest := by
  refine passes_peek_left ?_
  rw [if_neg (show (rest.head?.getD stop).kind ≠ kind from other)]
  exact passes_pure false

theorem passes_expect {kind : Kind} {fault : Fault} {t : Token} (same : t.kind = kind) :
    Passes stop (expect kind fault) [t] t rest := by
  refine passes_peek ?_
  rw [if_pos same]
  exact passes_advance t

theorem passes_expectWhere {test : Kind → Bool} {fault : Fault} {t : Token}
    (holds : test t.kind = true) : Passes stop (expectWhere test fault) [t] t rest := by
  refine passes_peek ?_
  rw [if_pos holds]
  exact passes_advance t

/-! ### Names, numbers and times -/

theorem passes_unsigned {n : UInt64} (number : Unsigned ts n) :
    Passes stop unsigned ts n rest := by
  obtain ⟨kind, value, low⟩ := number
  refine (passes_expect kind).bind ((passes_integerOf value).bind ?_)
  rw [if_neg (Int64.not_lt.mpr low)]
  exact passes_pure _

theorem passes_byteValue {n : UInt8} (number : Byte ts n) : Passes stop byteValue ts n rest := by
  obtain ⟨kind, value, low, high⟩ := number
  refine (passes_expect kind).bind ((passes_integerOf value).bind ?_)
  rw [if_pos ⟨low, high⟩]
  exact passes_pure _

theorem passes_fieldName {name : String} (named : FieldName ts name) :
    Passes stop fieldName ts name rest := by
  obtain ⟨kind | kind⟩ := named
  · refine passes_peek ?_
    rw [kind]
    exact (passes_advance _).bind ((passes_note _).bind (passes_pure _))
  · refine passes_peek ?_
    rw [kind]
    exact (passes_advance _).bind (passes_pure _)

theorem passes_source {name : String} (named : SourceName ts name) :
    Passes stop source ts name rest := by
  obtain ⟨kind⟩ := named
  exact (passes_expectWhere kind).bind (passes_pure _)

theorem passes_nowCall {now : Int64} {a : Int64 × Time.Unit} (present : Present now ts a) :
    Passes stop (nowCall now) ts a rest := by
  cases present with
  | here word opens closes =>
    exact (passes_advance _).bind ((passes_expect opens).bind ((passes_accept closes).bind
      (passes_pure _)))
  | @away word opening us ahead amount distance suffix unit offset closing _ opens sign kind number
      named spelled same inside closes =>
    refine (passes_advance _).bind ((passes_expect opens).bind ?_)
    -- what follows the sign is read in one way, whichever sign there is
    have tail : ∀ {plus : Bool}, plus = ahead → Passes stop (do
        let amount ← expect .integer .noNowOffset
        let distance ← integerOf amount
        let offset := if plus then -distance else distance
        let word ← expect .name .noUnit
        let unit ← ofOption word .badUnit (Time.Unit.ofSuffix? word.text)
        if (unit.shiftBack now offset).isNone then failAt amount .nowOutOfRange
        let _ ← expect (.symbol .rightParen) .noNowClose
        return (offset, unit)) [amount, suffix, closing] (offset, unit) rest := by
      rintro plus rfl
      refine (passes_expect kind).bind ((passes_integerOf number).bind
        ((passes_expect named).bind ((passes_ofOption spelled).bind ?_)))
      rw [← same, if_neg (by simp [Option.isSome_iff_ne_none.mp inside])]
      exact (passes_expect closes).bind (passes_pure _)
    cases sign with
    | back =>
      have other : ∀ {k}, k ≠ .integer →
          following stop ([amount, suffix, closing] ++ rest) ≠ k := by
        rintro k ne rfl
        exact ne kind
      exact (passes_accept_other (other (by decide))).bind
        ((passes_accept_other (other (by decide))).bind
          ((passes_accept_other (other (by decide))).bind (tail rfl)))
    | @minus t mark =>
      have other : ∀ {k}, k ≠ .symbol .minus →
          following stop ([t, amount, suffix, closing] ++ rest) ≠ k := by
        rintro k ne rfl
        exact ne mark
      exact (passes_accept_other (other (by decide))).bind
        ((passes_accept_other (other (by decide))).bind ((passes_accept mark).bind (tail rfl)))
    | @plus t mark =>
      have other : following stop ([t, amount, suffix, closing] ++ rest)
          ≠ .symbol .rightParen := by
        intro same
        cases same.symm.trans mark
      exact (passes_accept_other other).bind ((passes_accept mark).bind (tail rfl))

theorem kind_of_momentOf? {now : Int64} {t : Token} {s : Int64}
    (moment : momentOf? now t = some s) :
    t.kind = .date ∨ t.kind = .time ∨ t.kind = .timestamp := by
  unfold momentOf? at moment
  dsimp only at moment
  split at moment
  next kind => exact .inl kind
  next kind => exact .inr (.inl kind)
  next kind => exact .inr (.inr kind)
  next => cases moment

theorem passes_timeBound {now s : Int64} (bound : Bound now ts s) :
    Passes stop (timeBound now) ts s rest := by
  cases bound with
  | @moment t s moment =>
    refine passes_peek ?_
    rcases kind_of_momentOf? moment with kind | kind | kind <;> rw [kind] <;>
      exact (passes_advance t).bind (passes_ofOption moment)
  | @integer t n kind number =>
    refine passes_peek ?_
    rw [kind]
    exact (passes_advance t).bind (passes_integerOf number)
  | present present shifted =>
    obtain ⟨t, us, rfl, word⟩ := present.starts
    refine passes_peek ?_
    rw [word]
    exact (passes_nowCall present).bind_nil (passes_ofOption shifted)

theorem passes_intervalBounds {now : Int64} {span : Int64 × Int64} (bounds : Interval now ts span) :
    Passes stop (intervalBounds now) ts span rest := by
  obtain ⟨from_, kind, until_⟩ := bounds
  exact (passes_timeBound from_).bind ((passes_expect kind).bind
    ((passes_timeBound until_).bind_nil (passes_pure _)))

theorem passes_limitBounds {limit : UInt64 × UInt64} (bounds : Limit ts limit)
    (last : following stop rest ≠ .symbol .comma) : Passes stop limitBounds ts limit rest := by
  cases bounds with
  | count number =>
    exact (passes_unsigned number).bind_nil ((passes_accept_other last).bind_nil (passes_pure _))
  | both number comma number' =>
    exact (passes_unsigned number).bind ((passes_accept comma).bind
      ((passes_unsigned number').bind_nil (passes_pure _)))

/-! ### Lists -/

/-- The reader takes what writes a value, if the token after it is of a kind that ends it. -/
def Completes (stop : Token) (p : Parser α) (phrase : Phrase α) (ends : Kind → Prop) : Prop :=
  ∀ ⦃ts a⦄, phrase ts a → ∀ ⦃rest⦄, ends (following stop rest) → Passes stop p ts a rest

section List

variable {item : Parser α} {phrase : Phrase α} {ends : Kind → Prop} {xs : List α}

theorem passes_noItems (last : following stop rest ≠ .symbol .comma) (room : Nat) :
    Passes stop (moreItems item room) [] [] rest := by
  cases room with
  | zero => exact passes_pure []
  | succ room => exact (passes_accept_other last).bind_nil (passes_pure [])

variable (each : Completes stop item phrase ends) (comma : ends (.symbol .comma))
  (listed : Listed phrase us xs) (last : following stop rest ≠ .symbol .comma)
  (after : ends (following stop rest))
include each comma listed last after

/-- Each of the items after the first takes a token, so there is room for all of them. -/
theorem passes_moreItems {t : Token} (separates : t.kind = .symbol .comma) {room : Nat}
    (fits : us.length < room) : Passes stop (moreItems item room) (t :: us) xs rest := by
  induction listed generalizing t room with
  | one first =>
    obtain ⟨n, rfl⟩ := Nat.exists_eq_succ_of_ne_zero (Nat.ne_zero_of_lt fits)
    exact (passes_accept separates).bind ((each first after).bind_nil
      ((passes_noItems last n).bind_nil (passes_pure _)))
  | @more ts x u vs ys first separates' _ ih =>
    obtain ⟨n, rfl⟩ := Nat.exists_eq_succ_of_ne_zero (Nat.ne_zero_of_lt fits)
    have room : vs.length < n := by
      simp only [List.length_append, List.length_cons] at fits
      omega
    have next : ends (following stop ((u :: vs) ++ rest)) := by
      change ends u.kind
      rwa [separates']
    exact (passes_accept separates).bind ((each first next).bind
      ((ih separates' room).bind_nil (passes_pure _)))

theorem passes_listOf : Passes stop (listOf item) us xs rest := by
  cases listed with
  | one first =>
    have none : Passes stop (restOfList item) [] [] rest := passes_noItems last rest.length
    exact (each first after).bind_nil (none.bind_nil (passes_pure _))
  | @more ts x t vs ys first separates others =>
    have next : ends (following stop ((t :: vs) ++ rest)) := by
      change ends t.kind
      rwa [separates]
    have fits : vs.length < ((t :: vs) ++ rest).length := by
      simp only [List.length_append, List.length_cons]
      omega
    have rests : Passes stop (restOfList item) (t :: vs) ys rest :=
      passes_moreItems each comma others last after separates fits
    exact (each first next).bind (rests.bind_nil (passes_pure _))

omit each comma listed last after in
theorem completes_listOf (each : Completes stop item phrase fun _ => True) :
    Completes stop (listOf item) (Listed phrase) (· ≠ .symbol .comma) :=
  fun _ _ listed _ last => passes_listOf each trivial listed last trivial

end List

/-! ### Operands -/

section Operands

variable {now : Int64} {nested : Parser Expr}

theorem leaf_starts {e : Expr} (h : Leaf now ts e) :
    ∃ t us, ts = t :: us ∧ unaryOperator? t.kind = none := by
  cases h with
  | moment moment =>
    rcases kind_of_momentOf? moment with kind | kind | kind <;>
      exact ⟨_, _, rfl, by rw [kind]; rfl⟩
  | field kind =>
    rcases kind with kind | kind <;> exact ⟨_, _, rfl, by rw [kind]; rfl⟩
  | subscript kind =>
    rcases kind with kind | kind <;> exact ⟨_, _, rfl, by rw [kind]; rfl⟩
  | present present =>
    obtain ⟨t, us, rfl, word⟩ := present.starts
    exact ⟨t, us, rfl, by rw [word]; rfl⟩
  | integer kind | float kind | string kind | true_ kind | false_ kind | address kind
  | network kind | mac kind | bytes kind | protocol kind | wildcard kind =>
    exact ⟨_, _, rfl, by rw [kind]; rfl⟩

theorem passes_subscriptFollows {t : Token} {us : List Token} {follows : Bool} {q : Bool → Parser β}
    {b : β} (second : (following stop (us ++ rest) == .symbol .leftBracket) = follows)
    (ended : stop.kind = .stop) (then_ : Passes stop (q follows) (t :: us) b rest) :
    Passes stop (subscriptFollows >>= q) (t :: us) b rest := by
  have looked : ((t :: us ++ rest)[1]?.map (·.kind) == some (.symbol .leftBracket)) = follows := by
    rw [← second, following]
    cases next : us ++ rest with
    | nil => simp [next, ended]
    | cons u vs => simp [next]
  rw [← looked] at then_
  exact then_

theorem passes_host {t : Token} {address : UInt32} (value : ipv4Of? t = some address)
    (slash : following stop rest ≠ .symbol .slash) :
    Passes stop ipv4 [t] (.ipv4 (Network.of address 32)) rest := by
  refine (passes_advance _).bind ((passes_ofOption value).bind_nil
    ((passes_accept_other slash).bind_nil ?_))
  exact (passes_pure _).bind_nil ((passes_note _).bind_nil (passes_pure _))

theorem passes_network {t slash u : Token} {address : UInt32} {length : Int64}
    (value : ipv4Of? t = some address) (mark : slash.kind = .symbol .slash)
    (integer : u.kind = .integer) (number : integerOf? u = some length) (low : 0 ≤ length)
    (high : length ≤ 32) :
    Passes stop ipv4 [t, slash, u] (.ipv4 (Network.of address length.toInt.toNat)) rest := by
  refine (passes_advance _).bind ((passes_ofOption value).bind ((passes_accept mark).bind
    ((passes_expect integer).bind ((passes_integerOf number).bind ?_))))
  rw [if_pos ⟨low, high⟩]
  exact (passes_pure _).bind ((passes_note _).bind (passes_pure _))

theorem passes_byteString {opening closing : Token} {values : List UInt8}
    (listed : Listed Byte us values) (closes : closing.kind = .symbol .rightBrace) :
    Passes stop byteString (opening :: (us ++ [closing])) (.bytes values) rest := by
  have comma : following stop ([closing] ++ rest) ≠ .symbol .comma := by
    intro same
    cases same.symm.trans closes
  have each : Completes stop byteValue Byte fun _ => True :=
    fun _ _ byte _ _ => passes_byteValue byte
  have items := completes_listOf each listed comma
  exact (passes_advance _).bind (items.bind ((passes_expect closes).bind (passes_pure _)))

theorem passes_subscript {t opening colon closing : Token} {offset length : UInt64}
    (known : Text.lower t.text ∈ subscriptBases) (first : Unsigned ts offset)
    (between : colon.kind = .symbol .colon) (second : Unsigned us length)
    (closes : closing.kind = .symbol .rightBracket) :
    Passes stop subscript (t :: opening :: (ts ++ colon :: (us ++ [closing])))
      (.subscript (Text.lower t.text) offset.toNat length.toNat) rest := by
  have tail : Passes stop (do
      let _ ← advance
      let offset ← unsigned
      let _ ← expect (.symbol .colon) .noSubscriptColon
      let length ← unsigned
      let _ ← expect (.symbol .rightBracket) .noSubscriptClose
      return Expr.subscript (Text.lower t.text) offset.toNat length.toNat)
      (opening :: (ts ++ colon :: (us ++ [closing])))
      (Expr.subscript (Text.lower t.text) offset.toNat length.toNat) rest :=
    (passes_advance _).bind ((passes_unsigned first).bind ((passes_expect between).bind
      ((passes_unsigned second).bind ((passes_expect closes).bind (passes_pure _)))))
  refine (passes_advance t).bind ?_
  dsimp only
  rw [if_neg (by simpa using known)]
  -- the frame and the payload are no protocols to note
  split
  · exact (passes_note _).bind tail
  · exact tail

/-- An operand of one token or of a fixed shape ends where no part of an operand follows. -/
theorem passes_leaf (ended : stop.kind = .stop) {e : Expr} (h : Leaf now ts e)
    (last : 0 < (following stop rest).binding) : Passes stop (primary now nested) ts e rest := by
  -- A slash would make a network of an address, and a bracket a subscript of a name.
  have slash : following stop rest ≠ .symbol .slash := by
    intro same
    rw [same] at last
    exact absurd last (lt_irrefl 0)
  have bracket : (following stop rest == .symbol .leftBracket) = false := by
    refine beq_eq_false_iff_ne.mpr fun same => ?_
    rw [same] at last
    exact absurd last (lt_irrefl 0)
  cases h with
  | integer kind number =>
    refine passes_peek ?_
    rw [kind]
    exact (passes_advance _).bind ((passes_integerOf number).bind (passes_pure _))
  | float kind number =>
    refine passes_peek ?_
    rw [kind]
    exact (passes_advance _).bind ((passes_ofOption number).bind (passes_pure _))
  | string kind =>
    refine passes_peek ?_
    rw [kind]
    exact (passes_advance _).bind (passes_pure _)
  | true_ kind =>
    refine passes_peek ?_
    rw [kind]
    exact (passes_advance _).bind (passes_pure _)
  | false_ kind =>
    refine passes_peek ?_
    rw [kind]
    exact (passes_advance _).bind (passes_pure _)
  | moment moment =>
    refine passes_peek ?_
    rcases kind_of_momentOf? moment with kind | kind | kind <;> rw [kind] <;>
      exact (passes_advance _).bind ((passes_ofOption moment).bind (passes_pure _))
  | address kind value =>
    refine passes_peek ?_
    rw [kind]
    exact passes_host value slash
  | network kind value slash integer number low high =>
    refine passes_peek ?_
    rw [kind]
    exact passes_network value slash integer number low high
  | mac kind address =>
    refine passes_peek ?_
    rw [kind]
    exact (passes_advance _).bind ((passes_ofOption address).bind (passes_pure _))
  | bytes kind listed closes =>
    refine passes_peek ?_
    rw [kind]
    exact passes_byteString listed closes
  | field kind =>
    refine passes_peek ?_
    rcases kind with kind | kind <;> rw [kind]
    · exact (passes_advance _).bind ((passes_note _).bind (passes_pure _))
    · exact passes_subscriptFollows bracket ended ((passes_advance _).bind (passes_pure _))
  | protocol kind =>
    refine passes_peek ?_
    rw [kind]
    exact passes_subscriptFollows bracket ended
      ((passes_advance _).bind ((passes_note _).bind (passes_pure _)))
  | @subscript t opening ts offset colon us length closing kind known opens first between second
      closes =>
    have follows : (following stop (opening :: (ts ++ colon :: (us ++ [closing])) ++ rest)
        == .symbol .leftBracket) = true := beq_iff_eq.mpr opens
    have inner : Passes stop subscript (t :: opening :: (ts ++ colon :: (us ++ [closing])))
        (.subscript (Text.lower t.text) offset.toNat length.toNat) rest :=
      passes_subscript known first between second closes
    refine passes_peek ?_
    rcases kind with kind | kind <;> rw [kind]
    · exact passes_subscriptFollows follows ended inner
    · exact passes_subscriptFollows follows ended inner
  | present present =>
    obtain ⟨t, us, rfl, word⟩ := present.starts
    refine passes_peek ?_
    rw [word]
    exact (passes_nowCall present).bind_nil (passes_pure _)
  | wildcard kind =>
    refine passes_peek ?_
    rw [kind]
    exact (passes_advance _).bind (passes_pure _)

end Operands

/-! ### Expressions -/

/-- Tokens of a level are read up to where they end. Before an operator of the level, they are read
up to where the level goes on, with room for as many operators as there are tokens. -/
structure Reads (now : Int64) (stop : Token) (level : Level) (ts : List Token) (e : Expr) :
    Prop where
  passes : ∀ {room rest}, e.nesting < room → level.rank < (following stop rest).binding →
    Passes stop (level.reader (unary now room)) ts e rest
  resumes : ∀ {tighter room rest}, level.tighter? = some tighter → level ≠ .relation →
    e.nesting < room → level.rank ≤ (following stop rest).binding →
    ∃ n, rest.length ≤ n ∧ ∀ r, ∃ r', level.reader (unary now room) ⟨ts ++ rest, stop, r⟩
      = moreOperands level.operator? (tighter.reader (unary now room)) n e ⟨rest, stop, r'⟩

section Operators

variable {now : Int64} {level tighter : Level}

theorem peek_bind (q : Token → Parser β) (i : Input) : (peek >>= q) i = q i.next i :=
  rfl

theorem moreOperands_none {operand : Parser Expr} (e : Expr) (n : Nat) (r : References)
    (last : level.operator? (following stop rest) = none) :
    moreOperands level.operator? operand n e ⟨rest, stop, r⟩ = .ok e ⟨rest, stop, r⟩ := by
  cases n with
  | zero => rfl
  | succ n =>
    have next : level.operator? (Input.next ⟨rest, stop, r⟩).kind = none := last
    rw [moreOperands, peek_bind, next]
    rfl

theorem moreOperands_some {operand : Parser Expr} {left right : Expr} {op : BinaryOp} {t : Token}
    {n : Nat} {r r' : References} (operator : level.operator? t.kind = some op)
    (read : operand ⟨us ++ rest, stop, r⟩ = .ok right ⟨rest, stop, r'⟩) :
    moreOperands level.operator? operand (n + 1) left ⟨t :: (us ++ rest), stop, r⟩
      = moreOperands level.operator? operand n (.binary op left right) ⟨rest, stop, r'⟩ := by
  have next : level.operator? (Input.next ⟨t :: (us ++ rest), stop, r⟩).kind = some op := operator
  rw [moreOperands, peek_bind, next]
  change EStateM.bind operand _ ⟨us ++ rest, stop, r⟩ = _
  rw [EStateM.bind, read]

variable (step : level.tighter? = some tighter)
include step

/-- A level goes on up to a token that does not belong to it. -/
theorem Reads.of_resumes {e : Expr}
    (resumes : ∀ {room rest}, e.nesting < room → level.rank ≤ (following stop rest).binding →
      ∃ n, rest.length ≤ n ∧ ∀ r, ∃ r', level.reader (unary now room) ⟨ts ++ rest, stop, r⟩
        = moreOperands level.operator? (tighter.reader (unary now room)) n e ⟨rest, stop, r'⟩) :
    Reads now stop level ts e where
  passes := by
    intro room rest fits lt r
    obtain ⟨n, _, read⟩ := resumes fits lt.le
    obtain ⟨r', read⟩ := read r
    exact ⟨r', read.trans (moreOperands_none e n r' (Level.operator?_of_lt lt))⟩
  resumes := by
    intro tighter' room rest step' _ fits le
    cases step.symm.trans step'
    exact resumes fits le

theorem Reads.lift {e : Expr} (h : Reads now stop tighter ts e) : Reads now stop level ts e := by
  have rank := Level.rank_of_tighter? step
  by_cases alone : level = .relation
  · subst alone
    cases step
    refine ⟨fun {room rest} fits lt => ?_, fun _ ne => absurd rfl ne⟩
    have bits : Level.bits.rank < (following stop rest).binding := Nat.lt_of_succ_lt lt
    refine (h.passes fits bits).bind_nil (passes_peek_left ?_)
    have next := Level.relation?_of_lt lt
    rw [following] at next
    rw [next]
    exact passes_pure e
  · refine .of_resumes step fun {room rest} fits le => ⟨rest.length, le_rfl, fun r => ?_⟩
    have lt : tighter.rank < (following stop rest).binding := by omega
    obtain ⟨r', read⟩ := h.passes fits lt r
    refine ⟨r', ?_⟩
    rw [Level.reader_eq_chain step alone]
    change EStateM.bind _ _ _ = _
    rw [EStateM.bind, read]
    rfl

theorem Reads.binary {left right : Expr} {t : Token} {op : BinaryOp}
    (first : Reads now stop level ts left) (operator : level.operator? t.kind = some op)
    (second : Reads now stop tighter us right) :
    Reads now stop level (ts ++ t :: us) (.binary op left right) := by
  have rank := Level.rank_of_tighter? step
  have several : level ≠ .relation := by
    rintro rfl
    cases operator
  refine .of_resumes step fun {room rest} fits le => ?_
  rw [Expr.nesting, max_lt_iff] at fits
  have here : level.rank ≤ (following stop ((t :: us) ++ rest)).binding :=
    (Level.binding_of_operator? operator).ge
  obtain ⟨n, enough, read⟩ := first.resumes step several fits.1 here
  -- the operator itself takes one of the tokens that there is room for
  rw [List.length_append, List.length_cons] at enough
  obtain ⟨m, rfl⟩ := Nat.exists_eq_succ_of_ne_zero (show n ≠ 0 by omega)
  have lt : tighter.rank < (following stop rest).binding := by omega
  refine ⟨m, by omega, fun r => ?_⟩
  obtain ⟨r₁, read⟩ := read r
  obtain ⟨r₂, operand⟩ := second.passes fits.2 lt r₁
  refine ⟨r₂, ?_⟩
  rw [List.append_assoc, read]
  exact moreOperands_some operator operand

end Operators

/-- What is not continued by operators of its own level is read as a whole. -/
theorem Reads.of_passes {now : Int64} {level : Level} {e : Expr}
    (alone : level.tighter? = none ∨ level = .relation)
    (passes : ∀ {room rest}, e.nesting < room → level.rank < (following stop rest).binding →
      Passes stop (level.reader (unary now room)) ts e rest) : Reads now stop level ts e where
  passes := passes
  resumes := by
    intro tighter room rest step several
    rcases alone with none | relation
    · cases none.symm.trans step
    · exact absurd relation several

section Relation

variable {now : Int64} {left right : Expr} {t : Token} {op : BinaryOp}
  (first : Reads now stop .bits ts left) (operator : relation? t.kind = some op)
  (second : Reads now stop .bits us right)
include first operator second

theorem Reads.relation : Reads now stop .relation (ts ++ t :: us) (.binary op left right) := by
  refine .of_passes (.inr rfl) fun {room rest} fits lt => ?_
  rw [Expr.nesting, max_lt_iff] at fits
  have here : Level.bits.rank < (following stop ((t :: us) ++ rest)).binding :=
    (Level.binding_of_relation? operator).ge
  have bits : Level.bits.rank < (following stop rest).binding := Nat.lt_of_succ_lt lt
  refine (first.passes fits.1 here).bind (passes_peek ?_)
  rw [operator]
  refine (passes_advance t).bind ((second.passes fits.2 bits).bind_nil ?_)
  dsimp only
  split
  · have last : following stop rest ≠ .keyword .to_ := by
      intro same
      rw [same] at lt
      exact absurd lt (lt_irrefl _)
    exact (passes_accept_other last).bind_nil (passes_pure _)
  · exact passes_pure _

theorem Reads.range {u : Token} {vs : List Token} {high : Expr} (single : op ≠ .range)
    (to_ : u.kind = .keyword .to_) (third : Reads now stop .bits vs high) :
    Reads now stop .relation (ts ++ t :: (us ++ u :: vs))
      (.binary op left (.binary .range right high)) := by
  refine .of_passes (.inr rfl) fun {room rest} fits lt => ?_
  rw [Expr.nesting, Expr.nesting, max_lt_iff, max_lt_iff] at fits
  have here : Level.bits.rank < (following stop ((t :: (us ++ u :: vs)) ++ rest)).binding :=
    (Level.binding_of_relation? operator).ge
  have next : Level.bits.rank < (following stop ((u :: vs) ++ rest)).binding := by
    change _ < u.kind.binding
    rw [to_]
    decide
  have bits : Level.bits.rank < (following stop rest).binding := Nat.lt_of_succ_lt lt
  refine (first.passes fits.1 here).bind (passes_peek ?_)
  rw [operator]
  refine (passes_advance t).bind ((second.passes fits.2.1 next).bind ?_)
  dsimp only
  rw [if_pos single]
  exact (passes_accept to_).bind ((third.passes fits.2.2 bits).bind_nil (passes_pure _))

end Relation

section Operands

variable {now : Int64} (ended : stop.kind = .stop) {e : Expr}

theorem Reads.prefixed {t : Token} {op : UnaryOp} (operator : unaryOperator? t.kind = some op)
    (h : Reads now stop .operand ts e) : Reads now stop .operand (t :: ts) (.unary op e) := by
  refine .of_passes (.inl rfl) fun {room rest} fits lt => ?_
  rw [Expr.nesting] at fits
  obtain ⟨n, rfl⟩ := Nat.exists_eq_succ_of_ne_zero (Nat.ne_zero_of_lt fits)
  refine passes_peek ?_
  rw [operator]
  have operand := h.passes (Nat.lt_of_succ_lt_succ fits) lt
  exact (passes_advance t).bind (operand.bind_nil (passes_pure _))

include ended in
theorem Reads.leaf (h : Leaf now ts e) : Reads now stop .operand ts e := by
  refine .of_passes (.inl rfl) fun {room rest} fits lt => ?_
  obtain ⟨n, rfl⟩ := Nat.exists_eq_succ_of_ne_zero (Nat.ne_zero_of_lt fits)
  obtain ⟨t, us, rfl, operand⟩ := leaf_starts h
  refine passes_peek ?_
  rw [operand]
  exact passes_leaf ended h lt

/-- What is read in parentheses is an operand. -/
theorem Reads.of_parenthesised {opening : Token} (opens : opening.kind = .symbol .leftParen)
    (inner : ∀ {room rest}, e.nesting < room + 1 →
      Passes stop (parenthesised (expression (unary now room))) (opening :: ts) e rest) :
    Reads now stop .operand (opening :: ts) e := by
  refine .of_passes (.inl rfl) fun {room rest} fits lt => ?_
  obtain ⟨n, rfl⟩ := Nat.exists_eq_succ_of_ne_zero (Nat.ne_zero_of_lt fits)
  refine passes_peek ?_
  rw [opens]
  refine passes_peek ?_
  rw [opens]
  exact inner fits

theorem listed_fits {phrase : Phrase Expr} {room : Nat} {es : List Expr}
    (h : Listed phrase us es) (fits : Expr.nestingOfAll es < room) :
    Listed (fun ts e => phrase ts e ∧ e.nesting < room) us es := by
  induction h with
  | one first =>
    rw [Expr.nestingOfAll, max_lt_iff] at fits
    exact .one ⟨first, fits.1⟩
  | more first comma _ ih =>
    rw [Expr.nestingOfAll, max_lt_iff] at fits
    exact .more ⟨first, fits.1⟩ comma (ih fits.2)

section Parentheses

variable {opening closing : Token} (opens : opening.kind = .symbol .leftParen)
  (closes : closing.kind = .symbol .rightParen)
include opens closes

theorem Reads.group (h : Reads now stop .disjunction ts e) :
    Reads now stop .operand (opening :: (ts ++ [closing])) (.group e) := by
  refine .of_parenthesised opens fun {room rest} fits => ?_
  rw [Expr.nesting] at fits
  have next : Level.disjunction.rank < (following stop ([closing] ++ rest)).binding := by
    change _ < closing.kind.binding
    rw [closes]
    decide
  have comma : following stop ([closing] ++ rest) ≠ .symbol .comma := by
    intro same
    cases same.symm.trans closes
  exact (passes_advance opening).bind ((h.passes (Nat.lt_of_succ_lt_succ fits) next).bind
    ((passes_accept_other comma).bind ((passes_expect closes).bind (passes_pure _))))

theorem Reads.sequence {t : Token} {es : List Expr} (h : Reads now stop .disjunction ts e)
    (comma : t.kind = .symbol .comma) (others : Listed (Reads now stop .disjunction) us es) :
    Reads now stop .operand (opening :: (ts ++ t :: us ++ [closing])) (.sequence (e :: es)) := by
  refine .of_parenthesised opens fun {room rest} fits => ?_
  rw [Expr.nesting, Expr.nestingOfAll, Nat.add_lt_add_iff_right, max_lt_iff] at fits
  have after : Level.disjunction.rank
      < (following stop ((t :: (us ++ [closing])) ++ rest)).binding := by
    change _ < t.kind.binding
    rw [comma]
    decide
  have next : Level.disjunction.rank < (following stop ([closing] ++ rest)).binding := by
    change _ < closing.kind.binding
    rw [closes]
    decide
  have last : following stop ([closing] ++ rest) ≠ .symbol .comma := by
    intro same
    cases same.symm.trans closes
  have each : Completes stop (expression (unary now room))
      (fun ts e => Reads now stop .disjunction ts e ∧ e.nesting < room)
      fun kind => Level.disjunction.rank < kind.binding :=
    fun _ _ member _ ends => member.1.passes member.2 ends
  have members := passes_listOf each (by decide) (listed_fits others fits.2) last next
  rw [List.append_assoc]
  exact (passes_advance opening).bind ((h.passes fits.1 after).bind ((passes_accept comma).bind
    (members.bind ((passes_expect closes).bind (passes_pure _)))))

end Parentheses

/-- The members of a list are read one by one. -/
def ReadsMembers (now : Int64) (stop : Token) (ts : List Token) (e : Expr) : Prop :=
  ∃ us t vs first others, ts = us ++ t :: vs ∧ e = .sequence (first :: others) ∧
    t.kind = .symbol .comma ∧ Reads now stop .disjunction us first ∧
    Listed (Reads now stop .disjunction) vs others

include ended in
theorem reads_of_derives {level : Level} (h : Derives now level ts e) :
    (level ≠ .list → Reads now stop level ts e) ∧
      (level = .list → ReadsMembers now stop ts e) := by
  induction h with
  | @lift level tighter ts e step _ ih =>
    have other : level ≠ .list ∧ tighter ≠ .list := by
      constructor <;> rintro rfl <;> cases level <;> cases step
    exact ⟨fun _ => .lift step (ih.1 other.2), fun same => absurd same other.1⟩
  | @binary level tighter ts left t op us right step _ operator _ ih ih' =>
    have other : level ≠ .list ∧ tighter ≠ .list := by
      constructor <;> rintro rfl <;> cases level <;> cases step
    exact ⟨fun _ => .binary step (ih.1 other.1) operator (ih'.1 other.2),
      fun same => absurd same other.1⟩
  | relation _ operator _ ih ih' =>
    exact ⟨fun _ => .relation (ih.1 nofun) operator (ih'.1 nofun), nofun⟩
  | range _ operator single _ to_ _ ih ih' ih'' =>
    exact ⟨fun _ => .range (ih.1 nofun) operator (ih'.1 nofun) single to_ (ih''.1 nofun), nofun⟩
  | prefixed operator _ ih => exact ⟨fun _ => .prefixed operator (ih.1 nofun), nofun⟩
  | leaf leaf => exact ⟨fun _ => .leaf ended leaf, nofun⟩
  | group opens _ closes ih => exact ⟨fun _ => .group opens closes (ih.1 nofun), nofun⟩
  | sequence opens _ closes ih =>
    obtain ⟨us, t, vs, first, others, rfl, rfl, comma, reads, listed⟩ := ih.2 rfl
    exact ⟨fun _ => .sequence opens closes reads comma listed, nofun⟩
  | pair _ comma _ ih ih' =>
    exact ⟨nofun, fun _ => ⟨_, _, _, _, _, rfl, rfl, comma, ih.1 nofun, .one (ih'.1 nofun)⟩⟩
  | more _ comma _ ih ih' =>
    obtain ⟨us, t, vs, first, others, rfl, same, comma', reads, listed⟩ := ih'.2 rfl
    cases same
    exact ⟨nofun, fun _ =>
      ⟨_, _, _, _, _, rfl, rfl, comma, ih.1 nofun, .more reads comma' listed⟩⟩

include ended in
theorem completes_expr :
    Completes stop (expr now) (Fits now .disjunction maxNesting) (·.binding = 7) :=
  fun _ _ ⟨derived, fits⟩ _ last =>
    ((reads_of_derives ended derived).1 nofun).passes fits (last ▸ by decide)

end Operands

end Parser

end PacketQuery.Language
