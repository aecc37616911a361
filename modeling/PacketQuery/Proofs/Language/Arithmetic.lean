import PacketQuery.Proofs.Language.Composition
import PacketQuery.Proofs.Language.Parentheses
import PacketQuery.Proofs.Language.Rendered
import PacketQuery.Proofs.Language.Selecting
/-!
Integer arithmetic that is written out, with a blank between neighbouring tokens and parentheses
only where the grammar needs them. It is read as the same arithmetic unless three of its integers
stand next to one another with minus signs between: those are a date.
-/

namespace PacketQuery.Language

/-- The operators of integer arithmetic. -/
inductive Arithmetic
  | add
  | sub
  | mul
  deriving DecidableEq, Repr

namespace Arithmetic

def op : Arithmetic → BinaryOp
  | add => .add
  | sub => .sub
  | mul => .mul

def symbol : Arithmetic → Symbol
  | add => .plus
  | sub => .minus
  | mul => .star

def sign : Arithmetic → String
  | add => "+"
  | sub => "-"
  | mul => "*"

/-- The level of an expression with the operator, which is that of its left operand. -/
def level : Arithmetic → Level
  | add | sub => .sum
  | mul => .product

/-- The level of the right operand. -/
def tighter : Arithmetic → Level
  | add | sub => .product
  | mul => .operand

end Arithmetic

/-- A tree of natural numbers with operators between them. -/
inductive Term
  | literal (value : Int64) (natural : 0 ≤ value)
  | binary (op : Arithmetic) (left right : Term)

namespace Term

def toExpr : Term → Expr
  | literal value _ => .integer value
  | binary op left right => .binary op.op left.toExpr right.toExpr

/-- How many operators are within one another. -/
def height : Term → Nat
  | literal .. => 0
  | binary _ left right => max left.height right.height + 1

/-- The tokens that write the term where an expression of the level `limit` may stand: there are
parentheses around it if it binds less. -/
def pieces : (limit : Level) → Term → List (Kind × String)
  | _, literal value _ => [(.integer, toString value.toInt.toNat)]
  | limit, binary op left right =>
    let inner := pieces op.level left ++ (.symbol op.symbol, op.sign) :: pieces op.tighter right
    if op.level.rank ≤ limit.rank then inner
    else (.symbol .leftParen, "(") :: (inner ++ [(.symbol .rightParen, ")")])

/-- The tokens of the term one after another, with single blanks between them. -/
def text (t : Term) : String :=
  Text.joined " " ((t.pieces .sum).map (·.2))

/-- Somewhere there are three integers with minus signs between them. -/
def LooksLikeDate (t : Term) : Prop :=
  [.integer, .symbol .minus, .integer, .symbol .minus, .integer] <:+: (t.pieces .sum).map (·.1)

/-- The expression with the parentheses that are written. -/
def grouped : (limit : Level) → Term → Expr
  | _, literal value _ => .integer value
  | limit, binary op left right =>
    let inner := .binary op.op (grouped op.level left) (grouped op.tighter right)
    if op.level.rank ≤ limit.rank then inner else .group inner

end Term

/-! ### The text and its tokens -/

/-- A token that writes arithmetic. -/
inductive IsPiece : Kind × String → Prop
  | number {s : String} : Text.IsNumeral s.toList → IsPiece (.integer, s)
  | mark {c : Char} {m : Symbol} :
      (c, m) ∈ [('+', .plus), ('-', .minus), ('*', .star), ('(', .leftParen), (')', .rightParen)] →
      IsPiece (.symbol m, String.ofList [c])

theorem Term.pieces_spec (t : Term) (limit : Level) :
    t.pieces limit ≠ [] ∧ ∀ x ∈ t.pieces limit, IsPiece x := by
  induction t generalizing limit with
  | literal value natural =>
    refine ⟨List.cons_ne_nil _ _, ?_⟩
    rw [pieces, List.forall_mem_singleton]
    exact .number (Text.isNumeral_toString _)
  | binary op left right ihLeft ihRight =>
    have sign : IsPiece (.symbol op.symbol, op.sign) := by
      cases op
      · exact @IsPiece.mark '+' .plus (by simp)
      · exact @IsPiece.mark '-' .minus (by simp)
      · exact @IsPiece.mark '*' .star (by simp)
    have inner : ∀ x ∈ left.pieces op.level ++ (.symbol op.symbol, op.sign) ::
        right.pieces op.tighter, IsPiece x := by
      rw [List.forall_mem_append, List.forall_mem_cons]
      exact ⟨(ihLeft _).2, sign, (ihRight _).2⟩
    unfold pieces
    dsimp only
    split
    next => exact ⟨by simp, inner⟩
    next =>
      refine ⟨List.cons_ne_nil _ _, ?_⟩
      rw [List.forall_mem_cons, List.forall_mem_append, List.forall_mem_singleton]
      exact ⟨@IsPiece.mark '(' .leftParen (by simp), inner, @IsPiece.mark ')' .rightParen (by simp)⟩

theorem IsPiece.lexes {x : Kind × String} {cs : List Char} {xs : List (Kind × String)}
    (piece : IsPiece x) (ends : ∀ d ∈ cs.head?, d = ' ') (after : ∀ q, Lexes q cs xs)
    (q : Option Char) : Lexes q (x.2.toList ++ cs) (x :: xs) := by
  cases piece with
  | number numeral =>
    refine .numeral numeral (fun d head => ?_) after
    rw [ends d head]
    decide
  | @mark c m listed =>
    simp only [List.mem_cons, List.not_mem_nil, or_false, Prod.mk.injEq] at listed
    rcases listed with ⟨rfl, rfl⟩ | ⟨rfl, rfl⟩ | ⟨rfl, rfl⟩ | ⟨rfl, rfl⟩ | ⟨rfl, rfl⟩
    all_goals
      refine .mark rfl (by decide) (fun d head => ?_) rfl (after _)
      rw [ends d head]
      rfl

/-- Pieces with single blanks between them are divided into the pieces. -/
theorem lexes_joined {xs : List (Kind × String)} (some_ : xs ≠ []) (each : ∀ x ∈ xs, IsPiece x)
    (q : Option Char) :
    Lexes q (Text.joined " " (xs.map (·.2))).toList (xs ++ [(.stop, "")]) := by
  rw [Text.joined, String.toList_intercalate]
  induction xs generalizing q with
  | nil => exact absurd rfl some_
  | cons x xs ih =>
    rw [List.forall_mem_cons] at each
    cases xs with
    | nil =>
      have last := @IsPiece.lexes x [] _ each.1 (by simp) (fun _ => .nil) q
      rw [List.append_nil] at last
      simpa using last
    | cons y ys =>
      have later := each.1.lexes (by simp) (fun _ => .blank (ih (by simp) each.2 _)) q
      simpa [List.intercalate_cons_cons] using later

/-! ### Reading the tokens -/

/-- Expressions of a tighter level are expressions of a looser one. -/
theorem Derives.raise {now : Int64} {tight loose : Level} {ts : List Token} {e : Expr}
    (h : Derives now tight ts e) (le : tight.rank ≤ loose.rank) (single : loose ≠ .list) :
    Derives now loose ts e := by
  by_cases same : tight = loose
  · exact same ▸ h
  · cases next : loose.tighter? with
    | none => cases loose <;> cases tight <;> simp_all [Level.tighter?, Level.rank]
    | some tighter =>
      have step := Level.rank_of_tighter? next
      have apart : tight.rank ≠ loose.rank := by
        intro equal
        cases tight <;> cases loose <;> simp_all [Level.rank]
      have below : tighter ≠ .list := by
        rintro rfl
        cases loose <;> cases next
      have inner : Derives now tighter ts e := h.raise (by omega) below
      exact .lift next inner
termination_by loose.rank

namespace Term

theorem bare_grouped (t : Term) (limit : Level) : (t.grouped limit).bare = t.toExpr := by
  induction t generalizing limit with
  | literal => rfl
  | binary op left right ihLeft ihRight =>
    unfold grouped
    dsimp only
    split
    next => rw [Expr.bare, ihLeft, ihRight, toExpr]
    next => rw [Expr.bare, Expr.bare, ihLeft, ihRight, toExpr]

theorem nesting_grouped (t : Term) (limit : Level) : (t.grouped limit).nesting ≤ t.height := by
  induction t generalizing limit with
  | literal => exact Nat.zero_le _
  | binary op left right ihLeft ihRight =>
    have first := ihLeft op.level
    have second := ihRight op.tighter
    unfold grouped
    dsimp only
    split
    next =>
      rw [Expr.nesting, height]
      omega
    next =>
      rw [Expr.nesting, Expr.nesting, height]
      omega

theorem derives_grouped {now : Int64} (t : Term) {limit : Level} (single : limit ≠ .list)
    {us : List Token} (written : us.map Token.unplaced = t.pieces limit) :
    Derives now limit us (t.grouped limit) := by
  induction t generalizing limit us with
  | literal value natural =>
    obtain ⟨u, rfl, unplaced⟩ := List.map_eq_singleton_iff.mp written
    obtain ⟨kind, text⟩ := Prod.mk.inj unplaced
    have leaf : Derives now .operand [u] (.integer value) :=
      .leaf (.integer kind (integerOf?_toString natural text))
    exact leaf.raise (Nat.zero_le _) single
  | binary op left right ihLeft ihRight =>
    -- With parentheses around it or not, the inside is the same.
    have inner : ∀ {vs : List Token}, vs.map Token.unplaced = left.pieces op.level
        ++ (.symbol op.symbol, op.sign) :: right.pieces op.tighter →
        Derives now op.level vs
          (.binary op.op (left.grouped op.level) (right.grouped op.tighter)) := by
      intro vs same
      obtain ⟨ls, rest, rfl, first, later⟩ := List.map_eq_append_iff.mp same
      obtain ⟨u, rs, rfl, unplaced, second⟩ := List.map_eq_cons_iff.mp later
      obtain ⟨kind, -⟩ := Prod.mk.inj unplaced
      have levels : op.level ≠ .list ∧ op.tighter ≠ .list ∧
          op.level.tighter? = some op.tighter ∧ op.level.operator? u.kind = some op.op := by
        rw [kind]
        cases op <;> simp [Arithmetic.level, Arithmetic.tighter, Level.tighter?] <;> rfl
      obtain ⟨level, tighter, next, operator⟩ := levels
      exact .binary next (ihLeft level first) operator (ihRight tighter second)
    unfold pieces at written
    unfold grouped
    dsimp only at written ⊢
    split at written
    next fits =>
      rw [if_pos fits]
      exact (inner written).raise fits single
    next loose =>
      rw [if_neg loose]
      obtain ⟨opening, rest, rfl, opens, later⟩ := List.map_eq_cons_iff.mp written
      obtain ⟨vs, last, rfl, same, close⟩ := List.map_eq_append_iff.mp later
      obtain ⟨closing, rfl, closes⟩ := List.map_eq_singleton_iff.mp close
      have whole : Derives now .disjunction vs _ :=
        (inner same).raise (by cases op <;> decide) (by decide)
      have group := Derives.group (congrArg Prod.fst opens) whole (congrArg Prod.fst closes)
      exact group.raise (Nat.zero_le _) single

end Term

/-! ### Arithmetic has no fused tokens -/

/-- Integers with operators between them, and parentheses. -/
def Expr.IsArithmetic : Expr → Prop
  | .integer _ => True
  | .group inner => inner.IsArithmetic
  | .binary _ left right => left.IsArithmetic ∧ right.IsArithmetic
  | _ => False

theorem Term.isArithmetic_toExpr (t : Term) : t.toExpr.IsArithmetic := by
  induction t with
  | literal => trivial
  | binary op left right ihLeft ihRight => exact ⟨ihLeft, ihRight⟩

theorem isArithmetic_of_bare : ∀ e : Expr, e.bare.IsArithmetic → e.IsArithmetic
  | .group inner, h => isArithmetic_of_bare inner (by rwa [Expr.bare] at h)
  | .binary _ left right, h => by
    rw [Expr.bare] at h
    exact ⟨isArithmetic_of_bare left h.1, isArithmetic_of_bare right h.2⟩
  | .unary .., h => by
    rw [Expr.bare] at h
    exact h
  | .sequence _, h => by
    rw [Expr.bare] at h
    exact h
  | .integer _, h | .float _, h | .boolean _, h | .string _, h | .moment _, h | .now .., h
  | .ipv4 _, h | .mac _, h | .bytes _, h | .field _, h | .subscript .., h | .protocol _, h
  | .wildcard, h => h

theorem operator?_of_mem_kinds {level : Level} {kind : Kind} (member : kind ∈ Form.kinds) :
    level.operator? kind = none ∧ Parser.relation? kind = none := by
  simp only [Form.kinds, Form.all, List.map_cons, List.map_nil, List.mem_cons, List.not_mem_nil,
    or_false] at member
  rcases member with rfl | rfl | rfl | rfl | rfl | rfl <;> cases level <;> exact ⟨rfl, rfl⟩

/-- Tokens that write arithmetic are not made by fusing. -/
theorem Derives.raw {now : Int64} {level : Level} {ts : List Token} {e : Expr}
    (h : Derives now level ts e) (arithmetic : e.IsArithmetic) :
    ∀ t ∈ ts, t.kind ∉ Form.kinds := by
  induction h with
  | lift _ _ ih => exact ih arithmetic
  | @binary level _ ts left t op us right _ _ operator _ ihLeft ihRight =>
    have sign : t.kind ∉ Form.kinds := by
      intro member
      cases operator.symm.trans (operator?_of_mem_kinds member).1
    rw [List.forall_mem_append, List.forall_mem_cons]
    exact ⟨ihLeft arithmetic.1, sign, ihRight arithmetic.2⟩
  | @relation ts left t op us right _ relation _ ihLeft ihRight =>
    have sign : t.kind ∉ Form.kinds := by
      intro member
      cases relation.symm.trans (@operator?_of_mem_kinds .list _ member).2
    rw [List.forall_mem_append, List.forall_mem_cons]
    exact ⟨ihLeft arithmetic.1, sign, ihRight arithmetic.2⟩
  | @range ts left t op us low u vs high _ relation _ _ to_ _ ihLeft ihLow ihHigh =>
    have sign : t.kind ∉ Form.kinds := by
      intro member
      cases relation.symm.trans (@operator?_of_mem_kinds .list _ member).2
    have word : u.kind ∉ Form.kinds := to_ ▸ Form.keyword_notMem_kinds .to_
    rw [List.forall_mem_append, List.forall_mem_cons, List.forall_mem_append,
      List.forall_mem_cons]
    exact ⟨ihLeft arithmetic.1, sign, ihLow arithmetic.2.1, word, ihHigh arithmetic.2.2⟩
  | prefixed => exact absurd arithmetic id
  | leaf leaf =>
    cases leaf with
    | integer kind =>
      rw [List.forall_mem_singleton, kind]
      decide
    | _ => exact absurd arithmetic id
  | group opens _ closes ih | sequence opens _ closes ih =>
    rw [List.forall_mem_cons, List.forall_mem_append, List.forall_mem_singleton, opens, closes]
    exact ⟨Form.symbol_notMem_kinds _, ih arithmetic, Form.symbol_notMem_kinds _⟩
  | pair => exact absurd arithmetic id
  | more => exact absurd arithmetic id

/-! ### Where a date stands -/

/-- The tokens of a term and the end, at any place. -/
structure Writes (t : Term) (ts : List Token) (stop : Token) : Prop where
  pieces : ts.map Token.unplaced = t.pieces .sum
  ended : stop.kind = .stop

namespace Writes

variable {t : Term} {ts : List Token} {stop : Token} (h : Writes t ts stop)
include h

theorem kinds_eq : ts.map (·.kind) = (t.pieces .sum).map (·.1) := by
  rw [← h.pieces, List.map_map]
  rfl

theorem isPiece {u : Token} (member : u ∈ ts) : IsPiece u.unplaced := by
  refine (t.pieces_spec .sum).2 _ ?_
  rw [← h.pieces]
  exact List.mem_map_of_mem member

theorem kind_cases {u : Token} (member : u ∈ ts ++ [stop]) :
    u.kind = .integer ∨ u.kind = .stop ∨
      ∃ mark ∈ [Symbol.plus, .minus, .star, .leftParen, .rightParen], u.kind = .symbol mark := by
  rcases List.mem_append.mp member with inner | last
  · have piece := h.isPiece inner
    generalize same : u.unplaced = x at piece
    cases piece with
    | number => exact .inl (Prod.mk.inj same).1
    | mark listed =>
      refine .inr (.inr ⟨_, ?_, (Prod.mk.inj same).1⟩)
      simp only [List.mem_cons, List.not_mem_nil, or_false, Prod.mk.injEq] at listed ⊢
      tauto
  · rw [List.mem_singleton.mp last]
    exact .inr (.inl h.ended)

/-- A form that fits some of the tokens is that of a date. -/
theorem form_eq_date {f : Form} {us : List Token} (member : f ∈ Form.all) (fits : f.Fits us)
    (inside : us <:+: ts ++ [stop]) : f = .date := by
  have unmarked : ∀ mark ∈ [Symbol.colon, .dot],
      (fun u : Token => decide (u.kind = .symbol mark)) ∉ f.shape := by
    intro mark listed test
    obtain ⟨u, found, passed⟩ := fits.exists_of_test test
    have kind : u.kind = .symbol mark := of_decide_eq_true passed
    rcases h.kind_cases (inside.subset found) with other | other | ⟨other, among, same⟩
    · cases kind.symm.trans other
    · cases kind.symm.trans other
    · cases kind.symm.trans same
      revert among listed
      cases mark <;> decide
  simp only [List.forall_mem_cons, List.not_mem_nil, false_implies, implies_true, and_true]
    at unmarked
  obtain ⟨colon, dot⟩ := unmarked
  simp only [Form.all, List.mem_cons, List.not_mem_nil, or_false] at member
  rcases member with rfl | rfl | rfl | rfl | rfl | rfl
  · exact absurd (by simp [Form.mac, Form.alternating]) colon
  · exact absurd (by simp [Form.timestamp, Form.date, Form.time, Form.alternating]) colon
  · exact absurd (by simp [Form.ipv4, Form.alternating]) dot
  · rfl
  · exact absurd (by simp [Form.time, Form.alternating]) colon
  · exact absurd (by simp [Form.field, Form.alternating]) dot

theorem looksLikeDate_of_fits {us : List Token} (fits : Form.date.Fits us)
    (inside : us <:+: ts ++ [stop]) : t.LooksLikeDate := by
  have shape : us.map (·.kind)
      = [.integer, .symbol .minus, .integer, .symbol .minus, .integer] := by
    unfold Form.Fits Form.date at fits
    simp only [Form.alternating, List.forall₂_cons_right_iff, List.forall₂_nil_right_iff] at fits
    obtain ⟨a, _, ha, ⟨m, _, hm, ⟨b, _, hb, ⟨n, _, hn, ⟨c, _, hc, rfl, rfl⟩, rfl⟩, rfl⟩, rfl⟩, rfl⟩
      := fits
    simp only [List.map_cons, List.map_nil, Form.kind_of_isDecimal ha, of_decide_eq_true hm,
      Form.kind_of_isDecimal hb, of_decide_eq_true hn, Form.kind_of_isDecimal hc]
  have mapped := inside.map (·.kind)
  rw [shape, List.map_append, h.kinds_eq, List.map_singleton, List.infix_concat_iff] at mapped
  rcases mapped with last | inner
  · obtain ⟨front, split, -⟩ := (List.suffix_concat_iff.mp last).resolve_left (by simp)
    have same := congrArg List.getLast? split
    rw [List.getLast?_concat, h.ended] at same
    cases same
  · exact inner

theorem fits_of_looksLikeDate (looks : t.LooksLikeDate) :
    ∃ us, us <:+: ts ++ [stop] ∧ Form.date.Fits us := by
  unfold Term.LooksLikeDate at looks
  rw [← h.kinds_eq, List.infix_map_iff] at looks
  obtain ⟨us, inside, shape⟩ := looks
  have decimal : ∀ u ∈ us, u.kind = .integer → Literal.isDecimal u = true := by
    intro u member kind
    have piece := h.isPiece (inside.subset member)
    generalize same : u.unplaced = x at piece
    cases piece with
    | number numeral =>
      have placed := Literal.isDecimal_placed numeral
      rw [← same] at placed
      exact placed
    | mark => cases kind.symm.trans (Prod.mk.inj same).1
  simp only [List.map_eq_cons_iff, List.map_eq_nil_iff, eq_comm (b := us.map _)] at shape
  obtain ⟨a, _, rfl, ha, m, _, rfl, hm, b, _, rfl, hb, n, _, rfl, hn, c, _, rfl, hc, rfl⟩ := shape
  have fits : Form.date.Fits [a, m, b, n, c] :=
    .cons (decimal a (by simp) ha) (.cons (decide_eq_true hm) (.cons (decimal b (by simp) hb)
      (.cons (decide_eq_true hn) (.cons (decimal c (by simp) hc) .nil))))
  exact ⟨_, inside.trans (List.prefix_append ts [stop]).isInfix, fits⟩

end Writes

/-! ### Arithmetic that is read -/

/-- The tokens of a text are those before the condition, the condition's and the end. -/
theorem Term.exists_tokens (t : Term) : ∃ front ts stop, tokens (selecting ++ t.text)
    = front ++ (ts ++ [stop]) ∧ front.map Token.unplaced = selectingWords ∧ Writes t ts stop := by
  obtain ⟨some_, each⟩ := t.pieces_spec .sum
  have lexed := lexes_selecting (lexes_joined some_ each (some ' '))
  rw [← String.toList_append] at lexed
  have divided := lexed.unplaced
  obtain ⟨front, back, whole, words, rest⟩ := List.map_eq_append_iff.mp divided
  obtain ⟨ts, last, rfl, written, close⟩ := List.map_eq_append_iff.mp rest
  obtain ⟨stop, rfl, unplaced⟩ := List.map_eq_singleton_iff.mp close
  exact ⟨front, ts, stop, whole, words, written, (Prod.mk.inj unplaced).1⟩

/-- What the tokens of a term are made into: nothing is fused but dates. -/
theorem Writes.compose_spec {t : Term} {ts : List Token} {stop : Token} (h : Writes t ts stop) :
    ∃ us last, compose (ts ++ [stop]) = us ++ [last] ∧ last.kind = .stop ∧
      (∀ u ∈ us, u.IsInside) ∧
      (¬ t.LooksLikeDate → us = ts) ∧
      (t.LooksLikeDate → ∃ u ∈ us, u.kind ∈ Form.kinds) := by
  have others : ∀ u ∈ ts, u.kind ≠ .stop := by
    intro u member
    have piece := h.isPiece member
    generalize same : u.unplaced = x at piece
    rw [show u.kind = x.1 from congrArg Prod.fst same]
    cases piece <;> simp
  have ends : EndsOnce (ts ++ [stop]) := (EndsOnce.single h.ended).append others
  obtain ⟨us, last, made, ended, -⟩ := (endsOnce_compose ends).exists_append
  refine ⟨us, last, made, ended, fun u member => ?_, fun apart => ?_, fun looks => ?_⟩
  · have found : u ∈ compose (ts ++ [stop]) := made ▸ List.mem_append_left _ member
    rcases mem_of_mem_compose found with kept | fused
    · rcases h.kind_cases kept with kind | kind | ⟨mark, among, kind⟩
      · simp [Token.IsInside, kind]
      · simp [Token.IsInside, kind]
      · refine ⟨by simp [kind], ?_⟩
        rw [kind]
        rintro ⟨⟩
        revert among
        decide
    · refine ⟨fun word kind => ?_, fun kind => ?_⟩
      · exact Form.keyword_notMem_kinds word (kind ▸ fused)
      · exact Form.symbol_notMem_kinds .semicolon (kind ▸ fused)
  · have unchanged : compose (ts ++ [stop]) = ts ++ [stop] := by
      refine compose_eq_self fun f member vs inside fits => ?_
      obtain rfl := h.form_eq_date member fits inside
      exact apart (h.looksLikeDate_of_fits fits inside)
    exact (List.append_inj' (made.symm.trans unchanged) rfl).1
  · obtain ⟨vs, inside, fits⟩ := h.fits_of_looksLikeDate looks
    obtain ⟨u, member, kind⟩ := exists_fused (by simp [Form.all]) fits inside
    rw [made] at member
    rcases List.mem_append.mp member with inner | final
    · exact ⟨u, inner, kind⟩
    · rw [List.mem_singleton.mp final, ended] at kind
      exact absurd kind (by decide)

/-- Written arithmetic is read as the same tree, apart from parentheses, exactly if no three of its
integers look like a date. -/
theorem arithmetic_reads_iff {t : Term} (shallow : t.height ≤ 60) (now : Int64) :
    (∃ s e, (parse now (selecting ++ t.text)).1 = .ok s ∧ s.filter = some e ∧
      e.bare = t.toExpr) ↔ ¬ t.LooksLikeDate := by
  obtain ⟨front, ts, stop, divided, words, writes⟩ := t.exists_tokens
  obtain ⟨us, last, made, -, inside, plain, fused⟩ := writes.compose_spec
  have composed : compose (tokens (selecting ++ t.text)) = front ++ us ++ [last] := by
    rw [divided, compose_selecting words, made, List.append_assoc]
  have read := fun s => @parse_selecting_iff now _ _ _ _ s composed words inside
  constructor
  · rintro ⟨s, e, accepted, filter, same⟩ looks
    obtain ⟨e', derived, -, rfl⟩ := (read s).mp accepted
    have expr : e' = e := Option.some.inj filter
    have arithmetic : e'.IsArithmetic := by
      refine isArithmetic_of_bare e' ?_
      rw [expr, same]
      exact t.isArithmetic_toExpr
    obtain ⟨u, member, kind⟩ := fused looks
    exact derived.raw arithmetic u member kind
  · intro apart
    have written : us.map Token.unplaced = t.pieces .sum := by
      rw [plain apart, writes.pieces]
    have derived : Derives now .disjunction us (t.grouped .sum) :=
      (t.derives_grouped (by decide) written).raise (by decide) (by decide)
    have nesting := t.nesting_grouped .sum
    exact ⟨_, _, (read _).mpr ⟨_, derived, by omega, rfl⟩, rfl, t.bare_grouped .sum⟩

/-- One subtraction in parentheses and one after another. -/
def sampleTerm : Term :=
  .binary .sub (.literal 7 (by decide)) (.binary .sub (.literal 5 (by decide))
    (.binary .mul (.literal 2 (by decide)) (.literal 3 (by decide))))

theorem arithmetic_reads_sample : sampleTerm.height ≤ 60 ∧ ¬ sampleTerm.LooksLikeDate ∧
    ∃ s e, (parse 0 (selecting ++ sampleTerm.text)).1 = .ok s ∧ s.filter = some e ∧
      e.bare = sampleTerm.toExpr := by
  have apart : ¬ sampleTerm.LooksLikeDate := by
    unfold Term.LooksLikeDate
    decide
  exact ⟨by decide, apart, (arithmetic_reads_iff (by decide) 0).mpr apart⟩

/-- 2024 less 5 less 10, which is written like the tenth of May. -/
def dateTerm : Term :=
  .binary .sub (.binary .sub (.literal 2024 (by decide)) (.literal 5 (by decide)))
    (.literal 10 (by decide))

theorem parse_dateTerm : ((parse 0 (selecting ++ dateTerm.text)).1.toOption.bind (·.filter)).map
    (·.bare.parts.length) = some 1 := by
  decide +kernel

theorem arithmetic_not_read : ¬ ∀ t : Term, t.height ≤ 60 →
    ∃ s e, (parse 0 (selecting ++ t.text)).1 = .ok s ∧ s.filter = some e ∧
      e.bare = t.toExpr := by
  intro all
  obtain ⟨s, e, accepted, filter, same⟩ := all dateTerm (by decide)
  have read := parse_dateTerm
  rw [accepted] at read
  simp only [Except.toOption, Option.bind_some, filter, Option.map_some, Option.some.injEq,
    same] at read
  revert read
  decide

end PacketQuery.Language
