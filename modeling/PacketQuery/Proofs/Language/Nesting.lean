import PacketQuery.Proofs.Language.Sentences
/-!
The nesting of expressions is bounded exactly. A filter that is read has at most 63 parentheses and
prefix operators on every path through it; and tokens of the kinds of such a statement are never
refused for their nesting, however many operands stand side by side.
-/

namespace PacketQuery.Language

/-! ### Paths -/

namespace Expr

/-- The expressions directly below an expression. -/
def children : Expr → List Expr
  | .group inner => [inner]
  | .unary _ operand => [operand]
  | .binary _ left right => [left, right]
  | .sequence members => members
  | _ => []

/-- Parentheses around one expression or several, or a prefix operator. -/
def opens : Expr → Bool
  | .group _ | .unary .. | .sequence _ => true
  | _ => false

/-- The expressions from the root down to one without parts, each directly below the one before. -/
inductive Path : Expr → List Expr → Prop
  | leaf {e : Expr} : e.children = [] → Path e [e]
  | step {e c : Expr} {path : List Expr} : c ∈ e.children → Path c path → Path e (e :: path)

theorem nesting_le_ofAll {e : Expr} {es : List Expr} (member : e ∈ es) :
    e.nesting ≤ nestingOfAll es := by
  induction es with
  | nil => cases member
  | cons f es ih =>
    rw [nestingOfAll]
    rcases List.mem_cons.mp member with rfl | later
    · exact le_max_left _ _
    · exact (ih later).trans (le_max_right _ _)

theorem exists_nesting_eq_ofAll {es : List Expr} (some_ : es ≠ []) :
    ∃ e ∈ es, e.nesting = nestingOfAll es := by
  induction es with
  | nil => exact absurd rfl some_
  | cons e es ih =>
    rw [nestingOfAll]
    rcases max_cases e.nesting (nestingOfAll es) with ⟨first, -⟩ | ⟨later, lt⟩
    · exact ⟨e, List.mem_cons_self, first.symm⟩
    · have others : es ≠ [] := by
        rintro rfl
        exact absurd lt (Nat.not_lt_zero _)
      obtain ⟨f, member, same⟩ := ih others
      exact ⟨f, List.mem_cons_of_mem e member, same.trans later.symm⟩

/-- An expression nests as deep as the deepest below it, and once more if it opens. -/
theorem nesting_eq (e : Expr) : e.nesting = nestingOfAll e.children + e.opens.toNat := by
  cases e <;> simp [nesting, nestingOfAll, children, opens]

theorem countP_opens_cons (e : Expr) (path : List Expr) :
    (e :: path).countP opens = path.countP opens + e.opens.toNat := by
  rw [List.countP_cons]
  cases e.opens <;> rfl

theorem countP_path_le {e : Expr} {path : List Expr} (h : Path e path) :
    path.countP opens ≤ e.nesting := by
  induction h with
  | leaf none =>
    rw [nesting_eq, none, countP_opens_cons]
    exact Nat.le_refl _
  | step child _ ih =>
    rw [nesting_eq, countP_opens_cons]
    exact Nat.add_le_add_right (ih.trans (nesting_le_ofAll child)) _

theorem sizeOf_child {e c : Expr} (child : c ∈ e.children) : sizeOf c < sizeOf e := by
  cases e with
  | group inner =>
    obtain rfl := List.mem_singleton.mp child
    simp only [group.sizeOf_spec]
    omega
  | unary op operand =>
    obtain rfl := List.mem_singleton.mp child
    simp only [unary.sizeOf_spec]
    omega
  | binary op left right =>
    rcases List.mem_pair.mp child with rfl | rfl <;> simp only [binary.sizeOf_spec] <;> omega
  | sequence members =>
    have inside : sizeOf c < sizeOf members := List.sizeOf_lt_of_mem child
    simp only [sequence.sizeOf_spec]
    omega
  | _ => cases child

/-- Some path has them all: it goes down to the deepest part each time. -/
theorem exists_path (e : Expr) : ∃ path, Path e path ∧ path.countP opens = e.nesting := by
  by_cases none : e.children = []
  · refine ⟨[e], .leaf none, ?_⟩
    rw [countP_opens_cons, nesting_eq, none]
    rfl
  · obtain ⟨c, child, deepest⟩ := exists_nesting_eq_ofAll none
    obtain ⟨path, h, same⟩ := exists_path c
    refine ⟨e :: path, .step child h, ?_⟩
    rw [countP_opens_cons, same, deepest, nesting_eq e]
termination_by sizeOf e
decreasing_by exact sizeOf_child child

/-- The nesting is the greatest number of parentheses and prefix operators on a path. -/
theorem nesting_le_iff {e : Expr} {n : Nat} :
    e.nesting ≤ n ↔ ∀ path, Path e path → path.countP opens ≤ n := by
  constructor
  · exact fun le path h => (countP_path_le h).trans le
  · intro all
    obtain ⟨path, h, same⟩ := exists_path e
    exact same ▸ all path h

end Expr

namespace Parser

variable {α β γ δ : Type}

/-! ### Reading tokens of the same kinds -/

/-- What is left are tokens of the same kinds. -/
structure Alike (i j : Input) : Prop where
  rest : i.rest.map (·.kind) = j.rest.map (·.kind)
  stop : i.stop.kind = j.stop.kind

/-- Where `q` reads tokens of the same kinds, `p` reads as many, or fails for another reason than
the nesting. -/
def Shadows (p : Parser α) (q : Parser β) : Prop :=
  ∀ i j, Alike i j → ∀ b l, q j = .ok b l →
    (∃ a k, p i = .ok a k ∧ Alike k l) ∨ ∃ e k, p i = .error e k ∧ e.fault ≠ .tooDeep

/-- A reader keeps up with itself, whatever the texts of the tokens are. -/
abbrev Steady (p : Parser α) : Prop :=
  Shadows p p

theorem Alike.next {i j : Input} (alike : Alike i j) : i.next.kind = j.next.kind := by
  obtain ⟨rest, stop, r⟩ := i
  obtain ⟨rest', stop', r'⟩ := j
  have head := congrArg List.head? alike.rest
  cases rest <;> cases rest' <;> simp_all [Input.next]
  exact alike.stop

theorem Alike.tail {i j : Input} (alike : Alike i j) :
    Alike { i with rest := i.rest.tail } { j with rest := j.rest.tail } := by
  refine ⟨?_, alike.stop⟩
  have tails := congrArg List.tail alike.rest
  rwa [← List.map_tail, ← List.map_tail] at tails

theorem Alike.length_eq {i j : Input} (alike : Alike i j) : i.rest.length = j.rest.length := by
  have lengths := congrArg List.length alike.rest
  rwa [List.length_map, List.length_map] at lengths

theorem Shadows.bind {p : Parser α} {q : Parser β} {p' : α → Parser γ} {q' : β → Parser δ}
    (first : Shadows p q) (second : ∀ a b, Shadows (p' a) (q' b)) :
    Shadows (p >>= p') (q >>= q') := by
  intro i j alike d m read
  obtain ⟨b, l, readFirst, read⟩ := bind_ok read
  have step : (p >>= p') i = EStateM.bind p p' i := rfl
  rcases first i j alike b l readFirst with ⟨a, k, ended, alike⟩ | ⟨e, k, failed, other⟩
  · rw [step, EStateM.bind, ended]
    exact second a b k l alike d m read
  · refine .inr ⟨e, k, ?_, other⟩
    rw [step, EStateM.bind, failed]

theorem shadows_pure (a : α) (b : β) : Shadows (pure a) (pure b) := by
  intro i j alike b' l read
  cases read
  exact .inl ⟨a, i, rfl, alike⟩

/-- A failure that is not for the nesting. -/
theorem shadows_failAt {fault : Fault} (other : fault ≠ .tooDeep) (t : Token) (q : Parser β) :
    Shadows (failAt t fault : Parser α) q :=
  fun i _ _ _ _ _ => .inr ⟨⟨fault, t⟩, i, rfl, other⟩

/-- Nothing has to be read where the other fails. -/
theorem shadows_of_failAt (p : Parser α) (t : Token) (fault : Fault) :
    Shadows p (failAt t fault : Parser β) := by
  intro i j _ b l read
  cases read

theorem shadows_failAt_bind {fault : Fault} (other : fault ≠ .tooDeep) (t : Token)
    (p' : γ → Parser α) (q : Parser β) : Shadows (failAt t fault >>= p') q :=
  fun i _ _ _ _ _ => .inr ⟨⟨fault, t⟩, i, rfl, other⟩

theorem shadows_of_failAt_bind (p : Parser α) (t : Token) (fault : Fault) (q' : γ → Parser β) :
    Shadows p (failAt t fault >>= q') := by
  intro i j _ b l read
  cases read

theorem shadows_failHere {fault : Fault} (other : fault ≠ .tooDeep) (q : Parser β) :
    Shadows (failHere fault : Parser α) q :=
  fun i _ _ _ _ _ => .inr ⟨⟨fault, i.next⟩, i, rfl, other⟩

theorem shadows_of_failHere (p : Parser α) (fault : Fault) :
    Shadows p (failHere fault : Parser β) := by
  intro i j _ b l read
  cases read

/-- Readers that look at the next token see the same kind. -/
theorem shadows_peek_bind {p : Token → Parser α} {q : Token → Parser β}
    (second : ∀ t u, t.kind = u.kind → Shadows (p t) (q u)) : Shadows (peek >>= p) (peek >>= q) :=
  fun i j alike => second i.next j.next alike.next i j alike

theorem shadows_get_bind {p : Input → Parser α} {q : Input → Parser β}
    (second : ∀ i j, Alike i j → Shadows (p i) (q j)) : Shadows (get >>= p) (get >>= q) :=
  fun i j alike => second i j alike i j alike

theorem steady_advance : Steady advance := by
  intro i j alike b l read
  rw [advance_eq] at read
  cases read
  exact .inl ⟨i.next, _, advance_eq i, alike.tail⟩

theorem shadows_note (f g : References → References) : Shadows (note f) (note g) := by
  intro i j alike b l read
  cases read
  exact .inl ⟨(), _, rfl, ⟨alike.rest, alike.stop⟩⟩

/-- What one of two readers notes does not matter to the other. -/
theorem Shadows.note_left {p : Unit → Parser α} {q : Parser β} (f : References → References)
    (h : Shadows (p ()) q) : Shadows (note f >>= p) q :=
  fun i j alike b l read =>
    h { i with references := f i.references } j ⟨alike.rest, alike.stop⟩ b l read

theorem Shadows.note_right {p : Parser α} {q : Unit → Parser β} (f : References → References)
    (h : Shadows p (q ())) : Shadows p (note f >>= q) :=
  fun i j alike b l read =>
    h i { j with references := f j.references } ⟨alike.rest, alike.stop⟩ b l read

theorem shadows_ofOption {fault fault' : Fault} (other : fault ≠ .tooDeep) (t u : Token)
    (a? : Option α) (b? : Option β) : Shadows (ofOption t fault a?) (ofOption u fault' b?) := by
  cases b? with
  | none => exact shadows_of_failAt _ u fault'
  | some b =>
    cases a? with
    | none => exact shadows_failAt other t _
    | some a => exact shadows_pure a b

theorem shadows_integerOf (t u : Token) : Shadows (integerOf t) (integerOf u) :=
  shadows_ofOption (by decide) t u _ _

theorem shadows_accept_bind {kind : Kind} {p : Bool → Parser α} {q : Bool → Parser β}
    (second : ∀ b, Shadows (p b) (q b)) : Shadows (accept kind >>= p) (accept kind >>= q) := by
  unfold accept
  rw [bind_assoc, bind_assoc]
  refine shadows_peek_bind fun t u same => ?_
  rw [same]
  split
  next =>
    rw [bind_assoc, bind_assoc]
    exact steady_advance.bind fun _ _ => second true
  next => exact second false

theorem shadows_subscriptFollows_bind {p : Bool → Parser α} {q : Bool → Parser β}
    (second : ∀ b, Shadows (p b) (q b)) :
    Shadows (subscriptFollows >>= p) (subscriptFollows >>= q) := by
  intro i j alike b l read
  have same : i.rest[1]?.map (·.kind) = j.rest[1]?.map (·.kind) := by
    rw [← List.getElem?_map, ← List.getElem?_map, alike.rest]
  change q (j.rest[1]?.map (·.kind) == some (.symbol .leftBracket)) j = .ok b l at read
  rw [← same] at read
  exact second _ i j alike b l read

theorem steady_expect (kind : Kind) {fault : Fault} (other : fault ≠ .tooDeep) :
    Steady (expect kind fault) := by
  refine shadows_peek_bind fun t u same => ?_
  rw [same]
  split
  next => exact steady_advance
  next => exact shadows_failHere other _

theorem steady_expectWhere (test : Kind → Bool) {fault : Fault} (other : fault ≠ .tooDeep) :
    Steady (expectWhere test fault) := by
  refine shadows_peek_bind fun t u same => ?_
  rw [same]
  split
  next => exact steady_advance
  next => exact shadows_failHere other _

/-! ### Names, numbers and times -/

theorem steady_unsigned : Steady unsigned := by
  refine (steady_expect _ (by decide)).bind fun t u =>
    (shadows_integerOf t u).bind fun m n => ?_
  split
  next => exact shadows_failAt (by decide) t _
  next =>
    split
    next => exact shadows_of_failAt _ u _
    next => exact shadows_pure _ _

theorem steady_byteValue : Steady byteValue := by
  refine (steady_expect _ (by decide)).bind fun t u =>
    (shadows_integerOf t u).bind fun m n => ?_
  split
  next =>
    split
    next => exact shadows_pure _ _
    next => exact shadows_of_failAt _ u _
  next => exact shadows_failAt (by decide) t _

theorem steady_fieldName : Steady fieldName := by
  refine shadows_peek_bind fun t u same => ?_
  rw [same]
  split
  next =>
    exact steady_advance.bind fun t u => (shadows_note _ _).bind fun _ _ => shadows_pure _ _
  next => exact steady_advance.bind fun t u => shadows_pure _ _
  next => exact shadows_failHere (by decide) _

theorem steady_source : Steady source :=
  (steady_expectWhere _ (by decide)).bind fun _ _ => shadows_pure _ _

theorem steady_nowCall (now : Int64) : Steady (nowCall now) := by
  refine steady_advance.bind fun _ _ => (steady_expect _ (by decide)).bind fun _ _ =>
    shadows_accept_bind fun closed => ?_
  split
  next => exact shadows_pure _ _
  next =>
    refine shadows_accept_bind fun ahead => ?_
    extract_lets amount
    have rest : Steady (amount ()) := by
      refine (steady_expect _ (by decide)).bind fun t u =>
        (shadows_integerOf t u).bind fun m n => ?_
      extract_lets offset offset'
      refine (steady_expect _ (by decide)).bind fun word word' =>
        (shadows_ofOption (by decide) word word' _ _).bind fun unit unit' => ?_
      extract_lets close close'
      have closes : Shadows (close ()) (close' ()) :=
        (steady_expect _ (by decide)).bind fun _ _ => shadows_pure _ _
      split
      next => exact shadows_failAt_bind (by decide) t _ _
      next =>
        split
        next => exact shadows_of_failAt_bind _ u _ _
        next => exact closes
    split
    next => exact shadows_accept_bind fun _ => rest
    next => exact rest

theorem steady_timeBound (now : Int64) : Steady (timeBound now) := by
  refine shadows_peek_bind fun t u same => ?_
  rw [same]
  have literal : ∀ {fault : Fault}, fault ≠ .tooDeep → ∀ {a? b? : Option Int64},
      Shadows (do let _ ← advance; ofOption t fault a?)
        (do let _ ← advance; ofOption u fault b?) :=
    fun other => steady_advance.bind fun _ _ => shadows_ofOption other t u _ _
  split
  next => exact literal (by decide)
  next => exact literal (by decide)
  next => exact literal (by decide)
  next => exact literal (by decide)
  next => exact (steady_nowCall now).bind fun _ _ => shadows_ofOption (by decide) t u _ _
  next => exact shadows_failHere (by decide) _

theorem steady_intervalBounds (now : Int64) : Steady (intervalBounds now) :=
  (steady_timeBound now).bind fun _ _ => (steady_expect _ (by decide)).bind fun _ _ =>
    (steady_timeBound now).bind fun _ _ => shadows_pure _ _

theorem steady_limitBounds : Steady limitBounds := by
  refine steady_unsigned.bind fun _ _ => shadows_accept_bind fun more => ?_
  split
  next => exact steady_unsigned.bind fun _ _ => shadows_pure _ _
  next => exact shadows_pure _ _

/-! ### Lists -/

theorem steady_moreItems {item : Parser α} (each : Steady item) (room : Nat) :
    Steady (moreItems item room) := by
  induction room with
  | zero => exact shadows_pure _ _
  | succ room ih =>
    refine shadows_accept_bind fun more => ?_
    split
    next => exact each.bind fun _ _ => ih.bind fun _ _ => shadows_pure _ _
    next => exact shadows_pure _ _

theorem steady_listOf {item : Parser α} (each : Steady item) : Steady (listOf item) := by
  refine each.bind fun _ _ => Shadows.bind ?_ fun _ _ => shadows_pure _ _
  refine shadows_get_bind fun i j alike => ?_
  rw [alike.length_eq]
  exact steady_moreItems each _

/-! ### Expressions -/

theorem shadows_moreOperands {operand : Parser Expr} (each : Steady operand)
    (operator? : Kind → Option BinaryOp) (room : Nat) (left left' : Expr) :
    Shadows (moreOperands operator? operand room left)
      (moreOperands operator? operand room left') := by
  induction room generalizing left left' with
  | zero => exact shadows_pure _ _
  | succ room ih =>
    refine shadows_peek_bind fun t u same => ?_
    rw [same]
    split
    next => exact shadows_pure _ _
    next => exact steady_advance.bind fun _ _ => each.bind fun _ _ => ih _ _

theorem steady_chain {operand : Parser Expr} (each : Steady operand)
    (operator? : Kind → Option BinaryOp) : Steady (chain operator? operand) := by
  refine each.bind fun left left' => shadows_get_bind fun i j alike => ?_
  rw [alike.length_eq]
  exact shadows_moreOperands each operator? _ left left'

theorem steady_relation {operand : Parser Expr} (each : Steady operand) :
    Steady (relation operand) := by
  refine each.bind fun left left' => shadows_peek_bind fun t u same => ?_
  rw [same]
  split
  next => exact shadows_pure _ _
  next =>
    refine steady_advance.bind fun _ _ => each.bind fun right right' => ?_
    split
    next =>
      refine shadows_accept_bind fun ranged => ?_
      split
      next => exact each.bind fun _ _ => shadows_pure _ _
      next => exact shadows_pure _ _
    next => exact shadows_pure _ _

theorem steady_expression {operand : Parser Expr} (each : Steady operand) :
    Steady (expression operand) :=
  steady_chain (steady_chain (steady_relation
    (steady_chain (steady_chain (steady_chain each _) _) _)) _) _

theorem steady_ipv4 : Steady ipv4 := by
  refine steady_advance.bind fun t u =>
    (shadows_ofOption (by decide) t u _ _).bind fun address address' =>
    shadows_accept_bind fun slash => ?_
  extract_lets finish finish'
  have finishes : ∀ length length',
      Shadows (finish length) (finish' length') :=
    fun length length' => (shadows_note _ _).bind fun _ _ => shadows_pure _ _
  split
  next =>
    refine (steady_expect _ (by decide)).bind fun t u =>
      (shadows_integerOf t u).bind fun length length' => ?_
    split
    next =>
      split
      next => exact (shadows_pure _ _).bind finishes
      next => exact shadows_of_failAt_bind _ u _ _
    next => exact shadows_failAt_bind (by decide) t _ _
  next => exact (shadows_pure _ _).bind finishes

theorem steady_byteString : Steady byteString :=
  steady_advance.bind fun _ _ => (steady_listOf steady_byteValue).bind fun _ _ =>
    (steady_expect _ (by decide)).bind fun _ _ => shadows_pure _ _

theorem steady_subscript : Steady subscript := by
  refine steady_advance.bind fun t u => ?_
  extract_lets base finish start base' finish' start'
  have finishes : Shadows (finish ()) (finish' ()) :=
    steady_advance.bind fun _ _ => steady_unsigned.bind fun _ _ =>
      (steady_expect _ (by decide)).bind fun _ _ => steady_unsigned.bind fun _ _ =>
      (steady_expect _ (by decide)).bind fun _ _ => shadows_pure _ _
  have starts : Shadows (start ()) (start' ()) := by
    -- the layers named may differ: each may be noted or not
    dsimp only [start, start']
    split <;> split
    next => exact (finishes.note_right _).note_left _
    next => exact finishes.note_left _
    next => exact finishes.note_right _
    next => exact finishes
  split
  next => exact shadows_failAt_bind (by decide) t _ _
  next =>
    split
    next => exact shadows_of_failAt_bind _ u _ _
    next => exact starts

theorem steady_parenthesised {nested : Parser Expr} (each : Steady nested) :
    Steady (parenthesised nested) := by
  refine steady_advance.bind fun _ _ => each.bind fun _ _ => shadows_accept_bind fun more => ?_
  split
  next =>
    exact (steady_listOf each).bind fun _ _ => (steady_expect _ (by decide)).bind fun _ _ =>
      shadows_pure _ _
  next => exact (steady_expect _ (by decide)).bind fun _ _ => shadows_pure _ _

theorem steady_primary (now : Int64) {nested : Parser Expr} (each : Steady nested) :
    Steady (primary now nested) := by
  refine shadows_peek_bind fun t u same => ?_
  rw [same]
  have literal : ∀ {value : Type} {fault : Fault}, fault ≠ .tooDeep →
      ∀ {a? b? : Option value} {made : value → Expr},
        Shadows (do let _ ← advance; let a ← ofOption t fault a?; return made a)
          (do let _ ← advance; let b ← ofOption u fault b?; return made b) :=
    fun other => steady_advance.bind fun _ _ =>
      (shadows_ofOption other t u _ _).bind fun _ _ => shadows_pure _ _
  have word : ∀ {made : Token → Expr}, Steady (do return made (← advance)) :=
    steady_advance.bind fun _ _ => shadows_pure _ _
  split
  next => exact literal (by decide)
  next => exact literal (by decide)
  next => exact word
  next => exact word
  next => exact word
  next => exact literal (by decide)
  next => exact literal (by decide)
  next => exact literal (by decide)
  next => exact steady_ipv4
  next => exact literal (by decide)
  next => exact steady_byteString
  next =>
    exact steady_advance.bind fun _ _ => (shadows_note _ _).bind fun _ _ => shadows_pure _ _
  next =>
    refine shadows_subscriptFollows_bind fun follows => ?_
    split
    next => exact steady_subscript
    next => exact word
  next =>
    refine shadows_subscriptFollows_bind fun follows => ?_
    split
    next => exact steady_subscript
    next =>
      exact steady_advance.bind fun _ _ => (shadows_note _ _).bind fun _ _ => shadows_pure _ _
  next => exact steady_parenthesised each
  next => exact (steady_nowCall now).bind fun _ _ => shadows_pure _ _
  next => exact word
  next => exact shadows_failHere (by decide) _

theorem steady_unary (now : Int64) (room : Nat) : Steady (unary now room) := by
  induction room with
  | zero => exact shadows_of_failHere _ _
  | succ room ih =>
    refine shadows_peek_bind fun t u same => ?_
    rw [same]
    split
    next => exact steady_advance.bind fun _ _ => ih.bind fun _ _ => shadows_pure _ _
    next => exact steady_primary now (steady_expression ih)

/-! ### Statements -/

theorem steady_argument : Steady argument := by
  refine shadows_peek_bind fun t u same => ?_
  rw [same]
  split
  next => exact shadows_pure _ _
  next => exact steady_advance.bind fun _ _ => shadows_pure _ _
  next => exact steady_fieldName.bind fun _ _ => shadows_pure _ _

theorem steady_item : Steady item := by
  refine shadows_peek_bind fun t u same => ?_
  rw [same]
  split
  next => exact steady_fieldName.bind fun _ _ => shadows_pure _ _
  next =>
    refine steady_advance.bind fun _ _ => (steady_expect _ (by decide)).bind fun _ _ =>
      steady_argument.bind fun _ _ => (steady_expect _ (by decide)).bind fun _ _ =>
      shadows_accept_bind fun labelled => ?_
    split
    next => exact (steady_expectWhere _ (by decide)).bind fun _ _ => shadows_pure _ _
    next => exact shadows_pure _ _

theorem steady_projection : Steady projection := by
  refine shadows_accept_bind fun all => ?_
  split
  next => exact shadows_pure _ _
  next => exact (steady_listOf steady_item).bind fun _ _ => shadows_pure _ _

theorem steady_clause {content : Parser α} (h : Steady content) (word : Keyword) :
    Steady (clause word content) := by
  refine shadows_accept_bind fun present => ?_
  split
  next => exact h.bind fun _ _ => shadows_pure _ _
  next => exact shadows_pure _ _

theorem steady_statement (now : Int64) : Steady (statement now) :=
  (steady_expect _ (by decide)).bind fun _ _ => shadows_accept_bind fun _ =>
    steady_projection.bind fun _ _ => (steady_expect _ (by decide)).bind fun _ _ =>
    (steady_listOf steady_source).bind fun _ _ =>
    (steady_clause (steady_expression (steady_unary now maxNesting)) _).bind fun _ _ =>
    (steady_clause (steady_listOf steady_fieldName) _).bind fun _ _ =>
    (steady_clause (steady_listOf steady_fieldName) _).bind fun _ _ =>
    (steady_clause (steady_intervalBounds now) _).bind fun _ _ =>
    (steady_clause steady_unsigned _).bind fun _ _ =>
    (steady_clause steady_limitBounds _).bind fun _ _ =>
    shadows_accept_bind fun _ => (steady_expect _ (by decide)).bind fun _ _ =>
    shadows_get_bind fun _ _ _ => shadows_pure _ _

end Parser

theorem Fault.eq_tooDeep {fault : Fault} (same : fault.message = "expression nested too deeply") :
    fault = .tooDeep := by
  revert same
  cases fault <;> decide

open Phrase in
/-- The nesting limit is exact: at most 63 parentheses and prefix operators stand on a path through
the filter of a statement that is read, and tokens of the kinds of a statement that the grammar
derives within that bound are read, or refused for another reason. -/
theorem nesting_exact (now : Int64) (text : String) :
    (∀ s, (parse now text).1 = .ok s → ∀ e, s.filter = some e →
        ∀ path, Expr.Path e path → path.countP Expr.opens ≤ 63) ∧
      ∀ ts stop us d, compose (tokens text) = ts ++ [stop] →
        us.map (·.kind) = ts.map (·.kind) → Sentence Argument now us d →
        (∀ e, d.filter = some e → ∀ path, Expr.Path e path → path.countP Expr.opens ≤ 63) →
        ∀ e, (parse now text).1 = .error e →
          e.fault.message ≠ "expression nested too deeply" := by
  constructor
  · intro s accepted e filter
    obtain ⟨_, _, d, _, _, shallow, rfl⟩ := parse_eq_ok_iff.mp accepted
    exact Expr.nesting_le_iff.mp (shallow e filter)
  · intro ts stop us d composed kinds sentence shallow e failed deep
    have ended : stop.kind = .stop :=
      (composed ▸ endsOnce_compose (endsOnce_tokens text)).kind_last
    have input : Input.ofTokens (ts ++ [stop]) = ⟨ts, stop, {}⟩ := by
      simp [Input.ofTokens]
    -- the sentence is read to its end; the text keeps up with it
    obtain ⟨_, _, read, _⟩ := Parser.statement_ends ended sentence
      (fun e filter => Nat.lt_succ_of_le (Expr.nesting_le_iff.mpr (shallow e filter))) {}
    rcases Parser.steady_statement now ⟨ts, stop, {}⟩ ⟨us, stop, {}⟩ ⟨kinds.symm, rfl⟩ _ _ read with
      ⟨_, _, accepted, _⟩ | ⟨e', _, refused, other⟩
    · rw [parse, composed, input, accepted] at failed
      cases failed
    · rw [parse, composed, input, refused] at failed
      cases failed
      exact other (Fault.eq_tooDeep deep)

/-- The tokens of `select * from a where -(1)`, with other digits in the parentheses. -/
def signedTokens (digits : String) : List Token :=
  [⟨.keyword .select, "select", 1, 1⟩, ⟨.symbol .star, "*", 1, 8⟩, ⟨.keyword .from_, "from", 1, 10⟩,
    ⟨.name, "a", 1, 15⟩, ⟨.keyword .where_, "where", 1, 17⟩, ⟨.symbol .minus, "-", 1, 23⟩,
    ⟨.symbol .leftParen, "(", 1, 24⟩, ⟨.integer, digits, 1, 25⟩,
    ⟨.symbol .rightParen, ")", 1, 25 + digits.length⟩]

def signedFilter : Expr :=
  .unary .negate (.group (.integer 1))

/-- An integer that is too great is no matter of nesting. -/
theorem nesting_exact_signed :
    (∃ s, (parse 0 "select * from a where -(1)").1 = .ok s ∧ s.filter = some signedFilter) ∧
      Expr.Path signedFilter [signedFilter, .group (.integer 1), .integer 1] ∧
      [signedFilter, .group (.integer 1), .integer 1].countP Expr.opens ≤ 63 ∧
      (parse 0 "select * from a where -(9223372036854775808)").1 =
        .error ⟨.badInteger, ⟨.integer, "9223372036854775808", 1, 25⟩⟩ ∧
      Fault.badInteger.message ≠ "expression nested too deeply" := by
  have composed : compose (tokens "select * from a where -(1)")
      = signedTokens "1" ++ [⟨.stop, "", 1, 27⟩] := by
    decide +kernel
  have composedWide : compose (tokens "select * from a where -(9223372036854775808)")
      = signedTokens "9223372036854775808" ++ [⟨.stop, "", 1, 45⟩] := by
    decide +kernel
  have accepted : ∃ s, (parse 0 "select * from a where -(1)").1 = .ok s ∧
      s.filter = some signedFilter := by
    rw [parse, composed]
    exact ⟨_, rfl, rfl⟩
  have refused : (parse 0 "select * from a where -(9223372036854775808)").1 =
      .error ⟨.badInteger, ⟨.integer, "9223372036854775808", 1, 25⟩⟩ := by
    rw [parse, composedWide]
    rfl
  have path : Expr.Path signedFilter [signedFilter, .group (.integer 1), .integer 1] :=
    .step List.mem_cons_self (.step List.mem_cons_self (.leaf rfl))
  obtain ⟨s, read, filter⟩ := accepted
  obtain ⟨us, stop, d, same, sentence, shallow, rfl⟩ := parse_eq_ok_iff.mp read
  obtain ⟨rfl, -⟩ := List.append_inj' (composed.symm.trans same) rfl
  have bounded : ∀ e, d.filter = some e →
      ∀ path, Expr.Path e path → path.countP Expr.opens ≤ 63 :=
    fun e found => Expr.nesting_le_iff.mp (shallow e found)
  exact ⟨⟨_, read, filter⟩, path,
    (nesting_exact 0 "select * from a where -(1)").1 _ read _ filter _ path, refused,
    (nesting_exact 0 "select * from a where -(9223372036854775808)").2 _ _ (signedTokens "1") d
      composedWide rfl sentence bounded _ refused⟩

end PacketQuery.Language
