import PacketQuery.Proofs.Language.Harvest
/-!
Runs of the readers: which states they look at tokens in, and how they end. The loops of a run have
no bound, so a run that exists ends by itself. Along a run the place in the tokens never goes back
and never passes the end, and a failure names a token that was come by.
-/

namespace PacketQuery.Language

/-- The input after its next token was taken. -/
def Input.advanced (i : Input) : Input :=
  { i with rest := i.rest.tail }

/-! ### Places -/

/-- The input is what is left of the tokens `whole` from the one numbered `n` on. -/
structure Stands (whole : List Token) (n : Nat) (i : Input) : Prop where
  left : i.rest ++ [i.stop] = whole.drop n
  ended : i.stop.kind = .stop

/-- The token is one of `whole` up to the one numbered `n`. -/
def Seen (whole : List Token) (n : Nat) (t : Token) : Prop :=
  ∃ k ≤ n, whole[k]? = some t

/-- The states stand one after another at places from `n` to `m`, of which none is before the
last one. -/
inductive Ascends (whole : List Token) : (n : Nat) → List Input → (m : Nat) → Prop
  | done {n m : Nat} : n ≤ m → Ascends whole n [] m
  | look {n k m : Nat} {i : Input} {trace : List Input} : n ≤ k → Stands whole k i →
      Ascends whole k trace m → Ascends whole n (i :: trace) m

section Places

variable {whole : List Token} {n m k : Nat} {i : Input} {t : Token} {trace trace' : List Input}

namespace Stands

theorem length_eq (h : Stands whole n i) : n + i.rest.length + 1 = whole.length := by
  have lengths := congrArg List.length h.left
  rw [List.length_append, List.length_singleton, List.length_drop] at lengths
  omega

/-- The next token is there. -/
theorem getElem?_next (h : Stands whole n i) : whole[n]? = some i.next := by
  have head : (i.rest ++ [i.stop]).head? = some i.next := by
    obtain ⟨rest, stop, references⟩ := i
    cases rest <;> rfl
  rw [← head, h.left, List.head?_drop]

theorem unique (h : Stands whole n i) (h' : Stands whole m i) : n = m := by
  have left := h.length_eq
  have left' := h'.length_eq
  omega

theorem of_references (h : Stands whole n i) (r : References) :
    Stands whole n { i with references := r } :=
  ⟨h.left, h.ended⟩

/-- Taking a token goes on by one, but for the end. -/
theorem advanced (h : Stands whole n i) :
    Stands whole n i.advanced ∧ i.next.kind = .stop ∨ Stands whole (n + 1) i.advanced := by
  obtain ⟨rest, stop, references⟩ := i
  obtain ⟨left, ended⟩ := h
  cases rest with
  | nil => exact .inl ⟨⟨left, ended⟩, ended⟩
  | cons t ts =>
    refine .inr ⟨?_, ended⟩
    have next := congrArg List.tail left
    rwa [List.tail_drop] at next

end Stands

theorem Seen.mono (h : Seen whole n t) (le : n ≤ m) : Seen whole m t := by
  obtain ⟨k, before, found⟩ := h
  exact ⟨k, before.trans le, found⟩

theorem Stands.seen (h : Stands whole n i) : Seen whole n i.next :=
  ⟨n, le_rfl, h.getElem?_next⟩

namespace Ascends

theorem le (h : Ascends whole n trace m) : n ≤ m := by
  induction h with
  | done le => exact le
  | look le _ _ ih => exact le.trans ih

theorem append (h : Ascends whole n trace k) (h' : Ascends whole k trace' m) :
    Ascends whole n (trace ++ trace') m := by
  induction h with
  | done le =>
    cases h' with
    | done le' => exact .done (le.trans le')
    | look le' stands later => exact .look (le.trans le') stands later
  | look le stands _ ih => exact .look le stands (ih h')

/-- Every state of the trace stands at a place that is not past the last. -/
theorem stands (h : Ascends whole n trace m) (member : i ∈ trace) :
    ∃ k ≤ m, Stands whole k i := by
  induction h with
  | done => cases member
  | look _ stands later ih =>
    cases member with
    | head => exact ⟨_, later.le, stands⟩
    | tail _ member => exact ih member

end Ascends

end Places

namespace Parser

variable {α β : Type}

/-! ### Runs -/

/-- The operators of a level after its first operand. -/
def operatorsAfter (operator? : Kind → Option BinaryOp) (operand : Parser Expr) (left : Expr) :
    Parser Expr := do
  moreOperands operator? operand (← get).rest.length left

/-- One round of a list after its first item. -/
def itemsRound (item : Parser α) : Parser (List α) := do
  if ← accept (.symbol .comma) then
    let x ← item
    return x :: (← restOfList item)
  else return []

/-- One round of the operators of a level. -/
def operatorsRound (operator? : Kind → Option BinaryOp) (operand : Parser Expr) (left : Expr) :
    Parser Expr := do
  match operator? (← peek).kind with
  | none => return left
  | some op =>
    let _ ← advance
    let right ← operand
    operatorsAfter operator? operand (.binary op left right)

/-- The reader comes from an input to an end, and looks at tokens in the states `trace`. Lists and
the operators of a level are loops that go on for as many rounds as they have. -/
inductive Run : {α : Type} → Parser α → Input → (trace : List Input) →
    EStateM.Result ParseError Input α → Prop
  | pure {α : Type} (a : α) (i : Input) : Run (pure a) i [] (.ok a i)
  | fail {α : Type} (token : Token) (fault : Fault) (i : Input) :
      Run (failAt token fault : Parser α) i [] (.error ⟨fault, token⟩ i)
  | peek (i : Input) : Run peek i [i] (.ok i.next i)
  | advance (i : Input) : Run advance i [i] (.ok i.next i.advanced)
  | ahead (i : Input) : Run subscriptFollows i [i] (subscriptFollows i)
  | note (f : References → References) (i : Input) :
      Run (note f) i [] (.ok () { i with references := f i.references })
  | references (i : Input) : Run (do return (← get).references) i [] (.ok i.references i)
  | bind {α β : Type} {p : Parser α} {q : α → Parser β} {i j : Input} {a : α}
      {trace trace' : List Input} {r : EStateM.Result ParseError Input β} :
      Run p i trace (.ok a j) → Run (q a) j trace' r → Run (p >>= q) i (trace ++ trace') r
  | fails {α β : Type} {p : Parser α} {q : α → Parser β} {i j : Input} {e : ParseError}
      {trace : List Input} : Run p i trace (.error e j) → Run (p >>= q) i trace (.error e j)
  | items {α : Type} {item : Parser α} {i : Input} {trace : List Input}
      {r : EStateM.Result ParseError Input (List α)} :
      Run (itemsRound item) i trace r → Run (restOfList item) i trace r
  | operators {operator? : Kind → Option BinaryOp} {operand : Parser Expr} {left : Expr}
      {i : Input} {trace : List Input} {r : EStateM.Result ParseError Input Expr} :
      Run (operatorsRound operator? operand left) i trace r →
      Run (operatorsAfter operator? operand left) i trace r

/-- The input that is left at an end. -/
def leftOf : EStateM.Result ParseError Input α → Input
  | .ok _ i => i
  | .error _ i => i

/-- Whatever is read, the place never goes back and never passes the end. -/
theorem Run.ascends {whole : List Token} {p : Parser α} {i : Input} {trace : List Input}
    {r : EStateM.Result ParseError Input α} (run : Run p i trace r) {n : Nat}
    (start : Stands whole n i) :
    ∃ m, Ascends whole n trace m ∧ Stands whole m (leftOf r) := by
  induction run generalizing n with
  | pure | fail | references => exact ⟨n, .done le_rfl, start⟩
  | note => exact ⟨n, .done le_rfl, start.of_references _⟩
  | peek | ahead => exact ⟨n, .look le_rfl start (.done le_rfl), start⟩
  | advance i =>
    rcases start.advanced with ⟨stays, -⟩ | goes
    · exact ⟨n, .look le_rfl start (.done le_rfl), stays⟩
    · exact ⟨n + 1, .look le_rfl start (.done (Nat.le_succ n)), goes⟩
  | bind _ _ ih ih' =>
    obtain ⟨k, first, stands⟩ := ih start
    obtain ⟨m, second, ends⟩ := ih' stands
    exact ⟨m, first.append second, ends⟩
  | fails _ ih => exact ih start
  | items _ ih => exact ih start
  | operators _ ih => exact ih start

/-! ### What is reached -/

/-- An end that is reached from place `n`: a value that has the property at the place reached, or a
failure at a token come by. -/
inductive Reached (whole : List Token) (n : Nat) (post : Nat → α → Prop) :
    EStateM.Result ParseError Input α → Prop
  | value {m : Nat} {a : α} {j : Input} : n ≤ m → Stands whole m j → post m a →
      Reached whole n post (.ok a j)
  | failure {m : Nat} {e : ParseError} {j : Input} : n ≤ m → Stands whole m j →
      Seen whole m e.token → Reached whole n post (.error e j)

/-- From place `n` there is a run of `loop` to the end that the reader `p` gives. -/
def WalksAs (whole : List Token) (loop p : Parser α) (n : Nat) (post : Nat → α → Prop) :
    Prop :=
  ∀ i, Stands whole n i → ∃ trace, Run loop i trace (p i) ∧ Reached whole n post (p i)

/-- From place `n` there is a run of the reader to its end. -/
abbrev Walks (whole : List Token) (p : Parser α) (n : Nat) (post : Nat → α → Prop) : Prop :=
  WalksAs whole p p n post

/-- What is returned does not matter. -/
abbrev Finishes (whole : List Token) (p : Parser α) : Prop :=
  ∀ n, Walks whole p n fun _ _ => True

variable {whole : List Token} {n m : Nat} {post : Nat → α → Prop} {post' : Nat → β → Prop}

theorem Reached.before {r : EStateM.Result ParseError Input α} (h : Reached whole m post r)
    (le : n ≤ m) : Reached whole n post r := by
  cases h with
  | value le' stands holds => exact .value (le.trans le') stands holds
  | failure le' stands seen => exact .failure (le.trans le') stands seen

theorem WalksAs.bind {loop p : Parser α} {loop' q : α → Parser β}
    (first : WalksAs whole loop p n post)
    (second : ∀ m a, n ≤ m → post m a → WalksAs whole (loop' a) (q a) m post') :
    WalksAs whole (loop >>= loop') (p >>= q) n post' := by
  intro i start
  obtain ⟨trace, run, reached⟩ := first i start
  change ∃ trace, Run _ i trace (EStateM.bind p q i) ∧ Reached _ _ _ (EStateM.bind p q i)
  unfold EStateM.bind
  cases read : p i with
  | ok a j =>
    rw [read] at run reached
    cases reached with
    | value le stands holds =>
      obtain ⟨trace', run', reached'⟩ := second _ a le holds j stands
      exact ⟨_, run.bind run', reached'.before le⟩
  | error e j =>
    rw [read] at run reached
    cases reached with
    | failure le stands seen => exact ⟨trace, run.fails, .failure le stands seen⟩

theorem WalksAs.weaken {loop p : Parser α} {weaker : Nat → α → Prop}
    (h : WalksAs whole loop p n post) (imp : ∀ m a, n ≤ m → post m a → weaker m a) :
    WalksAs whole loop p n weaker := by
  intro i start
  obtain ⟨trace, run, reached⟩ := h i start
  refine ⟨trace, run, ?_⟩
  generalize p i = r at reached
  cases reached with
  | value le stands holds => exact .value le stands (imp _ _ le holds)
  | failure le stands seen => exact .failure le stands seen

theorem WalksAs.any {loop p : Parser α} (h : WalksAs whole loop p n post) :
    WalksAs whole loop p n fun _ _ => True :=
  h.weaken fun _ _ _ _ => trivial

theorem WalksAs.andThen {p : Parser α} {q : α → Parser β}
    (first : Walks whole p n fun _ _ => True) (second : ∀ a, Finishes whole (q a)) :
    Walks whole (p >>= q) n fun _ _ => True :=
  first.bind fun m a _ _ => second a m

/-- One reader after another, of which the first gives nothing that is needed. -/
theorem Finishes.bind {p : Parser α} {q : α → Parser β} (first : Finishes whole p)
    (second : ∀ a, Finishes whole (q a)) : Finishes whole (p >>= q) :=
  fun n => (first n).andThen second

/-! ### Single tokens -/

theorem walks_pure {a : α} (holds : post n a) : Walks whole (pure a) n post :=
  fun i start => ⟨[], .pure a i, .value le_rfl start holds⟩

theorem walks_failAt {t : Token} (seen : Seen whole n t) (fault : Fault) :
    Walks whole (failAt t fault : Parser α) n post :=
  fun i start => ⟨[], .fail t fault i, .failure le_rfl start seen⟩

theorem walks_peek : Walks whole peek n fun m t => m = n ∧ whole[n]? = some t :=
  fun i start => ⟨[i], .peek i, .value le_rfl start ⟨rfl, start.getElem?_next⟩⟩

/-- Any token but the end is passed when it is taken. -/
theorem walks_advance : Walks whole advance n fun m t =>
    Seen whole m t ∧ ((∃ u, whole[n]? = some u ∧ u.kind ≠ .stop) → n < m) := by
  intro i start
  refine ⟨[i], ?_, ?_⟩
  · rw [advance_eq]
    exact .advance i
  rw [advance_eq]
  rcases start.advanced with ⟨stays, last⟩ | goes
  · refine .value le_rfl stays ⟨start.seen, ?_⟩
    rintro ⟨u, found, other⟩
    cases start.getElem?_next.symm.trans found
    exact absurd last other
  · have seen := start.seen.mono (Nat.le_succ n)
    exact .value (Nat.le_succ n) goes ⟨seen, fun _ => Nat.lt_succ_self n⟩

theorem walks_subscriptFollows : Walks whole subscriptFollows n fun _ _ => True :=
  fun i start => ⟨[i], .ahead i, .value le_rfl start trivial⟩

theorem finishes_note (f : References → References) : Finishes whole (note f) :=
  fun _ i start => ⟨[], .note f i, .value le_rfl (start.of_references _) trivial⟩

theorem finishes_pure (a : α) : Finishes whole (pure a) :=
  fun _ => walks_pure trivial

theorem finishes_advance : Finishes whole advance :=
  fun _ => walks_advance.any

theorem walks_failHere (fault : Fault) : Walks whole (failHere fault : Parser α) n post :=
  walks_peek.bind fun _ _ _ found => walks_failAt ⟨n, found.1.ge, found.2⟩ fault

theorem walks_ofOption {t : Token} (seen : Seen whole n t) (fault : Fault) (a? : Option α) :
    Walks whole (ofOption t fault a?) n fun _ _ => True := by
  cases a? with
  | none => exact walks_failAt seen fault
  | some a => exact walks_pure trivial

theorem walks_integerOf {t : Token} (seen : Seen whole n t) :
    Walks whole (integerOf t) n fun _ _ => True :=
  walks_ofOption seen _ _

/-- A token that is accepted is passed. -/
theorem walks_accept {kind : Kind} (other : kind ≠ .stop) :
    Walks whole (accept kind) n fun m taken => taken = true → n < m := by
  refine walks_peek.bind fun m t _ found => ?_
  obtain ⟨rfl, found⟩ := found
  split
  next same =>
    refine walks_advance.bind fun k u _ passed => walks_pure fun _ => passed.2 ⟨t, found, ?_⟩
    rwa [same]
  next => exact walks_pure nofun

theorem finishes_accept (kind : Kind) : Finishes whole (accept kind) := by
  intro n
  refine walks_peek.bind fun m t _ _ => ?_
  split
  next => exact walks_advance.bind fun _ _ _ _ => walks_pure trivial
  next => exact walks_pure trivial

theorem walks_expect (kind : Kind) (fault : Fault) :
    Walks whole (expect kind fault) n fun m t => Seen whole m t := by
  refine walks_peek.bind fun m t _ _ => ?_
  split
  next => exact walks_advance.weaken fun _ _ _ passed => passed.1
  next => exact walks_failHere fault

theorem finishes_expect (kind : Kind) (fault : Fault) : Finishes whole (expect kind fault) :=
  fun _ => (walks_expect kind fault).any

theorem finishes_expectWhere (test : Kind → Bool) (fault : Fault) :
    Finishes whole (expectWhere test fault) := by
  intro n
  refine walks_peek.bind fun m t _ _ => ?_
  split
  next => exact finishes_advance m
  next => exact walks_failHere fault

/-! ### Names, numbers and times -/

theorem finishes_unsigned : Finishes whole unsigned := by
  intro n
  refine (walks_expect _ _).bind fun m t _ seen =>
    (walks_integerOf seen).bind fun k value le _ => ?_
  split
  next => exact walks_failAt (seen.mono le) _
  next => exact walks_pure trivial

theorem finishes_byteValue : Finishes whole byteValue := by
  intro n
  refine (walks_expect _ _).bind fun m t _ seen =>
    (walks_integerOf seen).bind fun k value le _ => ?_
  split
  next => exact walks_pure trivial
  next => exact walks_failAt (seen.mono le) _

theorem finishes_fieldName : Finishes whole fieldName := by
  intro n
  refine walks_peek.bind fun m t _ _ => ?_
  split
  next => exact (finishes_advance.bind fun t => (finishes_note _).bind fun _ => finishes_pure _) m
  next => exact (finishes_advance.bind fun t => finishes_pure _) m
  next => exact walks_failHere _

theorem finishes_source : Finishes whole source :=
  (finishes_expectWhere _ _).bind fun _ => finishes_pure _

theorem finishes_nowCall (now : Int64) : Finishes whole (nowCall now) := by
  refine finishes_advance.bind fun _ => (finishes_expect _ _).bind fun _ =>
    (finishes_accept _).bind fun closed => ?_
  split
  next => exact finishes_pure _
  next =>
    refine (finishes_accept _).bind fun ahead => ?_
    extract_lets amount
    have rest : Finishes whole (amount ()) := by
      intro n
      -- the amount is named once more when the moment is out of range
      refine (walks_expect _ _).bind fun m t _ seen =>
        (walks_integerOf seen).bind fun k distance le _ => ?_
      extract_lets offset
      refine (walks_expect _ _).bind fun k' word le' spelled =>
        (walks_ofOption spelled _ _).bind fun l unit le'' _ => ?_
      extract_lets close
      have closes : Finishes whole (close ()) := (finishes_expect _ _).bind fun _ => finishes_pure _
      split
      next => exact (walks_failAt (seen.mono (le.trans (le'.trans le''))) _).andThen fun _ => closes
      next => exact closes l
    split
    next => exact (finishes_accept _).bind fun _ => rest
    next => exact rest

theorem finishes_timeBound (now : Int64) : Finishes whole (timeBound now) := by
  intro n
  refine walks_peek.bind fun m t _ found => ?_
  have seen : ∀ {k}, m ≤ k → Seen whole k t := fun le => ⟨n, found.1.ge.trans le, found.2⟩
  have literal : ∀ {fault : Fault} {value? : Option Int64},
      Walks whole (do let _ ← advance; ofOption t fault value?) m fun _ _ => True :=
    walks_advance.bind fun _ _ le _ => walks_ofOption (seen le) _ _
  split
  next => exact literal
  next => exact literal
  next => exact literal
  next => exact literal
  next => exact (finishes_nowCall now m).bind fun _ _ le _ => walks_ofOption (seen le) _ _
  next => exact walks_failHere _

theorem finishes_intervalBounds (now : Int64) : Finishes whole (intervalBounds now) :=
  (finishes_timeBound now).bind fun _ => (finishes_expect _ _).bind fun _ =>
    (finishes_timeBound now).bind fun _ => finishes_pure _

theorem finishes_limitBounds : Finishes whole limitBounds := by
  refine finishes_unsigned.bind fun first => (finishes_accept _).bind fun more => ?_
  split
  next => exact finishes_unsigned.bind fun _ => finishes_pure _
  next => exact finishes_pure _

/-! ### Loops -/

/-- At the last token nothing is left. -/
theorem rest_eq_nil {i : Input} (start : Stands whole n i) (last : whole.length ≤ n + 1) :
    i.rest = [] := by
  have lengths := start.length_eq
  exact List.eq_nil_of_length_eq_zero (by omega)

theorem accept_last {kind : Kind} {i : Input} (start : Stands whole n i)
    (last : whole.length ≤ n + 1) (other : kind ≠ .stop) : accept kind i = .ok false i := by
  obtain ⟨rest, stop, references⟩ := i
  obtain rfl : rest = [] := rest_eq_nil start last
  have ended : stop.kind = .stop := start.ended
  change (if stop.kind = kind then _ else _ : Parser Bool) _ = _
  rw [if_neg (by rw [ended]; exact other.symm)]
  rfl

/-- Every round takes a comma, so the loop ends within as many rounds as there are tokens. -/
theorem walks_moreItems {item : Parser α} (each : Finishes whole item) (room : Nat)
    (fits : whole.length ≤ n + room + 1) :
    WalksAs whole (restOfList item) (moreItems item room) n fun _ _ => True := by
  induction room generalizing n with
  | zero =>
    intro i start
    obtain ⟨trace, run, -⟩ := @walks_accept whole n (.symbol .comma) (by decide) i start
    rw [accept_last start fits (by decide)] at run
    exact ⟨_, .items (run.bind (.pure [] i)), .value le_rfl start trivial⟩
  | succ room ih =>
    have round : WalksAs whole (itemsRound item) (moreItems item (room + 1)) n
        fun _ _ => True := by
      refine (walks_accept (by decide)).bind fun m more _ passed => ?_
      cases more with
      | false => exact walks_pure trivial
      | true =>
        have further := passed rfl
        exact (each m).bind fun k x le _ => (ih (by omega)).bind fun _ _ _ _ => walks_pure trivial
    intro i start
    obtain ⟨trace, run, reached⟩ := round i start
    exact ⟨trace, .items run, reached⟩

theorem finishes_restOfList {item : Parser α} (each : Finishes whole item) :
    Finishes whole (restOfList item) := by
  intro n i start
  have lengths := start.length_eq
  exact walks_moreItems each i.rest.length (by omega) i start

theorem finishes_listOf {item : Parser α} (each : Finishes whole item) :
    Finishes whole (listOf item) :=
  each.bind fun _ => (finishes_restOfList each).bind fun _ => finishes_pure _

/-- Every round takes an operator, and the end is none. -/
theorem walks_moreOperands {operator? : Kind → Option BinaryOp} (last : operator? .stop = none)
    {operand : Parser Expr} (each : Finishes whole operand) (room : Nat) (left : Expr)
    (fits : whole.length ≤ n + room + 1) :
    WalksAs whole (operatorsAfter operator? operand left)
      (moreOperands operator? operand room left) n fun _ _ => True := by
  induction room generalizing n left with
  | zero =>
    intro i start
    have ended : operator? i.next.kind = none := by
      obtain ⟨rest, stop, references⟩ := i
      obtain rfl : rest = [] := rest_eq_nil start fits
      have stops : stop.kind = .stop := start.ended
      exact stops ▸ last
    have round : Run (operatorsRound operator? operand left) i ([i] ++ []) (.ok left i) := by
      refine .bind (.peek i) ?_
      rw [ended]
      exact .pure left i
    exact ⟨_, .operators round, .value le_rfl start trivial⟩
  | succ room ih =>
    have round : WalksAs whole (operatorsRound operator? operand left)
        (moreOperands operator? operand (room + 1) left) n fun _ _ => True := by
      refine walks_peek.bind fun m t _ found => ?_
      obtain ⟨rfl, found⟩ := found
      cases operator : operator? t.kind with
      | none => exact walks_pure trivial
      | some op =>
        have other : t.kind ≠ .stop := by
          intro same
          rw [same, last] at operator
          cases operator
        refine walks_advance.bind fun k u _ passed => ?_
        have further := passed.2 ⟨t, found, other⟩
        exact (each k).bind fun l right le _ => ih (.binary op left right) (by omega)
    intro i start
    obtain ⟨trace, run, reached⟩ := round i start
    exact ⟨trace, .operators run, reached⟩

theorem finishes_chain {operator? : Kind → Option BinaryOp} (last : operator? .stop = none)
    {operand : Parser Expr} (each : Finishes whole operand) :
    Finishes whole (chain operator? operand) := by
  refine each.bind fun left n i start => ?_
  have lengths := start.length_eq
  obtain ⟨trace, run, reached⟩ :=
    walks_moreOperands last each i.rest.length left (by omega) i start
  exact ⟨trace, run, reached⟩

/-! ### Expressions -/

theorem finishes_relation {operand : Parser Expr} (each : Finishes whole operand) :
    Finishes whole (relation operand) := by
  refine each.bind fun left n => walks_peek.bind fun m t _ _ => ?_
  split
  next => exact walks_pure trivial
  next op _ =>
    refine (finishes_advance.bind fun _ => each.bind fun right => ?_) m
    split
    next =>
      refine (finishes_accept _).bind fun ranged => ?_
      split
      next => exact each.bind fun upper => finishes_pure _
      next => exact finishes_pure _
    next => exact finishes_pure _

theorem finishes_expression {operand : Parser Expr} (each : Finishes whole operand) :
    Finishes whole (expression operand) :=
  finishes_chain rfl (finishes_chain rfl (finishes_relation
    (finishes_chain rfl (finishes_chain rfl (finishes_chain rfl each)))))

theorem finishes_ipv4 : Finishes whole ipv4 := by
  intro n
  refine walks_advance.bind fun m t _ seen => (walks_ofOption seen.1 _ _).bind fun k address _ _ =>
    (finishes_accept _ _).bind fun l slash _ _ => ?_
  extract_lets finish
  have finishes : ∀ length, Finishes whole (finish length) :=
    fun length => (finishes_note _).bind fun _ => finishes_pure _
  split
  next =>
    refine (walks_expect _ _).bind fun l t _ seen =>
      (walks_integerOf seen).bind fun l' length le _ => ?_
    split
    next => exact (walks_pure trivial).andThen finishes
    next => exact (walks_failAt (seen.mono le) _).andThen finishes
  next => exact (walks_pure trivial).andThen finishes

theorem finishes_byteString : Finishes whole byteString :=
  finishes_advance.bind fun _ => (finishes_listOf finishes_byteValue).bind fun _ =>
    (finishes_expect _ _).bind fun _ => finishes_pure _

theorem finishes_subscript : Finishes whole subscript := by
  intro n
  refine walks_advance.bind fun m t _ seen => ?_
  extract_lets base finish start
  have finishes : Finishes whole (finish ()) :=
    finishes_advance.bind fun _ => finishes_unsigned.bind fun _ =>
      (finishes_expect _ _).bind fun _ => finishes_unsigned.bind fun _ =>
      (finishes_expect _ _).bind fun _ => finishes_pure _
  have starts : Finishes whole (start ()) := by
    change Finishes whole (if _ then _ else _ : Parser Expr)
    split
    next => exact (finishes_note _).bind fun _ => finishes
    next => exact finishes
  split
  next => exact (walks_failAt seen.1 _).andThen fun _ => starts
  next => exact starts m

theorem finishes_parenthesised {nested : Parser Expr} (each : Finishes whole nested) :
    Finishes whole (parenthesised nested) := by
  refine finishes_advance.bind fun _ => each.bind fun first =>
    (finishes_accept _).bind fun more => ?_
  split
  next =>
    exact (finishes_listOf each).bind fun _ => (finishes_expect _ _).bind fun _ => finishes_pure _
  next => exact (finishes_expect _ _).bind fun _ => finishes_pure _

theorem finishes_primary (now : Int64) {nested : Parser Expr} (each : Finishes whole nested) :
    Finishes whole (primary now nested) := by
  intro n
  refine walks_peek.bind fun m t _ found => ?_
  have literal : ∀ {value : Type} {fault : Fault} {value? : Option value} {made : value → Expr},
      Walks whole (do let _ ← advance; let a ← ofOption t fault value?; return made a) m
        fun _ _ => True :=
    walks_advance.bind fun k _ le _ =>
      (walks_ofOption ⟨n, found.1.ge.trans le, found.2⟩ _ _).bind fun _ _ _ _ =>
        walks_pure trivial
  have word : ∀ {made : Token → Expr}, Finishes whole (do return made (← advance)) :=
    finishes_advance.bind fun _ => finishes_pure _
  split
  next => exact literal
  next => exact literal
  next => exact word m
  next => exact word m
  next => exact word m
  next => exact literal
  next => exact literal
  next => exact literal
  next => exact finishes_ipv4 m
  next => exact literal
  next => exact finishes_byteString m
  next => exact (finishes_advance.bind fun _ => (finishes_note _).bind fun _ => finishes_pure _) m
  next =>
    refine walks_subscriptFollows.bind fun k follows _ _ => ?_
    split
    next => exact finishes_subscript k
    next => exact word k
  next =>
    refine walks_subscriptFollows.bind fun k follows _ _ => ?_
    split
    next => exact finishes_subscript k
    next => exact (finishes_advance.bind fun _ => (finishes_note _).bind fun _ => finishes_pure _) k
  next => exact finishes_parenthesised each m
  next => exact ((finishes_nowCall now).bind fun _ => finishes_pure _) m
  next => exact word m
  next => exact walks_failHere _

theorem finishes_unary (now : Int64) (room : Nat) : Finishes whole (unary now room) := by
  induction room with
  | zero => exact fun _ => walks_failHere _
  | succ room ih =>
    refine fun n => walks_peek.bind fun m t _ _ => ?_
    split
    next => exact (finishes_advance.bind fun _ => ih.bind fun _ => finishes_pure _) m
    next => exact finishes_primary now (finishes_expression ih) m

/-! ### Statements -/

theorem finishes_argument : Finishes whole argument := by
  refine fun n => walks_peek.bind fun m t _ _ => ?_
  split
  next => exact walks_pure trivial
  next => exact (finishes_advance.bind fun _ => finishes_pure _) m
  next => exact (finishes_fieldName.bind fun _ => finishes_pure _) m

theorem finishes_item : Finishes whole item := by
  refine fun n => walks_peek.bind fun m t _ _ => ?_
  split
  next => exact (finishes_fieldName.bind fun _ => finishes_pure _) m
  next =>
    refine (finishes_advance.bind fun _ => (finishes_expect _ _).bind fun _ =>
      finishes_argument.bind fun _ => (finishes_expect _ _).bind fun _ =>
      (finishes_accept _).bind fun labelled => ?_) m
    split
    next => exact (finishes_expectWhere _ _).bind fun _ => finishes_pure _
    next => exact finishes_pure _

theorem finishes_projection : Finishes whole projection := by
  refine (finishes_accept _).bind fun all => ?_
  split
  next => exact finishes_pure _
  next => exact (finishes_listOf finishes_item).bind fun _ => finishes_pure _

theorem finishes_clause {content : Parser α} (h : Finishes whole content) (word : Keyword) :
    Finishes whole (clause word content) := by
  refine (finishes_accept _).bind fun present => ?_
  split
  next => exact h.bind fun _ => finishes_pure _
  next => exact finishes_pure _

/-- A value that is made of what was referred to. -/
theorem finishes_references (made : References → α) :
    Finishes whole (do return made (← get).references) := by
  intro n i start
  have run : Run (do let r ← (do return (← get).references); return made r) i ([] ++ [])
      (.ok (made i.references) i) :=
    (Run.references i).bind (.pure _ i)
  exact ⟨_, run, .value le_rfl start trivial⟩

/-- The reading of a statement ends by itself, wherever it starts. -/
theorem finishes_statement (now : Int64) : Finishes whole (statement now) := by
  refine (finishes_expect _ _).bind fun _ => (finishes_accept _).bind fun distinct =>
    finishes_projection.bind fun projection => (finishes_expect _ _).bind fun _ =>
    (finishes_listOf finishes_source).bind fun sources =>
    (finishes_clause (finishes_expression (finishes_unary now maxNesting)) _).bind fun filter =>
    (finishes_clause (finishes_listOf finishes_fieldName) _).bind fun groupBy =>
    (finishes_clause (finishes_listOf finishes_fieldName) _).bind fun orderBy =>
    (finishes_clause (finishes_intervalBounds now) _).bind fun interval =>
    (finishes_clause finishes_unsigned _).bind fun top =>
    (finishes_clause finishes_limitBounds _).bind fun limit =>
    (finishes_accept _).bind fun _ => (finishes_expect _ _).bind fun _ => ?_
  let made (r : References) : Statement := {
    distinct, projection, sources, filter, top, limit, interval
    groupBy := groupBy.getD []
    orderBy := orderBy.getD []
    protocols := r.protocols
    networks := r.networks }
  exact finishes_references made

end Parser

end PacketQuery.Language
