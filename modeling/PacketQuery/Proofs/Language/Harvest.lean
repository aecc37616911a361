import PacketQuery.Language.Grammar
import PacketQuery.Proofs.Language.Mention
import PacketQuery.Proofs.Language.Words
/-!
What reading a statement refers to. Every reader notes the mentions of what it returns, in order,
and nothing else; so the protocols and networks of a statement are those that its mentions leave.
-/

namespace PacketQuery.Language

/-- No name that is left to read has a point. -/
def Input.IsPlain (i : Input) : Prop :=
  i.stop.IsPlain ∧ ∀ t ∈ i.rest, t.IsPlain

/-- The next token; at the end of the tokens that end. -/
def Input.next (i : Input) : Token :=
  i.rest.head?.getD i.stop

theorem Input.IsPlain.next {i : Input} (plain : i.IsPlain) : i.next.IsPlain := by
  obtain ⟨rest, stop, references⟩ := i
  cases rest with
  | nil => exact plain.1
  | cons t ts => exact plain.2 t List.mem_cons_self

/-- The input `j` is left of `i` after the mentions were noted. -/
structure Noted (i : Input) (ms : List Mention) (j : Input) : Prop where
  plain : j.IsPlain
  references : j.references = i.references.noteAll ms

namespace Noted

theorem refl {i : Input} (plain : i.IsPlain) : Noted i [] i :=
  ⟨plain, rfl⟩

theorem trans {i j k : Input} {ms ns : List Mention} (first : Noted i ms j)
    (second : Noted j ns k) : Noted i (ms ++ ns) k := by
  refine ⟨second.plain, ?_⟩
  rw [second.references, first.references, References.noteAll_append]

end Noted

namespace Parser

variable {α β : Type}

/-- A reader that has read one thing after another. -/
theorem bind_ok {p : Parser α} {q : α → Parser β} {i k : Input} {b : β}
    (h : (p >>= q) i = .ok b k) : ∃ a j, p i = .ok a j ∧ q a j = .ok b k := by
  change EStateM.bind p q i = .ok b k at h
  unfold EStateM.bind at h
  cases read : p i with
  | ok a j =>
    rw [read] at h
    exact ⟨a, j, rfl, h⟩
  | error e j =>
    rw [read] at h
    cases h

theorem peek_eq (i : Input) : peek i = .ok i.next i :=
  rfl

theorem advance_eq (i : Input) : advance i = .ok i.next { i with rest := i.rest.tail } := by
  obtain ⟨rest, stop, references⟩ := i
  cases rest <;> rfl

/-- Where the mentions `before` were noted, the reader goes on to those of what it returns. -/
def Notes (p : Parser α) (before : List Mention) (after : α → List Mention) : Prop :=
  ∀ (i j k : Input) (a : α), Noted i before j → p j = .ok a k → Noted i (after a) k

/-- The reader notes nothing. -/
abbrev Silent (p : Parser α) : Prop :=
  ∀ ms : List Mention, p.Notes ms fun _ => ms

variable {before : List Mention} {after : β → List Mention}

theorem Notes.bind {p : Parser α} {q : α → Parser β} {between : α → List Mention}
    (first : p.Notes before between) (second : ∀ a, (q a).Notes (between a) after) :
    (p >>= q).Notes before after := by
  intro i j l b noted h
  obtain ⟨a, k, read, h⟩ := bind_ok h
  exact second a i k l b (first i j k a noted read) h

theorem Silent.bind {p : Parser α} {q : α → Parser β} (first : p.Silent)
    (second : ∀ a, (q a).Notes before after) : (p >>= q).Notes before after :=
  Notes.bind (first before) second

/-- What was noted before does not matter. -/
theorem Notes.frame {p : Parser α} {mentions : α → List Mention} (h : p.Notes [] mentions)
    (before : List Mention) : p.Notes before fun a => before ++ mentions a := by
  intro i j k a noted read
  exact noted.trans (h j j k a (.refl noted.plain) read)

theorem notes_pure {b : β} (same : after b = before) : (pure b : Parser β).Notes before after := by
  intro i j k c noted h
  cases h
  rwa [same]

theorem notes_failAt (token : Token) (fault : Fault) :
    (failAt token fault : Parser β).Notes before after := by
  intro i j k b _ h
  cases h

theorem notes_note (m : Mention) : (note (·.note m)).Notes before fun _ => before ++ [m] := by
  intro i j k b noted h
  cases h
  exact noted.trans ⟨noted.plain, rfl⟩

/-- A protocol is noted in capitals, however it was written. -/
theorem notes_protocol (name : String) : (note (·.addProtocol name)).Notes before
    fun _ => before ++ [.protocol (Text.upper name)] := by
  have same : ∀ r : References, r.addProtocol name = r.note (.protocol (Text.upper name)) := by
    intro r
    simp only [References.note, References.addProtocol, Text.upper_upper]
  simpa only [same] using notes_note (.protocol (Text.upper name))

/-! ### Readers that note nothing -/

theorem silent_peek : peek.Silent := by
  intro ms i j k t noted h
  cases h
  exact noted

theorem silent_get : (get : Parser Input).Silent := by
  intro ms i j k t noted h
  cases h
  exact noted

theorem silent_advance : advance.Silent := by
  intro ms i j k t noted h
  rw [advance_eq] at h
  cases h
  refine ⟨⟨noted.plain.1, fun t member => ?_⟩, noted.references⟩
  exact noted.plain.2 t (List.mem_of_mem_tail member)

theorem notes_failHere (fault : Fault) : (failHere fault : Parser β).Notes before after :=
  silent_peek.bind fun t => notes_failAt t fault

theorem silent_ofOption (token : Token) (fault : Fault) (a? : Option α) :
    (ofOption token fault a?).Silent := by
  intro ms
  cases a? with
  | none => exact notes_failAt token fault
  | some a => exact notes_pure rfl

theorem silent_accept (kind : Kind) : (accept kind).Silent := by
  intro ms
  refine silent_peek.bind fun t => ?_
  split
  next => exact silent_advance.bind fun _ => notes_pure rfl
  next => exact notes_pure rfl

theorem silent_expect (kind : Kind) (fault : Fault) : (expect kind fault).Silent := by
  intro ms
  refine silent_peek.bind fun t => ?_
  split
  next => exact silent_advance ms
  next => exact notes_failHere fault

theorem silent_expectWhere (test : Kind → Bool) (fault : Fault) :
    (expectWhere test fault).Silent := by
  intro ms
  refine silent_peek.bind fun t => ?_
  split
  next => exact silent_advance ms
  next => exact notes_failHere fault

theorem silent_integerOf (t : Token) : (integerOf t).Silent :=
  silent_ofOption t _ _

theorem silent_unsigned : unsigned.Silent := by
  intro ms
  refine (silent_expect _ _).bind fun t => (silent_integerOf t).bind fun value => ?_
  split
  next => exact notes_failAt t _
  next => exact notes_pure rfl

theorem silent_nowCall (now : Int64) : (nowCall now).Silent := by
  intro ms
  refine silent_advance.bind fun _ => (silent_expect _ _).bind fun _ =>
    (silent_accept _).bind fun closed => ?_
  split
  next => exact notes_pure rfl
  next =>
    refine (silent_accept _).bind fun ahead => ?_
    extract_lets amount
    have rest : (amount ()).Notes ms fun _ => ms := by
      refine (silent_expect _ _).bind fun t => (silent_integerOf t).bind fun distance => ?_
      extract_lets offset
      refine (silent_expect _ _).bind fun word => (silent_ofOption _ _ _).bind fun unit => ?_
      extract_lets close
      have closes : (close ()).Notes ms fun _ => ms :=
        (silent_expect _ _).bind fun _ => notes_pure rfl
      split
      next => exact Notes.bind (notes_failAt t _) fun _ => closes
      next => exact closes
    split
    next => exact (silent_accept _).bind fun _ => rest
    next => exact rest

theorem silent_timeBound (now : Int64) : (timeBound now).Silent := by
  intro ms
  refine silent_peek.bind fun t => ?_
  split
  next => exact silent_advance.bind fun _ => silent_ofOption t _ _ ms
  next => exact silent_advance.bind fun _ => silent_ofOption t _ _ ms
  next => exact silent_advance.bind fun _ => silent_ofOption t _ _ ms
  next => exact silent_advance.bind fun _ => silent_integerOf t ms
  next => exact (silent_nowCall now).bind fun _ => silent_ofOption t _ _ ms
  next => exact notes_failHere _

theorem silent_intervalBounds (now : Int64) : (intervalBounds now).Silent :=
  fun _ => (silent_timeBound now).bind fun _ => (silent_expect _ _).bind fun _ =>
    (silent_timeBound now).bind fun _ => notes_pure rfl

theorem silent_limitBounds : limitBounds.Silent := by
  intro ms
  refine silent_unsigned.bind fun first => (silent_accept _).bind fun more => ?_
  split
  next => exact silent_unsigned.bind fun _ => notes_pure rfl
  next => exact notes_pure rfl

theorem silent_source : source.Silent :=
  fun _ => (silent_expectWhere _ _).bind fun _ => notes_pure rfl

theorem silent_byteValue : byteValue.Silent := by
  intro ms
  refine (silent_expect _ _).bind fun t => (silent_integerOf t).bind fun value => ?_
  split
  next => exact notes_pure rfl
  next => exact notes_failAt t _

/-! ### Lists -/

/-- A list of items notes the mentions of each. -/
theorem notes_moreItems {item : Parser α} {mentions : α → List Mention}
    (each : item.Notes [] mentions) (room : Nat) :
    (moreItems item room).Notes before fun xs => before ++ xs.flatMap mentions := by
  induction room generalizing before with
  | zero => exact notes_pure (by simp)
  | succ room ih =>
    refine (silent_accept _).bind fun more => ?_
    split
    next =>
      refine (each.frame before).bind fun x => Notes.bind ih fun xs => notes_pure ?_
      simp
    next => exact notes_pure (by simp)

theorem notes_listOf {item : Parser α} {mentions : α → List Mention}
    (each : item.Notes [] mentions) :
    (listOf item).Notes before fun xs => before ++ xs.flatMap mentions := by
  refine (each.frame before).bind fun x => ?_
  refine Notes.bind (silent_get.bind fun _ => notes_moreItems each _) fun xs => notes_pure ?_
  simp

theorem silent_listOf {item : Parser α} (each : item.Silent) : (listOf item).Silent := by
  intro ms i j k xs noted h
  have all := notes_listOf (each []) i j k xs noted h
  simpa only [List.flatMap_eq_nil_iff.mpr fun _ _ => rfl, List.append_nil] using all

/-! ### Expressions -/

/-- The same for a reader that is used where a certain token comes next. -/
def NotesAt (t : Token) (p : Parser β) (before : List Mention) (after : β → List Mention) : Prop :=
  ∀ (i j k : Input) (b : β), j.next = t → Noted i before j → p j = .ok b k → Noted i (after b) k

theorem Notes.at {p : Parser β} (h : p.Notes before after) (t : Token) :
    p.NotesAt t before after :=
  fun i j k b _ => h i j k b

theorem notes_peek_bind {q : Token → Parser β} (each : ∀ t, (q t).NotesAt t before after) :
    (peek >>= q).Notes before after := by
  intro i j k b noted h
  obtain ⟨t, j', peeked, h⟩ := bind_ok h
  cases peeked
  exact each _ i j k b rfl noted h

theorem notesAt_subscriptFollows_bind {t : Token} {q : Bool → Parser β}
    (each : ∀ follows, (q follows).NotesAt t before after) :
    (subscriptFollows >>= q).NotesAt t before after := by
  intro i j k b next noted h
  obtain ⟨follows, j', peeked, h⟩ := bind_ok h
  cases peeked
  exact each _ i j k b next noted h

/-- A name that is taken as a field refers to nothing. -/
theorem notesAt_name {t : Token} (named : t.kind = .name) {q : Token → Parser β}
    (made : ∀ u, (q u).Notes [.field u.text] after) : (advance >>= q).NotesAt t [] after := by
  intro i j k b next noted h
  obtain ⟨u, j', read, h⟩ := bind_ok h
  have passed := silent_advance [] i j j' u noted read
  rw [advance_eq] at read
  cases read
  refine made _ i _ k b ⟨passed.plain, ?_⟩ h
  rw [passed.references, References.noteAll_cons,
    References.note_field_of_plain _ (noted.plain.next (next ▸ named)), References.noteAll_nil]

theorem notes_fieldName : fieldName.Notes [] fun name => [.field name] := by
  refine notes_peek_bind fun t => ?_
  split
  next =>
    refine Notes.at (silent_advance.bind fun t => ?_) t
    exact Notes.bind (notes_note (.field t.text)) fun _ => notes_pure rfl
  next named => exact notesAt_name named fun _ => notes_pure rfl
  next => exact Notes.at (notes_failHere _) t

attribute [local simp] Expr.mentions

/-- The reader of an expression notes the mentions of the expression. -/
abbrev NotesMentions (p : Parser Expr) : Prop :=
  p.Notes [] Expr.mentions

theorem notes_moreOperands {operand : Parser Expr} (each : operand.NotesMentions)
    (operator? : Kind → Option BinaryOp) (room : Nat) (left : Expr) :
    (moreOperands operator? operand room left).Notes left.mentions Expr.mentions := by
  induction room generalizing left with
  | zero => exact notes_pure rfl
  | succ room ih =>
    refine silent_peek.bind fun t => ?_
    split
    next => exact notes_pure rfl
    next op _ =>
      refine silent_advance.bind fun _ => (each.frame _).bind fun right => ?_
      simpa using ih (.binary op left right)

theorem notes_chain {operand : Parser Expr} (each : operand.NotesMentions)
    (operator? : Kind → Option BinaryOp) : (chain operator? operand).NotesMentions :=
  Notes.bind each fun left => silent_get.bind fun _ => notes_moreOperands each operator? _ left

theorem notes_relation {operand : Parser Expr} (each : operand.NotesMentions) :
    (relation operand).NotesMentions := by
  refine Notes.bind each fun left => silent_peek.bind fun t => ?_
  split
  next => exact notes_pure rfl
  next op _ =>
    refine silent_advance.bind fun _ => (each.frame _).bind fun right => ?_
    extract_lets single
    have singles : (single ()).Notes (left.mentions ++ right.mentions) Expr.mentions :=
      notes_pure (by simp)
    split
    next =>
      refine (silent_accept _).bind fun ranged => ?_
      split
      next =>
        refine (each.frame _).bind fun upper => notes_pure ?_
        simp
      next => exact singles
    next => exact singles

theorem notes_expression {operand : Parser Expr} (each : operand.NotesMentions) :
    (expression operand).NotesMentions := by
  have bits : Parser.NotesMentions
      (chain bitOperator? (chain sumOperator? (chain productOperator? operand))) :=
    notes_chain (notes_chain (notes_chain each _) _) _
  exact notes_chain (notes_chain (notes_relation bits) _) _

theorem notes_ipv4 : ipv4.NotesMentions := by
  refine silent_advance.bind fun t => (silent_ofOption _ _ _).bind fun address =>
    (silent_accept _).bind fun slash => ?_
  extract_lets finish
  have finishes : ∀ length, (finish length).Notes [] Expr.mentions := by
    intro length
    refine Notes.bind (notes_note (.network (Network.of address length))) fun _ => notes_pure ?_
    simp
  split
  next =>
    refine (silent_expect _ _).bind fun t => (silent_integerOf t).bind fun length => ?_
    split
    next => exact Notes.bind (notes_pure rfl) finishes
    next => exact Notes.bind (notes_failAt t _) finishes
  next => exact Notes.bind (notes_pure rfl) finishes

theorem notes_byteString : byteString.NotesMentions := by
  refine silent_advance.bind fun _ => (silent_listOf silent_byteValue).bind fun values =>
    (silent_expect _ _).bind fun _ => notes_pure ?_
  simp

theorem notes_subscript : subscript.NotesMentions := by
  refine silent_advance.bind fun t => ?_
  extract_lets base finish start
  have finishes : (finish ()).Notes (Mention.ofBase base) Expr.mentions := by
    refine silent_advance.bind fun _ => silent_unsigned.bind fun offset =>
      (silent_expect _ _).bind fun _ => silent_unsigned.bind fun length =>
      (silent_expect _ _).bind fun _ => notes_pure ?_
    simp
  have starts : (start ()).Notes [] Expr.mentions := by
    change (if _ then _ else _ : Parser Expr).Notes [] Expr.mentions
    split
    next layer =>
      refine Notes.bind (notes_note (.protocol base)) fun _ => ?_
      simpa [Mention.ofBase, layer] using finishes
    next whole => simpa [Mention.ofBase, whole] using finishes
  split
  next => exact Notes.bind (notes_failAt t _) fun _ => starts
  next => exact starts

theorem notes_parenthesised {nested : Parser Expr} (each : nested.NotesMentions) :
    (parenthesised nested).NotesMentions := by
  refine silent_advance.bind fun _ => Notes.bind each fun first =>
    (silent_accept _).bind fun more => ?_
  split
  next =>
    refine Notes.bind (notes_listOf each) fun members => (silent_expect _ _).bind fun _ => ?_
    refine notes_pure ?_
    simp [Expr.mentionsOfAll_eq]
  next =>
    refine (silent_expect _ _).bind fun _ => notes_pure ?_
    simp

theorem Silent.notesAt_literal {value : Parser α} (silent : value.Silent) (t : Token)
    {literal : α → Expr} (plain : ∀ a, (literal a).mentions = []) :
    (do let _ ← advance; let a ← value; return literal a : Parser Expr).NotesAt t []
      Expr.mentions := by
  refine Notes.at (silent_advance.bind fun _ => silent.bind fun a => ?_) t
  exact notes_pure (plain a)

theorem notes_primary (now : Int64) {nested : Parser Expr} (each : nested.NotesMentions) :
    (primary now nested).NotesMentions := by
  refine notes_peek_bind fun t => ?_
  split
  next => exact (silent_integerOf t).notesAt_literal t fun _ => by simp
  next => exact (silent_ofOption t _ _).notesAt_literal t fun _ => by simp
  next => exact Notes.at (silent_advance.bind fun _ => notes_pure (by simp)) t
  next => exact Notes.at (silent_advance.bind fun _ => notes_pure (by simp)) t
  next => exact Notes.at (silent_advance.bind fun _ => notes_pure (by simp)) t
  next => exact (silent_ofOption t _ _).notesAt_literal t fun _ => by simp
  next => exact (silent_ofOption t _ _).notesAt_literal t fun _ => by simp
  next => exact (silent_ofOption t _ _).notesAt_literal t fun _ => by simp
  next => exact notes_ipv4.at t
  next => exact (silent_ofOption t _ _).notesAt_literal t fun _ => by simp
  next => exact notes_byteString.at t
  next =>
    refine Notes.at (silent_advance.bind fun _ => ?_) t
    refine Notes.bind (notes_note (.field t.text)) fun _ => notes_pure ?_
    simp
  next named =>
    refine notesAt_subscriptFollows_bind fun follows => ?_
    split
    next => exact notes_subscript.at t
    next => exact notesAt_name named fun _ => notes_pure (by simp)
  next =>
    refine notesAt_subscriptFollows_bind fun follows => ?_
    split
    next => exact notes_subscript.at t
    next =>
      refine Notes.at (silent_advance.bind fun _ => ?_) t
      refine Notes.bind (notes_protocol t.text) fun _ => notes_pure ?_
      simp
  next => exact (notes_parenthesised each).at t
  next =>
    refine Notes.at ((silent_nowCall now).bind fun _ => ?_) t
    exact notes_pure (by simp)
  next => exact Notes.at (silent_advance.bind fun _ => notes_pure (by simp)) t
  next => exact Notes.at (notes_failHere _) t

theorem notes_unary (now : Int64) (room : Nat) : (unary now room).NotesMentions := by
  induction room with
  | zero => exact notes_failHere _
  | succ room ih =>
    refine silent_peek.bind fun t => ?_
    split
    next op _ =>
      refine silent_advance.bind fun _ => Notes.bind ih fun operand => notes_pure ?_
      simp
    next => exact notes_primary now (notes_expression ih)

theorem notes_expr (now : Int64) : (expr now).NotesMentions :=
  notes_expression (notes_unary now maxNesting)

/-! ### Statements -/

theorem notes_argument : argument.Notes [] fun name? => name?.toList.map .field := by
  refine silent_peek.bind fun t => ?_
  split
  next => exact notes_pure rfl
  next => exact silent_advance.bind fun _ => notes_pure rfl
  next => exact Notes.bind notes_fieldName fun _ => notes_pure rfl

theorem notes_item : item.Notes [] Item.mentions := by
  refine silent_peek.bind fun t => ?_
  split
  next => exact Notes.bind notes_fieldName fun _ => notes_pure rfl
  next function _ =>
    refine silent_advance.bind fun _ => (silent_expect _ _).bind fun _ =>
      Notes.bind notes_argument fun name? => (silent_expect _ _).bind fun _ =>
      (silent_accept _).bind fun labelled => ?_
    split
    next => exact (silent_expectWhere _ _).bind fun _ => notes_pure rfl
    next => exact notes_pure rfl

theorem notes_projection : projection.Notes [] Projection.mentions := by
  refine (silent_accept _).bind fun all => ?_
  split
  next => exact notes_pure rfl
  next => exact Notes.bind (notes_listOf notes_item) fun _ => notes_pure rfl

theorem notes_clause {content : Parser α} {mentions : α → List Mention}
    (h : content.Notes [] mentions) (word : Keyword) (before : List Mention) :
    (clause word content).Notes before fun a? => before ++ (a?.map mentions).getD [] := by
  refine (silent_accept _).bind fun present => ?_
  split
  next => exact Notes.bind (h.frame before) fun _ => notes_pure rfl
  next => exact notes_pure (by simp)

theorem silent_clause {content : Parser α} (h : content.Silent) (word : Keyword) :
    (clause word content).Silent := by
  intro ms
  refine (silent_accept _).bind fun present => ?_
  split
  next => exact h.bind fun _ => notes_pure rfl
  next => exact notes_pure rfl

theorem notes_fieldNames : (listOf fieldName).Notes [] fun names => names.map .field := by
  intro i j k names noted h
  have all : Noted i (names.flatMap fun name => [Mention.field name]) k :=
    notes_listOf notes_fieldName i j k names noted h
  rwa [← List.map_eq_flatMap] at all

theorem notes_fieldClause (word : Keyword) (before : List Mention) :
    (clause word (listOf fieldName)).Notes before
      fun names? => before ++ (names?.getD []).map .field := by
  intro i j k names? noted h
  have all := notes_clause notes_fieldNames word before i j k names? noted h
  cases names? <;> exact all

/-- A statement keeps what its mentions leave. -/
theorem statement_noted {now : Int64} {i j : Input} {s : Statement} (plain : i.IsPlain)
    (h : statement now i = .ok s j) :
    Noted i s.mentions j ∧ s.protocols = j.references.protocols ∧
      s.networks = j.references.networks := by
  obtain ⟨_, i₁, select, h⟩ := bind_ok h
  obtain ⟨distinct, i₂, readDistinct, h⟩ := bind_ok h
  obtain ⟨projection, i₃, readProjection, h⟩ := bind_ok h
  obtain ⟨_, i₄, from_, h⟩ := bind_ok h
  obtain ⟨sources, i₅, readSources, h⟩ := bind_ok h
  obtain ⟨filter, i₆, readFilter, h⟩ := bind_ok h
  obtain ⟨groupBy, i₇, readGroupBy, h⟩ := bind_ok h
  obtain ⟨orderBy, i₈, readOrderBy, h⟩ := bind_ok h
  obtain ⟨interval, i₉, readInterval, h⟩ := bind_ok h
  obtain ⟨top, i₁₀, readTop, h⟩ := bind_ok h
  obtain ⟨limit, i₁₁, readLimit, h⟩ := bind_ok h
  obtain ⟨_, i₁₂, semicolon, h⟩ := bind_ok h
  obtain ⟨_, i₁₃, stop, h⟩ := bind_ok h
  obtain ⟨input, i₁₄, get, h⟩ := bind_ok h
  cases get
  cases h
  -- Each step adds what its clause mentions to what was noted before.
  have noted := silent_expect _ _ _ _ _ _ _ (.refl plain) select
  have noted := silent_accept _ _ _ _ _ _ noted readDistinct
  have noted := notes_projection _ _ _ _ noted readProjection
  have noted := silent_expect _ _ _ _ _ _ _ noted from_
  have noted := silent_listOf silent_source _ _ _ _ _ noted readSources
  have noted := notes_clause (notes_expr now) _ _ _ _ _ _ noted readFilter
  have noted := notes_fieldClause _ _ _ _ _ _ noted readGroupBy
  have noted := notes_fieldClause _ _ _ _ _ _ noted readOrderBy
  have noted := silent_clause (silent_intervalBounds now) _ _ _ _ _ _ noted readInterval
  have noted := silent_clause silent_unsigned _ _ _ _ _ _ noted readTop
  have noted := silent_clause silent_limitBounds _ _ _ _ _ _ noted readLimit
  have noted := silent_accept _ _ _ _ _ _ noted semicolon
  have noted := silent_expect _ _ _ _ _ _ _ noted stop
  exact ⟨noted, rfl, rfl⟩

end Parser

theorem plain_ofTokens {ts : List Token} (plain : ∀ t ∈ ts, t.IsPlain) :
    (Input.ofTokens ts).IsPlain := by
  refine ⟨?_, fun t member => plain t ((List.dropLast_sublist ts).subset member)⟩
  cases last : ts.getLast? with
  | none => simp [Input.ofTokens, last, Token.IsPlain]
  | some t => simpa [Input.ofTokens, last] using plain t (List.mem_of_getLast? last)

/-- The protocols and networks of an accepted text are those that its mentions leave. -/
theorem parse_references {now : Int64} {text : String} {s : Statement}
    (h : (parse now text).1 = .ok s) :
    s.protocols = (References.noteAll {} s.mentions).protocols ∧
      s.networks = (References.noteAll {} s.mentions).networks := by
  have plain := plain_ofTokens (plain_compose (tokens text) (plain_tokens text))
  unfold parse at h
  split at h
  next s' j read =>
    cases h
    obtain ⟨noted, protocols, networks⟩ := Parser.statement_noted plain read
    have references : j.references = References.noteAll {} s.mentions := noted.references
    rw [protocols, networks, references]
    exact ⟨rfl, rfl⟩
  next => cases h

end PacketQuery.Language
