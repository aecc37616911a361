import PacketQuery.Proofs.Language.Acceptance
import PacketQuery.Proofs.Language.Endings
import PacketQuery.Proofs.Language.Harvest
/-!
The statements that are read are those that the grammar derives, with operands at a bounded depth;
and what is read is what is derived, with the protocols and networks that it mentions.
-/

namespace PacketQuery.Language

namespace Parser

open Phrase

variable {α β : Type} {stop : Token} {ts us rest : List Token}

/-! ### Columns -/

theorem passes_argument {name? : Option String} (h : Argument ts name?)
    (last : following stop rest = .symbol .rightParen) : Passes stop argument ts name? rest := by
  cases h with
  | plain plain =>
    cases plain with
    | none =>
      refine passes_peek_left ?_
      rw [following] at last
      rw [last]
      exact passes_pure none
    | field named =>
      obtain ⟨kind⟩ := id named
      refine passes_peek ?_
      rcases kind with kind | kind <;> rw [kind] <;>
        exact (passes_fieldName named).bind_nil (passes_pure _)
  | star kind =>
    refine passes_peek ?_
    rw [kind]
    exact (passes_advance _).bind (passes_pure none)

theorem passes_item : Completes stop item (Column Argument) (· ≠ .keyword .as_) := by
  intro ts column h rest last
  cases h with
  | field named =>
    obtain ⟨kind⟩ := id named
    refine passes_peek ?_
    rcases kind with kind | kind <;> rw [kind] <;>
      exact (passes_fieldName named).bind_nil (passes_pure _)
  | @bare word function opening us name? closing aggregate opens argument closes =>
    have next : following stop ([closing] ++ rest) = .symbol .rightParen := closes
    refine passes_peek ?_
    rw [aggregate]
    refine (passes_advance word).bind ((passes_expect opens).bind
      ((passes_argument argument next).bind ((passes_expect closes).bind ?_)))
    exact (passes_accept_other last).bind_nil (passes_pure _)
  | @labelled word function opening us name? closing as_ label aggregate opens argument closes kind
      labels =>
    have next : following stop ([closing, as_, label] ++ rest) = .symbol .rightParen := closes
    refine passes_peek ?_
    rw [aggregate]
    exact (passes_advance word).bind ((passes_expect opens).bind
      ((passes_argument argument next).bind ((passes_expect closes).bind
        ((passes_accept kind).bind ((passes_expectWhere labels).bind (passes_pure _))))))

theorem column_starts {column : Item} (h : Column Argument ts column) :
    ∃ t us, ts = t :: us ∧ (∀ mark, t.kind ≠ .symbol mark) ∧ t.kind ≠ .keyword .distinct := by
  have called : ∀ {t : Token} {function : Aggregate}, aggregateOf? t.kind = some function →
      (∀ mark, t.kind ≠ .symbol mark) ∧ t.kind ≠ .keyword .distinct := by
    intro t function aggregate
    refine ⟨fun mark same => ?_, fun same => ?_⟩ <;> rw [same] at aggregate <;> cases aggregate
  cases h with
  | field named =>
    obtain ⟨kind⟩ := named
    rcases kind with kind | kind <;> exact ⟨_, _, rfl, by simp [kind], by simp [kind]⟩
  | bare aggregate => exact ⟨_, _, rfl, called aggregate⟩
  | labelled aggregate => exact ⟨_, _, rfl, called aggregate⟩

theorem columns_start {projection : Projection} (h : Columns Argument ts projection) :
    ∃ t us, ts = t :: us ∧ t.kind ≠ .keyword .distinct := by
  cases h with
  | wildcard kind => exact ⟨_, _, rfl, by simp [kind]⟩
  | items listed =>
    cases listed with
    | one first =>
      obtain ⟨t, us, rfl, _, distinct⟩ := column_starts first
      exact ⟨t, us, rfl, distinct⟩
    | more first =>
      obtain ⟨t, us, rfl, _, distinct⟩ := column_starts first
      exact ⟨t, _, rfl, distinct⟩

theorem passes_projection {projection : Projection} (h : Columns Argument ts projection)
    (last : following stop rest = .keyword .from_) :
    Passes stop Parser.projection ts projection rest := by
  cases h with
  | wildcard kind => exact (passes_accept kind).bind (passes_pure _)
  | items listed =>
    have star : following stop (ts ++ rest) ≠ .symbol .star := by
      cases listed with
      | one first =>
        obtain ⟨t, us, rfl, mark, _⟩ := column_starts first
        exact mark .star
      | more first =>
        obtain ⟨t, us, rfl, mark, _⟩ := column_starts first
        exact mark .star
    have comma : following stop rest ≠ .symbol .comma := by simp [last]
    have as_ : following stop rest ≠ .keyword .as_ := by simp [last]
    have items := passes_listOf passes_item (by decide) listed comma as_
    have none : Passes stop (accept (.symbol .star)) [] false (ts ++ rest) :=
      passes_accept_other star
    exact none.bind (items.bind_nil (passes_pure _))

/-! ### Clauses up to the end -/

theorem passes_mark {kind : Kind} {b : Bool} (h : Mark kind ts b)
    (absent : following stop rest ≠ kind) : Passes stop (accept kind) ts b rest := by
  cases h with
  | absent => exact passes_accept_other absent
  | present same => exact passes_accept same

theorem following_mark {kind : Kind} {b : Bool} {kinds : List Kind} (h : Mark kind ts b)
    (last : following stop rest ∈ kinds) : following stop (ts ++ rest) ∈ kind :: kinds := by
  cases h with
  | absent => exact List.mem_cons_of_mem _ last
  | @present t same =>
    have first : following stop ([t] ++ rest) = kind := same
    rw [first]
    exact List.mem_cons_self

section Clause

variable {content : Parser α} {phrase : Phrase α} {word : Keyword} {a? : Option α}
  {kinds : List Kind} (h : Clause word phrase ts a?) (last : following stop rest ∈ kinds)
include h last

theorem following_clause : following stop (ts ++ rest) ∈ .keyword word :: kinds := by
  cases h with
  | absent => exact List.mem_cons_of_mem _ last
  | @present t us a kind written =>
    have first : following stop (t :: us ++ rest) = .keyword word := kind
    rw [first]
    exact List.mem_cons_self

/-- A clause that may be left out is told from those after it by its keyword. -/
theorem passes_clause {ends : Kind → Prop} (inner : Completes stop content phrase ends)
    (each : ∀ kind ∈ kinds, ends kind) (new : .keyword word ∉ kinds) :
    Passes stop (clause word content) ts a? rest := by
  cases h with
  | absent =>
    have other : following stop rest ≠ .keyword word := ne_of_mem_of_not_mem last new
    exact (passes_accept_other other).bind_nil (passes_pure none)
  | present kind written =>
    exact (passes_accept kind).bind ((inner written (each _ last)).bind_nil (passes_pure _))

end Clause

/-- The reader takes all the tokens and returns a value with the property. -/
def Ends (stop : Token) (p : Parser α) (ts : List Token) (property : α → Prop) : Prop :=
  ∀ r, ∃ a r', p ⟨ts, stop, r⟩ = .ok a ⟨[], stop, r'⟩ ∧ property a

theorem Passes.ends {p : Parser α} {q : α → Parser β} {a : α} {property : β → Prop}
    (first : Passes stop p ts a us) (second : Ends stop (q a) us property) :
    Ends stop (p >>= q) (ts ++ us) property := by
  intro r
  obtain ⟨r₁, read⟩ := first r
  obtain ⟨b, r₂, read', holds⟩ := second r₁
  refine ⟨b, r₂, ?_, holds⟩
  change EStateM.bind p q _ = _
  rw [EStateM.bind, read]
  exact read'

theorem passes_stop {fault : Fault} (ended : stop.kind = .stop) :
    Passes stop (expect .stop fault) [] stop [] := by
  refine passes_peek_left ?_
  rw [if_pos (show (([] : List Token).head?.getD stop).kind = .stop from ended)]
  exact fun r => ⟨r, rfl⟩

/-- Every clause ends at a keyword of a later clause, at a semicolon or at the end. -/
theorem statement_ends {now : Int64} {d : Statement} (ended : stop.kind = .stop)
    (h : Sentence Argument now ts d) (fits : ∀ e, d.filter = some e → e.nesting < maxNesting) :
    Ends stop (statement now) ts (·.bare = d) := by
  cases h with
  | @mk select distinct? columns from_ names where_ groups orders span top_ limit_ finish _ _ _ _ _
      _ _ _ _ _ selects distinct_ columns_ froms sources filter groupBy orderBy interval top limit
      closed =>
    rw [← List.append_nil finish]
    have after : following stop [] ∈ [Kind.stop] := List.mem_singleton.mpr ended
    have afterLimit := following_mark closed after
    have afterTop := following_clause limit afterLimit
    have afterInterval := following_clause top afterTop
    have afterOrderBy := following_clause interval afterInterval
    have afterGroupBy := following_clause orderBy afterOrderBy
    have afterWhere := following_clause groupBy afterGroupBy
    have afterSources := following_clause filter afterWhere
    have undistinct : following stop (columns ++ from_ :: (names ++ (where_ ++ (groups ++ (orders
        ++ (span ++ (top_ ++ (limit_ ++ (finish ++ []))))))))) ≠ .keyword .distinct := by
      obtain ⟨t, us, rfl, ne⟩ := columns_start columns_
      exact ne
    have fieldNames : Completes stop (listOf fieldName) (Listed FieldName) (· ≠ .symbol .comma) :=
      completes_listOf fun _ _ named _ _ => passes_fieldName named
    have bounds : Completes stop (intervalBounds now) (Interval now) fun _ => True :=
      fun _ _ bounds _ _ => passes_intervalBounds bounds
    have number : Completes stop unsigned Unsigned fun _ => True :=
      fun _ _ number _ _ => passes_unsigned number
    have limits : Completes stop limitBounds Limit (· ≠ .symbol .comma) :=
      fun _ _ bounds _ last => passes_limitBounds bounds last
    have readSources := completes_listOf (fun _ _ named _ _ => passes_source named) sources
      (ne_of_mem_of_not_mem afterSources (by decide))
    have readFilter := passes_clause (clause_fits_iff.mpr ⟨filter, fits⟩) afterWhere
      (completes_expr ended) (by decide) (by decide)
    have readGroupBy := passes_clause groupBy afterGroupBy fieldNames (by decide) (by decide)
    have readOrderBy := passes_clause orderBy afterOrderBy fieldNames (by decide) (by decide)
    have readInterval := passes_clause interval afterInterval bounds (by decide) (by decide)
    have readTop := passes_clause top afterTop number (by decide) (by decide)
    have readLimit := passes_clause limit afterLimit limits (by decide) (by decide)
    have readFinish := passes_mark closed (ne_of_mem_of_not_mem after (by decide))
    refine (passes_expect selects).ends ((passes_mark distinct_ undistinct).ends
      ((passes_projection columns_ ?_).ends ((passes_expect ?_).ends (readSources.ends
      (readFilter.ends (readGroupBy.ends (readOrderBy.ends (readInterval.ends (readTop.ends
      (readLimit.ends (readFinish.ends ((passes_stop ended).ends ?_))))))))))))
    · exact froms
    · exact froms
    · exact fun r => ⟨_, r, rfl, rfl⟩

end Parser

/-- The statement with the protocols and networks that its parts mention. -/
def Statement.referring (s : Statement) : Statement :=
  { s with
    protocols := (References.noteAll {} s.mentions).protocols
    networks := (References.noteAll {} s.mentions).networks }

/-- A statement that is read from plain tokens has the references of its own parts. -/
theorem referring_bare {now : Int64} {ts : List Token} {stop : Token} {s : Statement} {j : Input}
    (ended : stop.kind = .stop) (plain : ∀ t ∈ ts, t.IsPlain)
    (accepted : Parser.statement now ⟨ts, stop, {}⟩ = .ok s j) : s = s.bare.referring := by
  have endPlain : stop.IsPlain := by
    intro named
    cases named.symm.trans ended
  obtain ⟨noted, protocols, networks⟩ := Parser.statement_noted ⟨endPlain, plain⟩ accepted
  have references : j.references = References.noteAll {} s.mentions := noted.references
  rw [references] at protocols networks
  have mentions : s.bare.mentions = s.mentions := rfl
  rw [Statement.referring, mentions, ← protocols, ← networks]
  rfl

open Phrase in
/-- What is accepted is what the grammar derives with every operand under less than the greatest
number of parentheses and prefix operators. -/
theorem accepts_iff_derivable {now : Int64} {ts : List Token} {stop : Token}
    (ended : stop.kind = .stop) (clear : ∀ t ∈ ts, t.kind ≠ .stop) :
    (∀ d, (∃ s j, Parser.statement now (Input.ofTokens (ts ++ [stop])) = .ok s j ∧ s.bare = d) ↔
        Sentence Argument now ts d ∧ ∀ e, d.filter = some e → e.nesting ≤ 63) ∧
      ((∀ t ∈ ts, t.IsPlain) → ∀ s j,
        Parser.statement now (Input.ofTokens (ts ++ [stop])) = .ok s j → s = s.bare.referring) := by
  have input : Input.ofTokens (ts ++ [stop]) = ⟨ts, stop, {}⟩ := by
    simp [Input.ofTokens]
  rw [input]
  refine ⟨fun d => ⟨?_, ?_⟩, ?_⟩
  · rintro ⟨s, j, accepted, rfl⟩
    obtain ⟨sentence, shallow⟩ := Parser.statement_derived ended clear accepted
    exact ⟨sentence, fun e filter => Nat.le_of_lt_succ (shallow e filter)⟩
  · rintro ⟨sentence, shallow⟩
    obtain ⟨s, r, accepted, same⟩ := Parser.statement_ends ended sentence
      (fun e filter => Nat.lt_succ_of_le (shallow e filter)) {}
    exact ⟨s, _, accepted, same⟩
  · exact fun plain s j accepted => referring_bare ended plain accepted

open Phrase in
/-- A text is read as a statement exactly if the grammar derives the statement from its tokens, with
every operand under less than the greatest number of parentheses and prefix operators. -/
theorem parse_eq_ok_iff {now : Int64} {text : String} {s : Statement} :
    (parse now text).1 = .ok s ↔ ∃ ts stop d, compose (tokens text) = ts ++ [stop] ∧
      Sentence Argument now ts d ∧ (∀ e, d.filter = some e → e.nesting ≤ 63) ∧
      s = d.referring := by
  obtain ⟨us, stop, composed, ended, clear⟩ :=
    (endsOnce_compose (endsOnce_tokens text)).exists_append
  have plain : ∀ t ∈ us, t.IsPlain := by
    intro t member
    refine plain_compose (tokens text) (plain_tokens text) t ?_
    rw [composed]
    exact List.mem_append_left _ member
  have read : (parse now text).1 = .ok s ↔
      ∃ j, Parser.statement now ⟨us, stop, {}⟩ = .ok s j := by
    have input : Input.ofTokens (us ++ [stop]) = ⟨us, stop, {}⟩ := by
      simp [Input.ofTokens]
    rw [parse, composed, input]
    cases Parser.statement now ⟨us, stop, {}⟩ <;> simp
  rw [read]
  constructor
  · rintro ⟨j, accepted⟩
    obtain ⟨sentence, shallow⟩ := Parser.statement_derived ended clear accepted
    exact ⟨us, stop, s.bare, composed, sentence,
      fun e filter => Nat.le_of_lt_succ (shallow e filter), referring_bare ended plain accepted⟩
  · rintro ⟨ts, stop', d, same, sentence, shallow, rfl⟩
    obtain ⟨rfl, sameStop⟩ := List.append_inj' (composed.symm.trans same) rfl
    obtain ⟨s, r, accepted, rfl⟩ := Parser.statement_ends ended sentence
      (fun e filter => Nat.lt_succ_of_le (shallow e filter)) {}
    rw [← referring_bare ended plain accepted]
    exact ⟨_, accepted⟩

def countText : String := "select count(*) from a where udp and ip.ttl > 3"

def countTokens : List Token :=
  [⟨.keyword .select, "select", 1, 1⟩, ⟨.keyword .count, "count", 1, 8⟩,
    ⟨.symbol .leftParen, "(", 1, 13⟩, ⟨.symbol .star, "*", 1, 14⟩,
    ⟨.symbol .rightParen, ")", 1, 15⟩, ⟨.keyword .from_, "from", 1, 17⟩, ⟨.name, "a", 1, 22⟩,
    ⟨.keyword .where_, "where", 1, 24⟩, ⟨.constant, "udp", 1, 30⟩, ⟨.keyword .and_, "and", 1, 34⟩,
    ⟨.field, "ip.ttl", 1, 38⟩, ⟨.symbol .greater, ">", 1, 45⟩, ⟨.integer, "3", 1, 47⟩]

def countEnd : Token := ⟨.stop, "", 1, 48⟩

def countStatement : Statement where
  distinct := false
  projection := .items [.aggregate .count none "count()"]
  sources := ["a"]
  filter := some (.binary .and (.protocol "UDP")
    (.binary .greater (.field "ip.ttl") (.integer 3)))
  groupBy := []
  orderBy := []
  protocols := ["IP", "UDP"]
  networks := {}
  top := none
  limit := none
  interval := none

theorem tokens_countText : compose (tokens countText) = countTokens ++ [countEnd] := by
  decide +kernel

theorem plain_countTokens : ∀ t ∈ countTokens, t.IsPlain := by
  unfold Token.IsPlain
  decide

open Phrase in
theorem count_sentence : Sentence Argument 0 countTokens countStatement.bare := by
  have bits : ∀ {t : Token} {e : Expr}, Leaf 0 [t] e → Derives 0 .bits [t] e :=
    fun leaf => .lift rfl (.lift rfl (.lift rfl (.leaf leaf)))
  have udp : Derives 0 .conjunction [⟨.constant, "udp", 1, 30⟩] (.protocol "UDP") :=
    .lift rfl (.lift rfl (bits (.protocol rfl)))
  have ttl : Derives 0 .bits [⟨.field, "ip.ttl", 1, 38⟩] (.field "ip.ttl") :=
    bits (.field (.inl rfl))
  have three : Derives 0 .bits [⟨.integer, "3", 1, 47⟩] (.integer 3) := bits (.integer rfl rfl)
  have above := @Derives.relation 0 _ _ ⟨.symbol .greater, ">", 1, 45⟩ _ _ _ ttl rfl three
  have both := @Derives.binary 0 .conjunction _ _ _ ⟨.keyword .and_, "and", 1, 34⟩ _ _ _ rfl udp rfl
    above
  have count := @Column.bare Argument ⟨.keyword .count, "count", 1, 8⟩ _
    ⟨.symbol .leftParen, "(", 1, 13⟩ _ _ ⟨.symbol .rightParen, ")", 1, 15⟩ rfl rfl
    (@Argument.star ⟨.symbol .star, "*", 1, 14⟩ rfl) rfl
  exact @Sentence.mk Argument 0 ⟨.keyword .select, "select", 1, 1⟩ [] _
    ⟨.keyword .from_, "from", 1, 17⟩ _ (⟨.keyword .where_, "where", 1, 24⟩ :: _) [] [] [] [] [] [] _
    _ _ _ _ _ _ _ _ _ rfl
    .absent (.items (.one count)) rfl (.one (@SourceName.mk ⟨.name, "a", 1, 22⟩ rfl))
    (.present rfl (.lift rfl both)) .absent .absent .absent .absent .absent .absent

theorem count_accepted : ∃ j,
    Parser.statement 0 (Input.ofTokens (countTokens ++ [countEnd])) = .ok countStatement j := by
  have ended : countEnd.kind = .stop := rfl
  have flat : ∀ e, countStatement.bare.filter = some e → e.nesting < Parser.maxNesting := by
    rintro _ ⟨⟩
    decide
  obtain ⟨s, _, accepted, same⟩ := Parser.statement_ends ended count_sentence flat {}
  have whole := referring_bare ended plain_countTokens accepted
  have referring : countStatement.bare.referring = countStatement := rfl
  rw [same, referring] at whole
  subst whole
  exact ⟨_, accepted⟩

theorem count_derivable : (∀ t ∈ countTokens, t.kind ≠ .stop) ∧
    Phrase.Sentence Phrase.Argument 0 countTokens countStatement.bare ∧
    countStatement = countStatement.bare.referring := by
  have clear : ∀ t ∈ countTokens, t.kind ≠ .stop := by decide
  have both := @accepts_iff_derivable 0 countTokens countEnd rfl clear
  obtain ⟨j, accepted⟩ := count_accepted
  exact ⟨clear, ((both.1 _).mp ⟨_, j, accepted, rfl⟩).1, both.2 plain_countTokens _ j accepted⟩

section Call

open Phrase

variable {ts us vs : List Token} {t u v : Token} {function : Aggregate}
  (call : Parser.aggregateOf? t.kind = some function)
include call

theorem third_of_column {column : Item} (h : Column PlainArgument ts column)
    (written : ts ++ us = t :: u :: v :: vs) : v.kind ≠ .symbol .star := by
  have third : ∀ {xs ys : List Token} {name? : Option String}, PlainArgument xs name? →
      ∀ {closing : Token}, closing.kind = .symbol .rightParen →
      xs ++ closing :: ys = v :: vs → v.kind ≠ .symbol .star := by
    intro xs ys name? argument closing closes same
    cases argument with
    | none =>
      cases same
      simp [closes]
    | field named =>
      obtain ⟨kind⟩ := named
      cases same
      rcases kind with kind | kind <;> simp [kind]
  cases h with
  | field named =>
    obtain ⟨kind⟩ := named
    cases written
    rcases kind with kind | kind <;> rw [kind] at call <;> cases call
  | bare _ _ argument closes =>
    simp only [List.cons_append, List.append_assoc, List.cons.injEq] at written
    exact third argument closes written.2.2
  | labelled _ _ argument closes =>
    simp only [List.cons_append, List.append_assoc, List.cons.injEq] at written
    exact third argument closes written.2.2

theorem third_of_columns {projection : Projection} (h : Columns PlainArgument ts projection)
    (written : ts ++ us = t :: u :: v :: vs) : v.kind ≠ .symbol .star := by
  cases h with
  | wildcard kind =>
    cases written
    rw [kind] at call
    cases call
  | items listed =>
    cases listed with
    | one first => exact third_of_column call first written
    | more first =>
      rw [List.append_assoc] at written
      exact third_of_column call first written

end Call

/-- No field stands between the parentheses, and nothing else may. -/
theorem count_not_derivable : compose (tokens countText) = countTokens ++ [countEnd] ∧
    ¬ ∀ d, (∃ s j, Parser.statement 0 (Input.ofTokens (countTokens ++ [countEnd])) = .ok s j ∧
        s.bare = d) ↔
      Phrase.Sentence Phrase.PlainArgument 0 countTokens d ∧
        ∀ e, d.filter = some e → e.nesting ≤ 63 := by
  refine ⟨tokens_countText, fun same => ?_⟩
  obtain ⟨j, accepted⟩ := count_accepted
  have sentence := ((same countStatement.bare).mp ⟨_, j, accepted, rfl⟩).1
  generalize written : countTokens = ts at sentence
  generalize countStatement.bare = d at sentence
  obtain ⟨_, distinct_, columns⟩ := sentence
  rw [countTokens] at written
  injection written with _ written
  cases distinct_ with
  | absent => exact third_of_columns rfl columns written.symm rfl
  | present kind =>
    injection written with first
    subst first
    cases kind

end PacketQuery.Language
