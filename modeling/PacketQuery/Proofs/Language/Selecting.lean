import PacketQuery.Proofs.Language.Fusing
import PacketQuery.Proofs.Language.Sentences
/-!
Statements that select everything from one source under a condition. What stands before the
condition is divided, left unfused and read in one way; the rest up to the end is one expression.
-/

namespace PacketQuery.Language

/-- A statement up to its condition. -/
def selecting : String :=
  "select * from a where "

/-- What it is divided into. -/
def selectingWords : List (Kind × String) :=
  [(.keyword .select, "select"), (.symbol .star, "*"), (.keyword .from_, "from"), (.name, "a"),
    (.keyword .where_, "where")]

/-- The statement with a condition, apart from what it refers to. -/
def selection (condition : Expr) : Statement where
  distinct := false
  projection := .wildcard
  sources := ["a"]
  filter := some condition
  groupBy := []
  orderBy := []
  protocols := []
  networks := {}
  top := none
  limit := none
  interval := none

theorem lexes_selecting {cs : List Char} {xs : List (Kind × String)}
    (after : Lexes (some ' ') cs xs) : Lexes none (selecting.toList ++ cs)
      (selectingWords ++ xs) := by
  have select : Spelled "select" (.keyword .select) :=
    ⟨⟨'s', rfl, rfl⟩, rfl, by decide +kernel, by decide +kernel⟩
  have from_ : Spelled "from" (.keyword .from_) :=
    ⟨⟨'f', rfl, rfl⟩, rfl, by decide +kernel, by decide +kernel⟩
  have a : Spelled "a" .name := ⟨⟨'a', rfl, rfl⟩, rfl, by decide +kernel, by decide +kernel⟩
  have where_ : Spelled "where" (.keyword .where_) :=
    ⟨⟨'w', rfl, rfl⟩, rfl, by decide +kernel, by decide +kernel⟩
  have space : ∀ {tail : List Char}, ∀ d ∈ (' ' :: tail).head?, Text.isWordChar d = false := by
    rintro tail d ⟨⟩
    rfl
  have whereBefore := fun q => @Lexes.spelled q _ _ _ _ where_ space fun q => .blank after
  have source := fun q => @Lexes.spelled q _ _ _ _ a space fun q => .blank (whereBefore _)
  have fromBefore := fun q => @Lexes.spelled q _ _ _ _ from_ space fun q => .blank (source _)
  have star := fun q => @Lexes.mark q '*' _ _ _ "*" rfl (by decide) (fun _ _ => rfl) rfl
    (.blank (fromBefore _))
  have chars : selecting.toList ++ cs = "select".toList ++ ' ' :: '*' :: ' ' :: ("from".toList
      ++ ' ' :: ("a".toList ++ ' ' :: ("where".toList ++ ' ' :: cs))) :=
    rfl
  rw [chars]
  exact .spelled select space fun q => .blank (star _)

/-- The tokens before the condition, by what they are. -/
theorem exists_front {front : List Token} (words : front.map Token.unplaced = selectingWords) :
    ∃ select star from_ a where_, front = [select, star, from_, a, where_] ∧
      select.kind = .keyword .select ∧ star.kind = .symbol .star ∧ from_.kind = .keyword .from_ ∧
      a.kind = .name ∧ a.text = "a" ∧ where_.kind = .keyword .where_ := by
  simp only [selectingWords, List.map_eq_cons_iff, List.map_eq_nil_iff, Token.unplaced,
    Prod.mk.injEq] at words
  obtain ⟨select, _, rfl, ⟨select', _⟩, star, _, rfl, ⟨star', _⟩, from_, _, rfl, ⟨from', _⟩, a,
    _, rfl, ⟨a', named⟩, where_, _, rfl, ⟨where', _⟩, rfl⟩ := words
  exact ⟨select, star, from_, a, where_, rfl, select', star', from', a', named, where'⟩

theorem compose_of_apart {t : Token} {ts : List Token} (apart : Literal.Apart t ts) :
    compose (t :: ts) = t :: compose ts := by
  rw [compose, Literal.first?_of_apart apart]

/-- Nothing before the condition is fused. -/
theorem compose_selecting {front back : List Token}
    (words : front.map Token.unplaced = selectingWords) :
    compose (front ++ back) = front ++ compose back := by
  obtain ⟨select, star, from_, a, where_, rfl, select', star', from', -, -, where'⟩ :=
    exists_front words
  have named : Literal.Apart a (where_ :: back) := by
    refine .inr ?_
    rintro _ ⟨⟩
    simp [where']
  simp only [List.cons_append, List.nil_append]
  rw [compose_of_apart (.inl (by simp [select'])), compose_of_apart (.inl (by simp [star'])),
    compose_of_apart (.inl (by simp [from'])), compose_of_apart named,
    compose_of_apart (.inl (by simp [where']))]

/-! ### One expression up to the end -/

/-- The token begins no clause and ends no statement. -/
def Token.IsInside (t : Token) : Prop :=
  (∀ word, t.kind ≠ .keyword word) ∧ t.kind ≠ .symbol .semicolon

namespace Phrase

variable {α : Type} {ts : List Token}

theorem Clause.eq_nil {word : Keyword} {content : Phrase α} {a? : Option α}
    (h : Clause word content ts a?) (others : ∀ t ∈ ts, t.kind ≠ .keyword word) :
    ts = [] ∧ a? = none := by
  cases h with
  | absent => exact ⟨rfl, rfl⟩
  | present kind => exact absurd kind (others _ List.mem_cons_self)

theorem Mark.eq_nil {kind : Kind} {b : Bool} (h : Mark kind ts b)
    (others : ∀ t ∈ ts, t.kind ≠ kind) : ts = [] ∧ b = false := by
  cases h with
  | absent => exact ⟨rfl, rfl⟩
  | present same => exact absurd same (others _ List.mem_cons_self)

theorem columns_of_star {columns rest us : List Token} {star : Token} {projection : Projection}
    (h : Columns Argument columns projection) (mark : star.kind = .symbol .star)
    (written : columns ++ rest = star :: us) : projection = .wildcard ∧ rest = us := by
  have named : ∀ {ts vs : List Token} {column : Item}, Column Argument ts column →
      ts ++ vs ≠ star :: us := by
    intro ts vs column first same
    obtain ⟨t, more, rfl, other, -⟩ := Parser.column_starts first
    injection same with head
    exact other .star (head ▸ mark)
  cases h with
  | wildcard =>
    injection written with _ rest
    exact ⟨rfl, rest⟩
  | items listed =>
    cases listed with
    | one first => exact absurd written (named first)
    | more first =>
      rw [List.append_assoc] at written
      exact absurd written (named first)

theorem sources_of_word {names rest us : List Token} {a t : Token} {sources : List String}
    (h : Listed SourceName names sources) (mark : t.kind ≠ .symbol .comma)
    (written : names ++ rest = a :: t :: us) : sources = [a.text] ∧ rest = t :: us := by
  cases h with
  | one first =>
    cases first
    injection written with head rest
    exact ⟨by rw [head], rest⟩
  | more first comma =>
    cases first
    injection written with _ written
    injection written with next
    exact absurd (next ▸ comma) mark

/-- Any expression can be the condition. -/
theorem sentence_selecting {now : Int64} {front us : List Token} {e : Expr}
    (words : front.map Token.unplaced = selectingWords) (derived : Derives now .disjunction us e) :
    Sentence Argument now (front ++ us) (selection e) := by
  obtain ⟨select, star, from_, a, where_, rfl, select', star', from', a', named, where'⟩ :=
    exists_front words
  have source : Listed SourceName [a] ["a"] := by
    have name := SourceName.mk (t := a) (by rw [a']; rfl)
    rw [named] at name
    exact .one name
  have sentence : Sentence Argument now (select :: ([] ++ ([star] ++ from_ :: ([a]
      ++ ((where_ :: us) ++ ([] ++ ([] ++ ([] ++ ([] ++ ([] ++ [])))))))))) (selection e) :=
    .mk select' .absent (.wildcard star') from' source (.present where' derived) .absent .absent
      .absent .absent .absent .absent
  simpa using sentence

/-- Tokens in which no further clause begins are the condition up to the end. -/
theorem sentence_selecting_iff {now : Int64} {front us : List Token} {d : Statement}
    (words : front.map Token.unplaced = selectingWords) (inside : ∀ t ∈ us, t.IsInside) :
    Sentence Argument now (front ++ us) d ↔
      ∃ e, Derives now .disjunction us e ∧ d = selection e := by
  constructor
  · intro h
    obtain ⟨select, star, from_, a, where_, rfl, select', star', from', a', named, where'⟩ :=
      exists_front words
    generalize written : [select, star, from_, a, where_] ++ us = ts at h
    cases h with
    | @mk _ distinct? columns _ names where'' groups orders span top_ limit_ finish _ _ _ _ _ _ _ _
        _ _ _ distinct_ columns_ _ sources filter groupBy orderBy interval top limit closed =>
      injection written with _ written
      have undistinct : ∀ t ∈ distinct?, t.kind ≠ .keyword .distinct := by
        intro t member kind
        cases distinct_ with
        | absent => cases member
        | present =>
          injection written with head
          rw [List.mem_singleton.mp member, ← head, star'] at kind
          cases kind
      obtain ⟨rfl, rfl⟩ := distinct_.eq_nil undistinct
      obtain ⟨rfl, written⟩ := columns_of_star columns_ star' written.symm
      injection written with _ written
      obtain ⟨rfl, written⟩ := sources_of_word sources (by simp [where']) written
      have clauses : _ = where_ :: us := written
      -- No keyword of a later clause and no semicolon is left.
      have keyword : ∀ {word}, word ≠ .where_ → ∀ t ∈ where_ :: us, t.kind ≠ .keyword word := by
        intro word other t member
        rcases List.mem_cons.mp member with rfl | member
        · rw [where']
          simpa using Ne.symm other
        · exact (inside t member).1 word
      have semicolon : ∀ t ∈ where_ :: us, t.kind ≠ .symbol .semicolon := by
        intro t member
        rcases List.mem_cons.mp member with rfl | member
        · simp [where']
        · exact (inside t member).2
      rw [← clauses] at keyword semicolon
      obtain ⟨rfl, rfl⟩ := groupBy.eq_nil fun t member => keyword (by decide) t (by simp [member])
      obtain ⟨rfl, rfl⟩ := orderBy.eq_nil fun t member => keyword (by decide) t (by simp [member])
      obtain ⟨rfl, rfl⟩ := interval.eq_nil fun t member => keyword (by decide) t (by simp [member])
      obtain ⟨rfl, rfl⟩ := top.eq_nil fun t member => keyword (by decide) t (by simp [member])
      obtain ⟨rfl, rfl⟩ := limit.eq_nil fun t member => keyword (by decide) t (by simp [member])
      obtain ⟨rfl, rfl⟩ := closed.eq_nil fun t member => semicolon t (by simp [member])
      cases filter with
      | absent => cases clauses
      | present _ derived =>
        simp only [List.append_nil, List.cons.injEq] at clauses
        obtain ⟨-, rfl⟩ := clauses
        rw [named]
        exact ⟨_, derived, rfl⟩
  · rintro ⟨e, derived, rfl⟩
    exact sentence_selecting words derived

end Phrase

section Parse

variable {now : Int64} {text : String} {front us : List Token} {stop : Token}
  {s : Statement} (composed : compose (tokens text) = front ++ us ++ [stop])
  (words : front.map Token.unplaced = selectingWords)
include composed words

theorem parse_selecting {e : Expr} (derived : Derives now .disjunction us e)
    (shallow : e.nesting ≤ 63) : (parse now text).1 = .ok (selection e).referring := by
  refine parse_eq_ok_iff.mpr ⟨front ++ us, stop, selection e, composed,
    Phrase.sentence_selecting words derived, ?_, rfl⟩
  rintro _ ⟨⟩
  exact shallow

/-- The text is read if the tokens of its condition derive an expression. -/
theorem parse_selecting_iff (inside : ∀ t ∈ us, t.IsInside) :
    (parse now text).1 = .ok s ↔
      ∃ e, Derives now .disjunction us e ∧ e.nesting ≤ 63 ∧ s = (selection e).referring := by
  constructor
  · rw [parse_eq_ok_iff]
    rintro ⟨ts, stop', d, same, sentence, shallow, rfl⟩
    obtain ⟨rfl, -⟩ := List.append_inj' (composed.symm.trans same) rfl
    obtain ⟨e, derived, rfl⟩ := (Phrase.sentence_selecting_iff words inside).mp sentence
    exact ⟨e, derived, shallow e rfl, rfl⟩
  · rintro ⟨e, derived, shallow, rfl⟩
    exact parse_selecting composed words derived shallow

end Parse

/-- A condition is read on its own: by what it is divided into, and what that is fused to. -/
theorem parse_condition {now : Int64} {condition : String} {xs ys : List (Kind × String)}
    (lexed : Lexes (some ' ') condition.toList xs) (fused : Fuses xs (ys ++ [(.stop, "")]))
    {e : Expr} (derived : ∀ us : List Token, us.map Token.unplaced = ys →
      Derives now .disjunction us e) (shallow : e.nesting ≤ 63) :
    (parse now (selecting ++ condition)).1 = .ok (selection e).referring := by
  have divided : (tokens (selecting ++ condition)).map Token.unplaced = selectingWords ++ xs := by
    refine Lexes.unplaced ?_
    rw [String.toList_append]
    exact lexes_selecting lexed
  obtain ⟨front, back, split, words, rest⟩ := List.map_eq_append_iff.mp divided
  obtain ⟨us, last, fusedBack, unplaced, ended⟩ := List.map_eq_append_iff.mp (fused back rest)
  obtain ⟨stop, rfl⟩ : ∃ stop, last = [stop] := by
    refine List.length_eq_one_iff.mp ?_
    rw [← List.length_map Token.unplaced, ended]
    rfl
  have composed : compose (tokens (selecting ++ condition)) = front ++ us ++ [stop] := by
    rw [split, compose_selecting words, fusedBack, List.append_assoc]
  exact parse_selecting composed words (derived us unplaced) shallow

/-! ### A field on the left side -/

/-- Two words with a point between, before a blank. -/
theorem lexes_dotted {a b : String} {kind kind' : Kind} (first : Spelled a kind)
    (second : Spelled b kind') {previous : Option Char} {cs : List Char}
    {xs : List (Kind × String)} (after : Lexes (some ' ') cs xs) :
    Lexes previous (a.toList ++ '.' :: (b.toList ++ ' ' :: cs))
      ((kind, a) :: (.symbol .dot, ".") :: (kind', b) :: xs) := by
  have last : ∀ q, Lexes q (b.toList ++ ' ' :: cs) ((kind', b) :: xs) := fun q =>
    .spelled second (by rintro d ⟨⟩; rfl) fun q => .blank after
  refine .spelled first (by rintro d ⟨⟩; rfl) fun q => ?_
  exact .mark rfl (by decide) (fun _ _ => rfl) rfl (last _)

theorem derives_comparison {now : Int64} {field asking : Token} {name : String} {op : BinaryOp}
    {ts : List Token} {literal : Expr} (kind : field.kind = .field) (named : field.text = name)
    (operator : Parser.relation? asking.kind = some op) (leaf : Phrase.Leaf now ts literal) :
    Derives now .disjunction (field :: asking :: ts) (.binary op (.field name) literal) := by
  have operand : ∀ {ts e}, Phrase.Leaf now ts e → Derives now .bits ts e :=
    fun leaf => .lift rfl (.lift rfl (.lift rfl (.leaf leaf)))
  have left : Phrase.Leaf now [field] (.field field.text) := .field (.inl kind)
  rw [named] at left
  exact .lift rfl (.lift rfl (.relation (operand left) operator (operand leaf)))

end PacketQuery.Language
