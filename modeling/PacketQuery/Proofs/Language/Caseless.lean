import PacketQuery.Proofs.Language.Fusing
import PacketQuery.Proofs.Language.Division
import PacketQuery.Proofs.Catalog.ProtocolWords
/-!
The scanner and the literals are blind to case: the tokens of a lowered text are those of the
text with their own texts lowered. No rule tells a capital from its small letter.
-/

namespace PacketQuery.Language

/-! ### Steps of the scanner -/

def Lexeme.lowered (l : Lexeme) : Lexeme :=
  { l with text := Text.lower l.text }

namespace Symbol

theorem ofChar?_toLower : ∀ c, ofChar? c.toLower = ofChar? c :=
  Text.apply_toLower (by decide)

theorem ofPair?_second_of_word {c d : Char} (word : Text.isWordChar d = true) :
    ofPair? c d = none := by
  unfold ofPair?
  split
  all_goals first | rfl | cases word

/-- The letters make no pair, and the other characters stay as they are. -/
theorem ofPair?_toLower (c d : Char) : ofPair? c.toLower d.toLower = ofPair? c d := by
  have plain : ∀ {e : Char}, ¬ Text.isWordChar e = true → e.toLower = e := by
    intro e other
    refine Text.toLower_of_not_alpha (Bool.eq_false_iff.mpr fun letter => other ?_)
    simp [Text.isWordChar, Char.isAlphanum, letter]
  by_cases first : Text.isWordChar c = true
  · rw [Step.ofPair?_of_word first, Step.ofPair?_of_word]
    rwa [Text.isWordChar_toLower]
  by_cases second : Text.isWordChar d = true
  · rw [ofPair?_second_of_word second, ofPair?_second_of_word]
    rwa [Text.isWordChar_toLower]
  rw [plain first, plain second]

end Symbol

theorem Keyword.ofWord?_lower (word : String) : ofWord? (Text.lower word) = ofWord? word := by
  simp only [ofWord?, Text.same_right_congr (Text.same_lower word)]

theorem Kind.ofWord_lower (word : String) : ofWord (Text.lower word) = ofWord word := by
  rw [ofWord, ofWord, Keyword.ofWord?_lower, Catalog.isProtocolName_congr (Text.same_lower word)]

namespace Step

/-- The step with the texts of its lexemes lowered. -/
def lowered (s : Step) : Step :=
  ⟨s.lexemes.map Lexeme.lowered, s.more⟩

variable {c : Char} {cs : List Char} {previous : Option Char}

@[simp] theorem lowered_skip (more : Nat) : (skip more).lowered = skip more := rfl

theorem one_toLower (kind : Kind) (cs : List Char) :
    one kind (cs.map Char.toLower) = (one kind cs).lowered := by
  simp [one, lowered, Lexeme.lowered, Text.lower_ofList]

theorem ofQuote_toLower {quote : Char} (mark : quote.isAlpha = false) (cs : List Char) :
    ofQuote quote (cs.map Char.toLower) = (ofQuote quote cs).lowered := by
  have absent : ∀ {ds : List Char}, quote ∉ ds → quote ∉ ds.map Char.toLower := by
    intro ds outside inside
    obtain ⟨d, member, lowered⟩ := List.mem_map.mp inside
    exact outside ((Text.toLower_eq_iff mark).mp lowered ▸ member)
  have itself : quote.toLower = quote := Text.toLower_of_not_alpha mark
  by_cases closed : quote ∈ cs
  · obtain ⟨content, rest, rfl, outside⟩ := List.eq_append_cons_of_mem closed
    rw [List.map_append, List.map_cons, itself, ofQuote_closed (absent outside),
      ofQuote_closed outside]
    simp [lowered, Lexeme.lowered, Text.lower_ofList]
  · rw [ofQuote_open (absent closed), ofQuote_open closed]
    split
    next => rw [← one_toLower, List.map_cons, itself, List.map_nil]
    next => rfl

theorem digitRuns_toLower (cs : List Char) :
    digitRuns (cs.map Char.toLower) = (digitRuns cs).map (·.map Char.toLower) := by
  have before := Text.takeWhile_toLower Text.isDigit_toLower
  have after := Text.dropWhile_toLower Text.isDigit_toLower
  induction cs using digitRuns.induct with
  | case1 cs d tail point digit ih =>
    have digits : ∀ e ∈ cs.takeWhile Char.isDigit, e.isDigit = true :=
      List.all_eq_true.mp List.all_takeWhile
    have cut : cs.takeWhile Char.isDigit ++ '.' :: d :: tail = cs := by
      rw [← point, List.takeWhile_append_dropWhile]
    have digits' : ∀ e ∈ (cs.takeWhile Char.isDigit).map Char.toLower, e.isDigit = true := by
      rw [← before]
      exact List.all_eq_true.mp List.all_takeWhile
    have dot : Char.toLower '.' = '.' := by decide
    rw [← cut, digitRuns_point digits ⟨d, rfl, digit⟩, List.map_append, List.map_cons, dot,
      digitRuns_point digits', ih, List.map_cons]
    exact ⟨d.toLower, rfl, (Text.isDigit_toLower d).trans digit⟩
  | case2 cs d tail point other =>
    rw [digitRuns_single, digitRuns_single, before, List.map_singleton]
    · intro e tail' point'
      rw [point] at point'
      cases point'
      exact other
    · intro e tail' point'
      rw [after, point] at point'
      cases point'
      rwa [Text.isDigit_toLower]
  | case3 cs other =>
    rw [digitRuns_single, digitRuns_single, before, List.map_singleton]
    · intro e tail' point'
      exact absurd point' (other e tail')
    · intro e tail' point'
      rw [after] at point'
      obtain ⟨x, xs, shape, dot, rest⟩ := List.map_eq_cons_iff.mp point'
      obtain ⟨y, ys, rfl, -, -⟩ := List.map_eq_cons_iff.mp rest
      rw [Text.toLower_eq_iff rfl] at dot
      subst dot
      exact absurd shape (other y ys)

theorem dotted_toLower (start : Nat) (runs : List (List Char)) :
    dotted start (runs.map (·.map Char.toLower)) = (dotted start runs).map Lexeme.lowered := by
  fun_induction dotted start runs with
  | case1 => rfl
  | case2 start run => simp [dotted, Lexeme.lowered, Text.lower_ofList]
  | case3 start run runs several ih =>
    obtain ⟨next, rest, rfl⟩ := List.exists_cons_of_ne_nil several
    rw [List.map_cons, dotted, List.length_map, ih]
    · simp only [List.map_cons, Lexeme.lowered, Text.lower_ofList]
      rfl
    · simp

theorem ofRuns_toLower (runs : List (List Char)) :
    ofRuns (runs.map (·.map Char.toLower)) = (ofRuns runs).lowered := by
  have dot : Char.toLower '.' = '.' := by decide
  match runs with
  | [] => rfl
  | [run] => exact one_toLower .integer run
  | [whole, fraction] =>
    have joined := one_toLower .float (whole ++ '.' :: fraction)
    rwa [List.map_append, List.map_cons, dot] at joined
  | a :: b :: d :: runs =>
    have marks : ∀ rs : List (List Char), ((rs.map (·.map Char.toLower)).flatMap ('.' :: ·)).length
        = (rs.flatMap ('.' :: ·)).length := by
      intro rs
      simp [List.length_flatMap, Function.comp_def]
    have all : ofRuns ((a :: b :: d :: runs).map (·.map Char.toLower))
        = ⟨dotted 0 ((a :: b :: d :: runs).map (·.map Char.toLower)),
          (((a :: b :: d :: runs).map (·.map Char.toLower)).flatMap ('.' :: ·)).length - 2⟩ := rfl
    rw [all, dotted_toLower, marks]
    rfl

theorem ofDigit_toLower (previous : Option Char) {c : Char} (digit : c.isDigit = true)
    (cs : List Char) :
    ofDigit (previous.map Char.toLower) c (cs.map Char.toLower)
      = (ofDigit previous c cs).lowered := by
  have itself : c.toLower = c := Text.toLower_of_isDigit digit
  have cons : ∀ ds : List Char, c :: ds.map Char.toLower = (c :: ds).map Char.toLower := by
    intro ds
    rw [List.map_cons, itself]
  have mark : ∀ x : Char, (x.toLower == 'x' || x.toLower == 'X') = (x == 'x' || x == 'X') :=
    Text.apply_toLower (f := fun x => x == 'x' || x == 'X') (by decide)
  have colon : ∀ x : Option Char, x.map Char.toLower = some ':' ↔ x = some ':' := by
    intro x
    cases x with
    | none => simp
    | some x => simpa using Text.toLower_eq_iff rfl
  unfold ofDigit
  extract_lets group' prefixed' group prefixed
  have sameGroup : group' = group.map Char.toLower := by
    rw [← Text.takeWhile_toLower Text.isHexDigit_toLower, ← cons]
  have samePrefixed : prefixed' = prefixed := by
    dsimp only [prefixed', prefixed]
    by_cases zero : c = '0'
    · subst zero
      match cs with
      | [] => rfl
      | [x] => rfl
      | x :: h :: rest => simp only [List.map_cons, mark, Text.isHexDigit_toLower]
    · split
      next => exact absurd rfl zero
      next => split <;> first | rfl | exact absurd rfl zero
  rw [samePrefixed, sameGroup, cons, List.length_map, List.getElem?_map, digitRuns_toLower]
  simp only [colon]
  split
  next =>
    rw [← one_toLower, List.map_append, ← cons, List.map_take, ← List.map_drop,
      Text.takeWhile_toLower Text.isHexDigit_toLower]
  next =>
    split
    next => exact one_toLower ..
    next => exact ofRuns_toLower _

theorem pairKeyword?_lower (word : String) :
    pairKeyword? (Text.lower word) = pairKeyword? word := by
  rw [pairKeyword?, pairKeyword?, Text.same_left_congr (Text.same_lower word),
    Text.same_left_congr (Text.same_lower word)]

theorem ofLetter_toLower (c : Char) (cs : List Char) :
    ofLetter c.toLower (cs.map Char.toLower) = (ofLetter c cs).lowered := by
  simp only [ofLetter, Text.takeWhile_toLower Text.isWordChar_toLower,
    Text.dropWhile_toLower Text.isWordChar_toLower, Text.takeWhile_toLower Text.isBlank_toLower,
    Text.dropWhile_toLower Text.isBlank_toLower, ← List.map_cons, ← Text.lower_ofList,
    pairKeyword?_lower, Kind.ofWord_lower, List.isEmpty_map, List.length_map,
    Text.same_left_congr (Text.same_lower _)]
  split
  next =>
    split
    next =>
      have blank : Text.lower " " = " " := by decide
      simp [lowered, Lexeme.lowered, Text.lower_append, blank]
    next => exact one_toLower ..
  next => exact one_toLower ..

theorem at_toLower (previous : Option Char) (c : Char) (cs : List Char) :
    at_ (previous.map Char.toLower) c.toLower (cs.map Char.toLower)
      = (at_ previous c cs).lowered := by
  have line : ((cs.map Char.toLower).takeWhile (· != '\n')).length
      = (cs.takeWhile (· != '\n')).length := by
    rw [Text.takeWhile_toLower (p := (· != '\n'))
      (Text.apply_toLower (f := (· != '\n')) (by decide)),
      List.length_map]
  have pair : ((cs.map Char.toLower).head?.bind fun d =>
        (Symbol.ofPair? c.toLower d).map (·, d))
      = (cs.head?.bind fun d => (Symbol.ofPair? c d).map (·, d)).map
        fun made => (made.1, made.2.toLower) := by
    cases cs with
    | nil => rfl
    | cons d ds => simp [Symbol.ofPair?_toLower, Function.comp_def]
  -- Every test on the way to a step is either blind to case or for a mark.
  have same : ∀ {d : Char}, d.isAlpha = false → (c.toLower = d ↔ c = d) := Text.toLower_eq_iff
  unfold at_
  simp only [Text.isBlank_toLower, line, pair, Text.isDigit_toLower, Text.isAlpha_toLower,
    Symbol.ofChar?_toLower, @same '#' rfl, @same '\'' rfl, @same '"' rfl, @same '_' rfl]
  split
  next => rfl
  next =>
    split
    next => rfl
    next =>
      cases found : cs.head?.bind fun d => (Symbol.ofPair? c d).map (·, d) with
      | some made => exact one_toLower (.symbol made.1) [c, made.2]
      | none =>
        dsimp only [Option.map_none]
        split
        next quote =>
          have mark : c.isAlpha = false := by
            rcases quote with rfl | rfl <;> rfl
          rw [Text.toLower_of_not_alpha mark, ofQuote_toLower mark]
        next =>
          split
          next digit => rw [Text.toLower_of_isDigit digit, ofDigit_toLower previous digit]
          next =>
            split
            next => exact ofLetter_toLower c cs
            next =>
              cases Symbol.ofChar? c with
              | none => rfl
              | some mark => exact one_toLower (.symbol mark) [c]

end Step

/-! ### Tokens -/

def Token.lowered (t : Token) : Token :=
  { t with text := Text.lower t.text }

theorem Token.text_lowered (t : Token) : t.lowered.text = Text.lower t.text := rfl

def Span.lowered (s : Span) : Span :=
  { s with token := s.token.lowered }

theorem Place.afterAll_toLower (p : Place) (cs : List Char) :
    p.afterAll (cs.map Char.toLower) = p.afterAll cs := by
  have one : ∀ (p : Place) (c : Char), p.after c.toLower = p.after c := by
    intro p c
    simp only [Place.after, Text.toLower_eq_iff (d := '\n') rfl]
  simp only [afterAll, List.foldl_map, one]

theorem Span.ofLexeme_toLower (place : Place) (taken : List Char) (l : Lexeme) :
    ofLexeme place (taken.map Char.toLower) l.lowered = (ofLexeme place taken l).lowered := by
  simp only [ofLexeme, Lexeme.lowered, ← List.map_take, Place.afterAll_toLower]
  rfl

/-- What is found of a lowered text, after a lowered character, is found of the text. -/
theorem spansFrom_toLower (previous : Option Char) (place : Place) (cs : List Char) :
    spansFrom (previous.map Char.toLower) place (cs.map Char.toLower)
      = (spansFrom previous place cs).map Span.lowered := by
  induction previous, place, cs using spansFrom.induct with
  | case1 previous place =>
    rw [List.map_nil, spansFrom, spansFrom]
    rfl
  | case2 previous place c cs step taken ih =>
    have sameTaken : c.toLower :: (cs.map Char.toLower).take step.more
        = taken.map Char.toLower := by
      rw [← List.map_take, List.map_cons]
    have lexemes : (step.lexemes.map Lexeme.lowered).map
          (Span.ofLexeme place (taken.map Char.toLower))
        = (step.lexemes.map (Span.ofLexeme place taken)).map Span.lowered := by
      simp only [List.map_map, Function.comp_def, Span.ofLexeme_toLower]
    rw [List.map_cons, spansFrom, Step.at_toLower, spansFrom]
    dsimp only [Step.lowered]
    rw [sameTaken, lexemes, List.getLast?_map, Place.afterAll_toLower, ← List.map_drop, ih,
      List.map_append]

theorem tokens_lower (text : String) :
    tokens (Text.lower text) = (tokens text).map Token.lowered := by
  have all := spansFrom_toLower none .start text.toList
  rw [Option.map_none, ← Text.toList_lower] at all
  rw [tokens, spans, all, List.map_map, tokens, spans, List.map_map]
  rfl

/-! ### Literals -/

namespace Literal

theorem joined_lowered (ts : List Token) :
    joined (ts.map Token.lowered) = Text.lower (joined ts) := by
  induction ts with
  | nil => rfl
  | cons t ts ih =>
    simp only [joined, List.map_cons, String.join_cons, Text.lower_append] at ih ⊢
    rw [ih]
    rfl

/-- The text of a hardware address is in small letters already. -/
theorem lower_macText (ts : List Token) : Text.lower (macText ts) = macText ts := by
  have zero : Char.toLower '0' = '0' := by decide
  have small : ∀ s : String, Text.lower (String.ofList (Text.padLeft '0' 2 (Text.lower s).toList))
      = String.ofList (Text.padLeft '0' 2 (Text.lower s).toList) := by
    intro s
    rw [Text.lower_ofList, Text.padLeft]
    simp [zero, Function.comp_def]
  rw [macText, Text.lower_joined, List.map_map]
  simp only [Function.comp_def, small]
  rfl

theorem uniform_lowered : Uniform Token.lowered Text.lower where
  kind _ := rfl
  decimal t := by
    simp only [isDecimal, Token.text_lowered, Text.toList_lower,
      Text.all_toLower Text.isDigit_toLower, Text.isEmpty_lower]
    rfl
  hex t := by
    simp only [isHexGroup, Token.text_lowered, Text.toList_lower,
      Text.all_toLower Text.isHexDigit_toLower, Text.length_lower]
    rfl
  joined := joined_lowered
  mac ts := by
    rw [lower_macText, macText, everyOther_map, List.map_map]
    simp only [Function.comp_def, Token.text_lowered, Text.lower_lower]
    rfl
  spaced s t := by
    rw [Text.lower_append, Text.lower_append]
    rfl

end Literal

/-- Fusing literals does not see case. -/
theorem compose_lowered (ts : List Token) :
    compose (ts.map Token.lowered) = (compose ts).map Token.lowered := by
  have first := Literal.uniform_lowered.first?_map
  induction ts using compose.induct with
  | case1 => rw [List.map_nil, compose, List.map_nil]
  | case2 t ts kind text width found ih =>
    rw [List.map_cons, compose, ← List.map_cons, first, found, compose, found]
    simp only [Option.map_some, ← List.map_drop, ih]
    rfl
  | case3 t ts found ih =>
    rw [List.map_cons, compose, ← List.map_cons, first, found, compose, found]
    simp only [Option.map_none, ih]
    rfl

/-- A text and the same text in capitals have the same sequence of tokens: each has the kind and
the place of its partner, and the same text up to case. -/
theorem compose_tokens_upper (text : String) :
    (compose (tokens (Text.upper text))).map (fun t => (t.kind, t.line, t.column))
        = (compose (tokens text)).map (fun t => (t.kind, t.line, t.column)) ∧
      (compose (tokens (Text.upper text))).map (fun t => Text.lower t.text)
        = (compose (tokens text)).map fun t => Text.lower t.text := by
  have lowered : (compose (tokens (Text.upper text))).map Token.lowered
      = (compose (tokens text)).map Token.lowered := by
    rw [← compose_lowered, ← tokens_lower, Text.lower_upper, tokens_lower, compose_lowered]
  have marks := congrArg (List.map fun t : Token => (t.kind, t.line, t.column)) lowered
  have texts := congrArg (List.map Token.text) lowered
  rw [List.map_map, List.map_map] at marks texts
  exact ⟨marks, texts⟩

end PacketQuery.Language
