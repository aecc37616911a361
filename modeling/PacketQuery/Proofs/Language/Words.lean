import PacketQuery.Proofs.Language.Composition
/-!
What a step of the scanner can leave. Names are single words: no token of that kind has a point in
its text, so a dotted name is always a field token. No step leaves an end, so a text has one end
and it is the last token. Fusing literals keeps both, and literals of several tokens come of it
alone.
-/

namespace PacketQuery.Language

/-- A name has no point in its text. -/
def Token.IsPlain (t : Token) : Prop :=
  t.kind = .name → '.' ∉ t.text.toList

/-- A name found in a step has no point in its text. -/
def Lexeme.IsPlain (l : Lexeme) : Prop :=
  l.kind = .name → '.' ∉ l.text.toList

/-- Neither an end nor a literal of several tokens. -/
abbrev Kind.IsInner (kind : Kind) : Prop :=
  kind ≠ .stop ∧ kind ∉ Form.kinds

/-- A lexeme of a step is of an inner kind, and plain. -/
def Lexeme.IsInner (l : Lexeme) : Prop :=
  l.kind.IsInner ∧ l.IsPlain

namespace Kind

theorem inner_symbol (mark : Symbol) : (symbol mark).IsInner :=
  ⟨by simp, Form.symbol_notMem_kinds mark⟩

theorem inner_keyword (word : Keyword) : (keyword word).IsInner :=
  ⟨by simp, Form.keyword_notMem_kinds word⟩

theorem inner_ofWord (word : String) : (ofWord word).IsInner := by
  unfold ofWord
  split
  next => exact inner_keyword _
  next => split <;> decide

end Kind

/-- The text of a lexeme matters for names only. -/
theorem Lexeme.inner_of_ne {kind : Kind} {text : String} {start width : Nat}
    (inner : kind.IsInner) (other : kind ≠ .name) :
    (⟨kind, text, start, width⟩ : Lexeme).IsInner :=
  ⟨inner, fun named => absurd named other⟩

namespace Step

theorem inner_one {kind : Kind} {cs : List Char} (inner : kind.IsInner)
    (h : kind = .name → '.' ∉ cs) : ∀ l ∈ (one kind cs).lexemes, l.IsInner := by
  intro l member
  rw [one, List.mem_singleton] at member
  subst member
  exact ⟨inner, fun named => by simpa using h named⟩

theorem inner_dotted (start : Nat) (runs : List (List Char)) :
    ∀ l ∈ dotted start runs, l.IsInner := by
  have integer : ∀ {text first length}, (⟨.integer, text, first, length⟩ : Lexeme).IsInner :=
    Lexeme.inner_of_ne (by decide) (by simp)
  have dot : ∀ {first}, (⟨.symbol .dot, ".", first, 1⟩ : Lexeme).IsInner :=
    Lexeme.inner_of_ne (by decide) (by simp)
  induction runs generalizing start with
  | nil => simp [dotted]
  | cons run runs ih =>
    cases runs with
    | nil => simpa [dotted] using integer
    | cons next runs =>
      have later := ih (start + run.length + 1)
      simpa [dotted, integer, dot] using later

theorem inner_ofQuote (quote : Char) (cs : List Char) :
    ∀ l ∈ (ofQuote quote cs).lexemes, l.IsInner := by
  unfold ofQuote
  split
  next => simpa using Lexeme.inner_of_ne (by decide) (by simp)
  next =>
    split
    next => exact inner_one (Kind.inner_symbol _) (by simp)
    next => simp [skip]

theorem inner_ofDigit (previous : Option Char) (c : Char) (cs : List Char) :
    ∀ l ∈ (ofDigit previous c cs).lexemes, l.IsInner := by
  unfold ofDigit
  extract_lets group prefixed
  split
  next => exact inner_one (by decide) (by simp)
  next =>
    split
    next => exact inner_one (by decide) (by simp)
    next =>
      split
      next => exact inner_one (by decide) (by simp)
      next => exact inner_one (by decide) (by simp)
      next => exact inner_dotted 0 _

theorem inner_ofLetter {c : Char} (letter : c.isAlpha = true ∨ c = '_') (cs : List Char) :
    ∀ l ∈ (ofLetter c cs).lexemes, l.IsInner := by
  have word : '.' ∉ c :: cs.takeWhile Text.isWordChar := by
    intro member
    rcases List.mem_cons.mp member with rfl | later
    · revert letter
      decide
    · have continues := List.all_eq_true.mp List.all_takeWhile _ later
      revert continues
      decide
  unfold ofLetter
  extract_lets word' after blanks second text single
  split
  next k _ =>
    split
    next => simpa using Lexeme.inner_of_ne (Kind.inner_keyword k) (by simp)
    next => exact inner_one (Kind.inner_ofWord _) fun _ => word
  next => exact inner_one (Kind.inner_ofWord _) fun _ => word

theorem inner_at (previous : Option Char) (c : Char) (cs : List Char) :
    ∀ l ∈ (at_ previous c cs).lexemes, l.IsInner := by
  unfold at_
  split
  next => simp [skip]
  next =>
    split
    next => simp [skip]
    next =>
      split
      next => exact inner_one (Kind.inner_symbol _) (by simp)
      next =>
        split
        next => exact inner_ofQuote c cs
        next =>
          split
          next => exact inner_ofDigit previous c cs
          next =>
            split
            next letter => exact inner_ofLetter letter cs
            next =>
              split
              next => exact inner_one (Kind.inner_symbol _) (by simp)
              next => simp [skip]

end Step

/-- What is found is the end, or left by a step. -/
theorem inner_spansFrom (previous : Option Char) (place : Place) (cs : List Char) :
    ∀ span ∈ spansFrom previous place cs,
      span.token.kind = .stop ∨ span.token.kind.IsInner ∧ span.token.IsPlain := by
  induction previous, place, cs using spansFrom.induct with
  | case1 => simp [spansFrom]
  | case2 previous place c cs step taken ih =>
    rw [spansFrom]
    intro span member
    rcases List.mem_append.mp member with here | later
    · obtain ⟨l, found, rfl⟩ := List.mem_map.mp here
      exact .inr (Step.inner_at previous c cs l found)
    · exact ih span later

theorem plain_tokens (text : String) : ∀ t ∈ tokens text, t.IsPlain := by
  intro t member
  obtain ⟨span, found, rfl⟩ := List.mem_map.mp member
  rcases inner_spansFrom none .start text.toList span found with ended | ⟨-, plain⟩
  · intro named
    cases ended.symm.trans named
  · exact plain

/-- The scanner makes no literals of several tokens. -/
theorem raw_tokens (text : String) : ∀ t ∈ tokens text, t.kind ∉ Form.kinds := by
  intro t member
  obtain ⟨span, found, rfl⟩ := List.mem_map.mp member
  rcases inner_spansFrom none .start text.toList span found with ended | ⟨⟨-, raw⟩, -⟩
  · rw [ended]
    decide
  · exact raw

namespace Literal

variable {ts : List Token} {kind : Kind} {text : String} {width : Nat}

theorem exists_window (h : first? ts = some (kind, text, width)) :
    ∃ w ∈ windows, w.width = width ∧ w.fuse (ts.take width) = some (kind, text) := by
  obtain ⟨w, member, applied⟩ := List.exists_of_findSome?_eq_some h
  unfold Window.apply at applied
  split at applied
  next =>
    obtain ⟨_, fused, same⟩ := Option.map_eq_some_iff.mp applied
    cases same
    exact ⟨w, member, rfl, fused⟩
  next => cases applied

theorem ne_stop_of_separated {mark : Symbol} {item : Token → Bool}
    (other : ∀ t, item t = true → t.kind ≠ .stop) (h : separated mark item ts = true) :
    ∀ t ∈ ts, t.kind ≠ .stop := by
  fun_induction separated mark item ts with
  | case1 => simp
  | case2 t => simpa using other t h
  | case3 t sep rest ih =>
    simp only [Bool.and_eq_true, decide_eq_true_eq] at h
    obtain ⟨⟨first, between⟩, later⟩ := h
    simp only [List.forall_mem_cons]
    exact ⟨other t first, by simp [between], ih later⟩

theorem ne_stop_of_isDecimal (t : Token) (h : isDecimal t = true) : t.kind ≠ .stop := by
  intro ended
  simp [isDecimal, ended] at h

theorem ne_stop_of_isHexGroup (t : Token) (h : isHexGroup t = true) : t.kind ≠ .stop := by
  intro ended
  simp [isHexGroup, ended] at h

theorem ne_stop_of_isWord (t : Token) (h : t.kind.isWord = true) : t.kind ≠ .stop := by
  intro ended
  rw [ended] at h
  cases h

theorem inner_of_ite {mark : Symbol} {item : Token → Bool} {made : Kind} {text' : String}
    (literal : made ≠ .stop ∧ made ≠ .name) (other : ∀ t, item t = true → t.kind ≠ .stop)
    (h : (if separated mark item ts then some (made, text) else none) = some (kind, text')) :
    (kind ≠ .stop ∧ kind ≠ .name) ∧ ∀ t ∈ ts, t.kind ≠ .stop := by
  split at h
  next shape =>
    cases h
    exact ⟨literal, ne_stop_of_separated other shape⟩
  next => cases h

/-- A literal of several tokens is no name and no end, and none of the tokens is an end. -/
theorem inner_of_first? (h : first? ts = some (kind, text, width)) :
    (kind ≠ .stop ∧ kind ≠ .name) ∧ 0 < width ∧ ∀ t ∈ ts.take width, t.kind ≠ .stop := by
  obtain ⟨w, member, rfl, fused⟩ := exists_window h
  rw [and_left_comm]
  simp only [windows, List.mem_cons, List.not_mem_nil, or_false] at member
  rcases member with rfl | rfl | rfl | rfl | rfl | rfl
  · exact ⟨by simp, inner_of_ite (by simp) ne_stop_of_isHexGroup fused⟩
  · simp only [timestamp] at fused
    split at fused
    next days clock =>
      cases fused
      refine ⟨by simp, by simp, ?_⟩
      rw [← List.take_append_drop 5 (List.take 10 ts)]
      intro t found
      rcases List.mem_append.mp found with early | late
      · exact (inner_of_ite (by simp) ne_stop_of_isDecimal days).2 t early
      · exact (inner_of_ite (by simp) ne_stop_of_isDecimal clock).2 t late
    next => cases fused
  · exact ⟨by simp, inner_of_ite (by simp) ne_stop_of_isDecimal fused⟩
  · exact ⟨by simp, inner_of_ite (by simp) ne_stop_of_isDecimal fused⟩
  · exact ⟨by simp, inner_of_ite (by simp) ne_stop_of_isDecimal fused⟩
  · exact ⟨by simp, inner_of_ite (by simp) ne_stop_of_isWord fused⟩

end Literal

theorem plain_compose (ts : List Token) (plain : ∀ t ∈ ts, t.IsPlain) :
    ∀ t ∈ compose ts, t.IsPlain := by
  induction ts using compose.induct with
  | case1 => simp [compose]
  | case2 t ts kind text width fused ih =>
    rw [compose, fused]
    intro u member
    rcases List.mem_cons.mp member with rfl | later
    · exact fun named => absurd named (Literal.inner_of_first? fused).1.2
    · refine ih (fun v found => ?_) u later
      exact plain v (List.mem_cons_of_mem t (List.mem_of_mem_drop found))
  | case3 t ts apart ih =>
    rw [compose, apart]
    intro u member
    rcases List.mem_cons.mp member with rfl | later
    · exact plain u List.mem_cons_self
    · exact ih (fun v found => plain v (List.mem_cons_of_mem t found)) u later

end PacketQuery.Language
