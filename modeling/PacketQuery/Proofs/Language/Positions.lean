import PacketQuery.Proofs.Language.Division
/-!
Where the tokens of a text stand. The spans follow one another and end at the end of the text, the
line and column of a token are those of its first character, and what lies between the spans was
passed over.
-/

namespace PacketQuery.Language

/-- The line of the character that follows these. -/
def lineAfter (cs : List Char) : Nat :=
  cs.count '\n' + 1

/-- The column of the character that follows these: one more than there are since the last end of
a line. -/
def columnAfter (cs : List Char) : Nat :=
  (cs.reverse.takeWhile (· ≠ '\n')).length + 1

/-- The token stands in an earlier line, or further left in the same. -/
def Token.Precedes (a b : Token) : Prop :=
  a.line < b.line ∨ a.line = b.line ∧ a.column < b.column

/-- The span is that of the characters `run` after the characters `first`, where its token stands;
and the token shows them, if it is not the end. -/
structure Span.Marks (s : Span) (first run : List Char) : Prop where
  start : s.start = first.length
  stop : s.stop = first.length + run.length
  line : s.token.line = lineAfter first
  column : s.token.column = columnAfter first
  shows_ : s.token.kind ≠ .stop → run ≠ [] ∧ Shows s.token.kind s.token.text run

/-- The spans of the characters `rest` that follow `before`: each token covers a run, other runs
are passed over, and the end comes last. -/
inductive Division : (before rest : List Char) → List Span → Prop
  | stop {before : List Char} {s : Span} :
      s.token.kind = .stop → s.Marks before [] → Division before [] [s]
  | token {before run rest : List Char} {s : Span} {spans : List Span} :
      s.token.kind ≠ .stop → s.Marks before run → Division (before ++ run) rest spans →
      Division before (run ++ rest) (s :: spans)
  | pass {before run rest : List Char} {spans : List Span} :
      Passed rest run → Division (before ++ run) rest spans → Division before (run ++ rest) spans

/-! ### The scanner gives a division -/

namespace Place

theorem afterAll_append (p : Place) (cs ds : List Char) :
    p.afterAll (cs ++ ds) = (p.afterAll cs).afterAll ds :=
  List.foldl_append

theorem afterAll_start (cs : List Char) :
    start.afterAll cs = ⟨cs.length, lineAfter cs, columnAfter cs⟩ := by
  induction cs using List.reverseRecOn with
  | nil => rfl
  | append_singleton cs c ih =>
    rw [afterAll_append, ih]
    by_cases newline : c = '\n' <;>
      simp [afterAll, after, lineAfter, columnAfter, newline]

end Place

theorem Division.of_covers {before taken rest whole : List Char} {ls : List Lexeme}
    {spans : List Span} {earlier : List Char} {n : Nat} (covers : Covers n taken ls)
    (split : whole = before ++ taken) (number : n = before.length)
    (later : Division (earlier ++ whole) rest spans) :
    Division (earlier ++ before) (taken ++ rest)
      (ls.map (Span.ofLexeme (Place.start.afterAll earlier) whole) ++ spans) := by
  subst split number
  generalize same : before.length = n at covers
  induction covers generalizing before with
  | nil =>
    rw [List.append_nil] at later
    exact later
  | @cons n kind text run taken ls other nonempty shows_ _ ih =>
    have later' : Division (earlier ++ (before ++ run ++ taken)) rest spans := by
      simpa using later
    have next := ih later' (by simp [same])
    have here : (before ++ (run ++ taken)).take n = before := List.take_left' same
    have place : (Place.start.afterAll earlier).afterAll before
        = ⟨(earlier ++ before).length, lineAfter (earlier ++ before),
          columnAfter (earlier ++ before)⟩ := by
      rw [← Place.afterAll_append, Place.afterAll_start]
    rw [List.append_assoc, ← List.append_assoc earlier] at next
    rw [List.map_cons, List.cons_append, List.append_assoc]
    refine .token ?_ ?_ next
    · exact other
    · unfold Span.ofLexeme
      rw [here, place]
      exact ⟨rfl, rfl, rfl, rfl, fun _ => ⟨nonempty, shows_⟩⟩

theorem division_spansFrom (previous : Option Char) (before cs : List Char) :
    Division before cs (spansFrom previous (Place.start.afterAll before) cs) := by
  generalize same : Place.start.afterAll before = place
  induction previous, place, cs using spansFrom.induct generalizing before with
  | case1 previous place =>
    subst same
    rw [spansFrom, Place.afterAll_start]
    exact .stop rfl ⟨rfl, rfl, rfl, rfl, fun other => absurd rfl other⟩
  | case2 previous place c cs step taken ih =>
    subst same
    obtain ⟨run, rest, cut, width, covers⟩ := Step.divides_at previous c cs
    have whole : taken = run := by
      have first := congrArg (List.take (step.more + 1)) cut
      rwa [List.take_succ_cons, List.take_left' width] at first
    have left : cs.drop step.more = rest := by
      have second := congrArg (List.drop (step.more + 1)) cut
      rwa [List.drop_succ_cons, List.drop_left' width] at second
    have later := ih (before ++ taken) (Place.afterAll_append _ _ _)
    rw [spansFrom]
    show Division before (c :: cs)
      (step.lexemes.map (Span.ofLexeme (Place.start.afterAll before) taken)
        ++ spansFrom taken.getLast? ((Place.start.afterAll before).afterAll taken)
          (cs.drop step.more))
    rw [left] at later ⊢
    rw [cut, ← whole]
    rcases covers with covers | ⟨none_, passed⟩
    · have tokens := Division.of_covers (whole ▸ covers) rfl List.length_nil.symm later
      rwa [List.append_nil] at tokens
    · rw [show step.lexemes = [] from none_]
      exact .pass (whole ▸ passed) later

/-! ### What a division says -/

namespace Division

variable {before rest : List Char} {spans : List Span}

/-- Each span is that of a part of the text. -/
theorem marks (h : Division before rest spans) : ∀ s ∈ spans,
    ∃ first run last, rest = first ++ run ++ last ∧ s.Marks (before ++ first) run := by
  induction h with
  | @stop before s _ mark =>
    rw [List.forall_mem_singleton]
    exact ⟨[], [], [], rfl, by rwa [List.append_nil]⟩
  | @token before run rest s spans _ mark _ ih =>
    rw [List.forall_mem_cons]
    refine ⟨⟨[], run, rest, rfl, by rwa [List.append_nil]⟩, fun t member => ?_⟩
    obtain ⟨first, run', last, rfl, mark'⟩ := ih t member
    exact ⟨run ++ first, run', last, by simp, by rwa [← List.append_assoc]⟩
  | @pass before run rest spans _ _ ih =>
    intro t member
    obtain ⟨first, run', last, rfl, mark⟩ := ih t member
    exact ⟨run ++ first, run', last, by simp, by rwa [← List.append_assoc]⟩

theorem ends (h : Division before rest spans) : ∃ inner last, spans = inner ++ [last] ∧
    last.token.kind = .stop ∧ last.Marks (before ++ rest) [] ∧
      ∀ s ∈ inner, s.token.kind ≠ .stop := by
  induction h with
  | @stop before s ended mark => exact ⟨[], s, rfl, ended, by rwa [List.append_nil], by simp⟩
  | @token before run rest s spans other _ _ ih =>
    obtain ⟨inner, last, rfl, ended, mark, others⟩ := ih
    exact ⟨s :: inner, last, rfl, ended, by rwa [← List.append_assoc],
      List.forall_mem_cons.mpr ⟨other, others⟩⟩
  | @pass before run rest spans _ _ ih =>
    obtain ⟨inner, last, rfl, ended, mark, others⟩ := ih
    exact ⟨inner, last, rfl, ended, by rwa [← List.append_assoc], others⟩

end Division

theorem position_append (before : List Char) {run : List Char} (nonempty : run ≠ []) :
    lineAfter before < lineAfter (before ++ run) ∨
      lineAfter before = lineAfter (before ++ run) ∧
        columnAfter before < columnAfter (before ++ run) := by
  unfold lineAfter columnAfter
  rw [List.count_append, List.reverse_append]
  by_cases newline : '\n' ∈ run
  · have some_ : 0 < run.count '\n' := List.count_pos_iff.mpr newline
    left
    omega
  · have none_ : run.count '\n' = 0 := List.count_eq_zero.mpr newline
    have line : ∀ c ∈ run.reverse, decide (c ≠ '\n') = true := by
      intro c member
      refine decide_eq_true fun same => newline ?_
      rw [← same]
      exact List.mem_reverse.mp member
    have some_ := List.length_pos_iff.mpr nonempty
    rw [List.takeWhile_append_of_pos line, List.length_append, List.length_reverse]
    right
    omega

namespace Division

variable {before rest : List Char} {spans : List Span}

theorem ordered (h : Division before rest spans) : spans.Pairwise fun a b =>
    a.start < a.stop ∧ a.stop ≤ b.start ∧ a.token.Precedes b.token := by
  induction h with
  | stop => exact List.pairwise_singleton _ _
  | @token before run rest s spans other mark later ih =>
    refine List.pairwise_cons.mpr ⟨fun t member => ?_, ih⟩
    obtain ⟨first, run', last, -, mark'⟩ := later.marks t member
    obtain ⟨nonempty, -⟩ := mark.shows_ other
    have some_ := List.length_pos_iff.mpr nonempty
    have start := mark'.start
    rw [List.append_assoc, List.length_append, List.length_append] at start
    refine ⟨?_, ?_, ?_⟩
    · rw [mark.start, mark.stop]
      omega
    · rw [mark.stop, start]
      omega
    · unfold Token.Precedes
      rw [mark.line, mark'.line, mark.column, mark'.column, List.append_assoc]
      exact position_append before (by simp [nonempty])
  | pass _ _ ih => exact ih

/-- A character that is in no span is in a run that was passed over, which meets no span. -/
theorem gaps (h : Division before rest spans) (i : Nat) (from_ : before.length ≤ i)
    (inside : i < (before ++ rest).length)
    (outside : ∀ s ∈ spans, ¬ (s.start ≤ i ∧ i < s.stop)) :
    ∃ first run last, before ++ rest = first ++ run ++ last ∧ Passed last run ∧
      before.length ≤ first.length ∧ first.length ≤ i ∧ i < first.length + run.length ∧
      ∀ s ∈ spans, s.stop ≤ first.length ∨ first.length + run.length ≤ s.start := by
  induction h with
  | stop =>
    rw [List.append_nil] at inside
    omega
  | @token before run rest s spans _ mark _ ih =>
    rw [List.forall_mem_cons, mark.start, mark.stop] at outside
    obtain ⟨past, outside⟩ := outside
    obtain ⟨first, run', last, cut, passed, after, low, high, apart⟩ :=
      ih (by rw [List.length_append]; omega) (by rwa [List.append_assoc]) outside
    rw [List.length_append] at after
    refine ⟨first, run', last, by rw [← cut, List.append_assoc], passed, by omega, low, high, ?_⟩
    refine List.forall_mem_cons.mpr ⟨.inl ?_, apart⟩
    rw [mark.stop]
    exact after
  | @pass before run rest spans passed later ih =>
    by_cases here : i < before.length + run.length
    · refine ⟨before, run, rest, by rw [List.append_assoc], passed, le_rfl, from_, here, ?_⟩
      intro s member
      obtain ⟨first, run', last, -, mark⟩ := later.marks s member
      right
      rw [mark.start, List.length_append, List.length_append]
      omega
    · obtain ⟨first, run', last, cut, passed', after, low, high, apart⟩ :=
        ih (by rw [List.length_append]; omega) (by rwa [List.append_assoc]) outside
      rw [List.length_append] at after
      exact ⟨first, run', last, by rw [← cut, List.append_assoc], passed', by omega, low, high,
        apart⟩

end Division

/-- The spans of a text are in order and apart, each stands where its characters do and its token
shows them, the one end is at the end, and characters between the spans were passed over. -/
structure Faithful (cs : List Char) (spans : List Span) : Prop where
  marks : ∀ s ∈ spans, ∃ first run last, cs = first ++ run ++ last ∧ s.Marks first run
  ends : ∃ inner last, spans = inner ++ [last] ∧ last.token.kind = .stop ∧ last.Marks cs [] ∧
    ∀ s ∈ inner, s.token.kind ≠ .stop
  ordered : spans.Pairwise fun a b =>
    a.start < a.stop ∧ a.stop ≤ b.start ∧ a.token.Precedes b.token
  gaps : ∀ i < cs.length, (∀ s ∈ spans, ¬ (s.start ≤ i ∧ i < s.stop)) →
    ∃ first run last, cs = first ++ run ++ last ∧ Passed last run ∧
      first.length ≤ i ∧ i < first.length + run.length ∧
      ∀ s ∈ spans, s.stop ≤ first.length ∨ first.length + run.length ≤ s.start

/-- The tokens of a text are those of spans that account for each of its characters. -/
theorem tokens_faithful (text : String) :
    ∃ spans, tokens text = spans.map (·.token) ∧ Faithful text.toList spans := by
  have division := division_spansFrom none [] text.toList
  refine ⟨spans text, rfl, division.marks, division.ends, division.ordered, ?_⟩
  intro i inside outside
  obtain ⟨first, run, last, cut, passed, -, rest⟩ :=
    division.gaps i (Nat.zero_le i) inside outside
  exact ⟨first, run, last, cut, passed, rest⟩

end PacketQuery.Language
