import PacketQuery.Proofs.Language.Scanning
import PacketQuery.Proofs.Text.Case
/-!
What one step of the scanner takes of a text: a run that is passed over, or runs each of which is
covered by a token. A token shows what it covers.
-/

namespace PacketQuery.Language

/-- A token of the kind and with the text covers the characters `run`: its text is what it covers,
but for the quotes of a string, and for the blanks between the words of a double keyword. -/
inductive Shows : Kind → String → (run : List Char) → Prop
  | plain {kind : Kind} {run : List Char} :
      kind ≠ .string → kind ≠ .keyword .orderBy → kind ≠ .keyword .groupBy →
      Shows kind (String.ofList run) run
  | quoted {quote : Char} {content : List Char} :
      quote = '\'' ∨ quote = '"' → quote ∉ content →
      Shows .string (String.ofList content) (quote :: content ++ [quote])
  | double {k : Keyword} {first blanks second : List Char} :
      Step.pairKeyword? (String.ofList first) = some k → blanks ≠ [] →
      (∀ c ∈ blanks, Text.isBlank c = true) → Text.same (String.ofList second) "by" = true →
      Shows (.keyword k) (String.ofList first ++ " " ++ String.ofList second)
        (first ++ blanks ++ second)

/-- A character before `rest` at which no rule applies. -/
structure Unknown (rest : List Char) (c : Char) : Prop where
  blank : Text.isBlank c = false
  comment : c ≠ '#'
  quote : c ≠ '\'' ∧ c ≠ '"'
  word : Text.isWordChar c = false
  pair : ∀ d ∈ rest.head?, Symbol.ofPair? c d = none
  single : Symbol.ofChar? c = none

/-- Characters before `rest` that belong to no token. -/
inductive Passed (rest : List Char) : (run : List Char) → Prop
  | blank {c : Char} : Text.isBlank c = true → Passed rest [c]
  | comment {cs : List Char} :
      '\n' ∉ cs → (∀ d ∈ rest.head?, d = '\n') → Passed rest ('#' :: cs)
  | quote : '"' ∉ rest → Passed rest ['"']
  | unknown {c : Char} : Unknown rest c → Passed rest [c]

/-- The lexemes cover all of the characters `taken`, the first of which has the number `n`. -/
inductive Covers : (n : Nat) → (taken : List Char) → List Lexeme → Prop
  | nil {n : Nat} : Covers n [] []
  | cons {n : Nat} {kind : Kind} {text : String} {run taken : List Char} {ls : List Lexeme} :
      kind ≠ .stop → run ≠ [] → Shows kind text run → Covers (n + run.length) taken ls →
      Covers n (run ++ taken) (⟨kind, text, n, run.length⟩ :: ls)

/-- The step covers what it takes of the text with lexemes, or passes over it. -/
def Step.Divides (step : Step) (cs : List Char) : Prop :=
  ∃ taken rest, cs = taken ++ rest ∧ taken.length = step.more + 1 ∧
    (Covers 0 taken step.lexemes ∨ step.lexemes = [] ∧ Passed rest taken)

namespace Step

variable {c : Char} {cs rest : List Char} {kind : Kind}

theorem divides_lexeme {run : List Char} {text : String} {more : Nat} (other : kind ≠ .stop)
    (shows_ : Shows kind text run) (some_ : run.length = more + 1) :
    Divides ⟨[⟨kind, text, 0, run.length⟩], more⟩ (run ++ rest) := by
  have nonempty : run ≠ [] := by
    rintro rfl
    cases some_
  have covers : Covers 0 run [⟨kind, text, 0, run.length⟩] := by
    have all := @Covers.cons 0 _ _ _ _ _ other nonempty shows_ .nil
    rwa [List.append_nil] at all
  exact ⟨run, rest, rfl, some_, .inl covers⟩

/-- A step of one token that shows what it covers. -/
theorem divides_one (run : List Char) (nonempty : run ≠ []) (other : kind ≠ .stop ∧
    kind ≠ .string ∧ kind ≠ .keyword .orderBy ∧ kind ≠ .keyword .groupBy) :
    (one kind run).Divides (run ++ rest) := by
  have some_ : run.length = run.length - 1 + 1 := by
    have positive := List.length_pos_iff.mpr nonempty
    omega
  exact divides_lexeme other.1 (.plain other.2.1 other.2.2.1 other.2.2.2) some_

theorem divides_skip {run : List Char} {more : Nat} (passed : Passed rest run)
    (some_ : run.length = more + 1) : (skip more).Divides (run ++ rest) :=
  ⟨run, rest, rfl, some_, .inr ⟨rfl, passed⟩⟩

section Quote

variable {quote : Char} {content : List Char}

theorem bne_of_absent (absent : quote ∉ content) : ∀ d ∈ content, (d != quote) = true := by
  intro d member
  exact bne_iff_ne.mpr fun same => absent (same ▸ member)

theorem ofQuote_closed (absent : quote ∉ content) : ofQuote quote (content ++ quote :: rest) =
    ⟨[⟨.string, String.ofList content, 0, content.length + 2⟩], content.length + 1⟩ := by
  have inside := bne_of_absent absent
  have closes : ∀ d ∈ (quote :: rest).head?, (d != quote) = false := by
    rintro d ⟨⟩
    simp
  rw [ofQuote, List.span_eq_takeWhile_dropWhile, Text.takeWhile_run inside closes,
    Text.dropWhile_run inside closes]

theorem ofQuote_open (absent : quote ∉ cs) :
    ofQuote quote cs = if quote = '\'' then one (.symbol .quote) [quote] else skip 0 := by
  have none_ := List.dropWhile_eq_nil_iff.mpr (bne_of_absent absent)
  rw [ofQuote, List.span_eq_takeWhile_dropWhile, none_]

theorem divides_ofQuote (mark : quote = '\'' ∨ quote = '"') :
    (ofQuote quote cs).Divides (quote :: cs) := by
  by_cases closed : quote ∈ cs
  · obtain ⟨content, rest, rfl, absent⟩ := List.eq_append_cons_of_mem closed
    have width : (quote :: content ++ [quote]).length = content.length + 2 := by simp
    have string : Divides ⟨[⟨.string, String.ofList content, 0,
        (quote :: content ++ [quote]).length⟩], content.length + 1⟩
        (quote :: content ++ [quote] ++ rest) :=
      divides_lexeme (by simp) (.quoted mark absent) width
    rw [ofQuote_closed absent]
    simpa using string
  · rw [ofQuote_open closed]
    split
    next => exact divides_one [quote] (by simp) (by simp)
    next double =>
      have same : quote = '"' := mark.resolve_left double
      subst same
      exact divides_skip (.quote closed) rfl

end Quote

/-! ### Numbers -/

theorem digitRuns_single (apart : ∀ d tail, cs.dropWhile Char.isDigit = '.' :: d :: tail →
    d.isDigit ≠ true) : digitRuns cs = [cs.takeWhile Char.isDigit] := by
  rw [digitRuns]
  split
  next d tail point => rw [if_neg (apart d tail point)]
  next => rfl

/-- The runs are the head of the text, each with its point, and none is empty. -/
theorem digitRuns_head (cs : List Char) (first : ∃ d ∈ cs.head?, d.isDigit = true) :
    (∃ rest, '.' :: cs = (digitRuns cs).flatMap ('.' :: ·) ++ rest) ∧
      ∀ run ∈ digitRuns cs, run ≠ [] := by
  have run : ∀ {cs : List Char}, (∃ d ∈ cs.head?, d.isDigit = true) →
      cs.takeWhile Char.isDigit ≠ [] := by
    rintro cs ⟨d, head, digit⟩
    obtain ⟨tail, rfl⟩ := List.head?_eq_some_iff.mp head
    simp [digit]
  have last : ∀ {cs : List Char}, (∃ d ∈ cs.head?, d.isDigit = true) →
      digitRuns cs = [cs.takeWhile Char.isDigit] →
      (∃ rest, '.' :: cs = (digitRuns cs).flatMap ('.' :: ·) ++ rest) ∧
        ∀ run ∈ digitRuns cs, run ≠ [] := by
    intro cs first single
    rw [single]
    refine ⟨⟨cs.dropWhile Char.isDigit, ?_⟩, by simpa using run first⟩
    simp
  induction cs using digitRuns.induct with
  | case1 cs d tail point digit ih =>
    obtain ⟨⟨rest, covers⟩, others⟩ := ih ⟨d, rfl, digit⟩
    have digits : ∀ e ∈ cs.takeWhile Char.isDigit, e.isDigit = true :=
      List.all_eq_true.mp List.all_takeWhile
    have cut : cs = cs.takeWhile Char.isDigit ++ '.' :: d :: tail := by
      rw [← point, List.takeWhile_append_dropWhile]
    have more := @digitRuns_point _ digits (d :: tail) ⟨d, rfl, digit⟩
    rw [← cut] at more
    rw [more, List.forall_mem_cons]
    refine ⟨⟨rest, ?_⟩, run first, others⟩
    rw [List.flatMap_cons, List.append_assoc, ← covers, List.cons_append, ← cut]
  | case2 cs d tail point other =>
    refine last first (digitRuns_single fun e tail' point' => ?_)
    rw [point] at point'
    cases point'
    exact other
  | case3 cs other =>
    exact last first (digitRuns_single fun d tail point => absurd point (other d tail))

theorem digitRuns_ne_nil (cs : List Char) : digitRuns cs ≠ [] := by
  unfold digitRuns
  split
  next => split <;> exact List.cons_ne_nil _ _
  next => exact List.cons_ne_nil _ _

theorem covers_dotted {runs : List (List Char)} (n : Nat) (some_ : runs ≠ [])
    (others : ∀ run ∈ runs, run ≠ []) :
    ∃ taken, '.' :: taken = runs.flatMap ('.' :: ·) ∧ Covers n taken (dotted n runs) := by
  induction runs generalizing n with
  | nil => exact absurd rfl some_
  | cons run runs ih =>
    rw [List.forall_mem_cons] at others
    have integer : Shows .integer (String.ofList run) run := .plain (by simp) (by simp) (by simp)
    have dot : Shows (.symbol .dot) "." ['.'] := .plain (by simp) (by simp) (by simp)
    cases runs with
    | nil =>
      refine ⟨run ++ [], by simp, ?_⟩
      rw [dotted]
      exact .cons (by simp) others.1 integer .nil
    | cons next runs =>
      obtain ⟨taken, covers, rest⟩ := ih (n + run.length + 1) (by simp) others.2
      refine ⟨run ++ (['.'] ++ taken), ?_, ?_⟩
      · rw [List.flatMap_cons, ← covers]
        rfl
      · rw [dotted]
        · exact .cons (by simp) others.1 integer (.cons (by simp) (by simp) dot rest)
        · simp

theorem divides_ofRuns {runs : List (List Char)} (some_ : runs ≠ [])
    (others : ∀ run ∈ runs, run ≠ []) (covers : '.' :: cs = runs.flatMap ('.' :: ·) ++ rest) :
    (ofRuns runs).Divides cs := by
  unfold ofRuns
  split
  next run =>
    simp only [List.flatMap_cons, List.flatMap_nil, List.append_nil, List.cons_append,
      List.cons.injEq, true_and] at covers
    rw [covers]
    exact divides_one run (others run (by simp)) (by simp)
  next whole fraction =>
    simp only [List.flatMap_cons, List.flatMap_nil, List.append_nil, List.cons_append,
      List.cons.injEq, true_and] at covers
    rw [covers]
    exact divides_one (whole ++ '.' :: fraction) (by simp) (by simp)
  next =>
    obtain ⟨taken, joined, dots⟩ := covers_dotted 0 some_ others
    rw [← joined, List.cons_append, List.cons.injEq] at covers
    have positive : 0 < taken.length := by
      obtain ⟨run, more, rfl⟩ := List.exists_cons_of_ne_nil some_
      have nonempty := List.length_pos_iff.mpr (others run List.mem_cons_self)
      have width := congrArg List.length joined
      simp only [List.flatMap_cons, List.length_cons, List.length_append] at width
      omega
    refine ⟨taken, rest, covers.2, ?_, .inl dots⟩
    rw [← joined, List.length_cons]
    show taken.length = taken.length + 1 - 2 + 1
    omega

theorem divides_ofDigit (previous : Option Char) (digit : c.isDigit = true) :
    (ofDigit previous c cs).Divides (c :: cs) := by
  unfold ofDigit
  extract_lets group prefixed
  split
  next =>
    have cut : c :: cs = (c :: cs.take 1 ++ (cs.drop 1).takeWhile Text.isHexDigit)
        ++ (cs.drop 1).dropWhile Text.isHexDigit := by
      rw [List.append_assoc, List.takeWhile_append_dropWhile, List.cons_append,
        List.take_append_drop]
    rw [cut]
    exact divides_one _ (by simp) (by simp)
  next =>
    split
    next =>
      have nonempty : group ≠ [] := by
        simp [group, isHexDigit_of_isDigit digit]
      have cut : c :: cs = group ++ (c :: cs).dropWhile Text.isHexDigit :=
        List.takeWhile_append_dropWhile.symm
      rw [cut]
      exact divides_one group nonempty (by simp)
    next =>
      obtain ⟨⟨rest, covers⟩, others⟩ := digitRuns_head (c :: cs) ⟨c, rfl, digit⟩
      exact divides_ofRuns (digitRuns_ne_nil _) others covers

/-! ### Words -/

/-- One word is never the keyword of two. -/
theorem ofWord_single {word : List Char} (chars : ∀ d ∈ word, Text.isWordChar d = true) :
    Kind.ofWord (String.ofList word) ≠ .stop ∧ Kind.ofWord (String.ofList word) ≠ .string ∧
      Kind.ofWord (String.ofList word) ≠ .keyword .orderBy ∧
      Kind.ofWord (String.ofList word) ≠ .keyword .groupBy := by
  have spaceless : ' ' ∉ word.map Char.toLower := by
    intro member
    obtain ⟨d, found, lowered⟩ := List.mem_map.mp member
    have same : d = ' ' := Text.eq_of_toLower lowered (by decide)
    have letter := chars d found
    rw [same] at letter
    revert letter
    decide
  unfold Kind.ofWord
  split
  next k found =>
    obtain ⟨entry, first, rfl⟩ := Option.map_eq_some_iff.mp found
    have spelled := List.find?_some first
    rw [Text.same_iff, String.toList_ofList] at spelled
    rw [← spelled] at spaceless
    have spaced : ∀ e ∈ Keyword.spellings, ' ' ∉ e.1.toList.map Char.toLower →
        e.2 ≠ .orderBy ∧ e.2 ≠ .groupBy := by
      decide
    have proper := spaced entry (List.mem_of_find?_eq_some first) spaceless
    simpa using proper
  next => split <;> simp

theorem divides_ofLetter (letter : Text.isWordChar c = true) :
    (ofLetter c cs).Divides (c :: cs) := by
  have chars : ∀ d ∈ c :: cs.takeWhile Text.isWordChar, Text.isWordChar d = true := by
    rintro d (_ | ⟨_, later⟩)
    · exact letter
    · exact List.all_eq_true.mp List.all_takeWhile d later
  have single : (one (.ofWord (String.ofList (c :: cs.takeWhile Text.isWordChar)))
      (c :: cs.takeWhile Text.isWordChar)).Divides (c :: cs) := by
    have cut : c :: cs = c :: cs.takeWhile Text.isWordChar ++ cs.dropWhile Text.isWordChar := by
      rw [List.cons_append, List.takeWhile_append_dropWhile]
    conv => arg 2; rw [cut]
    exact divides_one _ (by simp) (ofWord_single chars)
  unfold ofLetter
  extract_lets word after blanks second text single' total
  split
  next k pair =>
    split
    next by_ =>
      simp only [Bool.and_eq_true, Bool.not_eq_true', List.isEmpty_eq_false_iff] at by_
      obtain ⟨rest, cut⟩ : ∃ rest, c :: cs = word ++ blanks ++ second ++ rest := by
        refine ⟨(after.dropWhile Text.isBlank).dropWhile Text.isWordChar, ?_⟩
        simp only [word, blanks, second, after, List.append_assoc, List.cons_append,
          List.takeWhile_append_dropWhile]
      have width : (word ++ blanks ++ second).length = total := by
        simp only [total, List.length_append]
      have some_ : (word ++ blanks ++ second).length = total - 1 + 1 := by
        have positive : 0 < (word ++ blanks ++ second).length := by simp [word]
        omega
      have blank : ∀ d ∈ blanks, Text.isBlank d = true :=
        List.all_eq_true.mp List.all_takeWhile
      have double : Divides ⟨[⟨.keyword k, text ++ " " ++ String.ofList second, 0,
          (word ++ blanks ++ second).length⟩], total - 1⟩ (word ++ blanks ++ second ++ rest) :=
        divides_lexeme (by simp) (.double pair by_.1 blank by_.2) some_
      rwa [width, ← cut] at double
    next => exact single
  next => exact single

/-- A comment is passed over up to the end of its line. -/
theorem divides_comment (cs : List Char) :
    (skip (cs.takeWhile (· != '\n')).length).Divides ('#' :: cs) := by
  have line : '\n' ∉ cs.takeWhile (· != '\n') := by
    intro member
    simpa using List.all_eq_true.mp List.all_takeWhile '\n' member
  have ended : ∀ d ∈ (cs.dropWhile (· != '\n')).head?, d = '\n' := by
    intro d head
    have stops := List.head?_dropWhile_not (· != '\n') cs
    rw [show (cs.dropWhile (· != '\n')).head? = some d from head] at stops
    simpa using stops
  have comment : (skip (cs.takeWhile (· != '\n')).length).Divides
      ('#' :: cs.takeWhile (· != '\n') ++ cs.dropWhile (· != '\n')) :=
    divides_skip (.comment line ended) rfl
  rwa [List.cons_append, List.takeWhile_append_dropWhile] at comment

theorem divides_at (previous : Option Char) (c : Char) (cs : List Char) :
    (at_ previous c cs).Divides (c :: cs) := by
  unfold at_
  split
  next blank => exact divides_skip (.blank blank) rfl
  next visible =>
    split
    next hash =>
      subst hash
      exact divides_comment cs
    next plain =>
      split
      next mark d pair =>
        obtain ⟨e, head, found⟩ := Option.bind_eq_some_iff.mp pair
        obtain ⟨m, -, same⟩ := Option.map_eq_some_iff.mp found
        cases same
        obtain ⟨rest, rfl⟩ := List.head?_eq_some_iff.mp head
        exact divides_one [c, d] (by simp) (by simp)
      next unpaired =>
        split
        next quote => exact divides_ofQuote quote
        next quotes =>
          split
          next digit => exact divides_ofDigit previous digit
          next digit =>
            split
            next letter =>
              refine divides_ofLetter ?_
              rcases letter with letter | rfl
              · simp [Text.isWordChar, Char.isAlphanum, letter]
              · rfl
            next letter =>
              split
              next mark single => exact divides_one [c] (by simp) (by simp)
              next none_ =>
                have word : Text.isWordChar c = false := by
                  simp only [not_or, Bool.not_eq_true] at digit letter
                  simp [Text.isWordChar, Char.isAlphanum, digit, letter]
                have pair : ∀ d ∈ cs.head?, Symbol.ofPair? c d = none := by
                  simpa using unpaired
                have unknown : Unknown cs c :=
                  ⟨eq_false_of_ne_true visible, plain, not_or.mp quotes, word, pair, none_⟩
                exact divides_skip (.unknown unknown) rfl

end Step

end PacketQuery.Language
