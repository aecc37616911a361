import PacketQuery.Language.Scan
import PacketQuery.Proofs.Text.Numerals
/-!
How texts of known shapes are divided: blanks, words, symbols, numbers and groups of hexadecimal
digits, each with what may follow it. Where the tokens stand is left out.
-/

namespace PacketQuery.Language

/-- The token apart from where it stands. -/
def Token.unplaced (t : Token) : Kind × String :=
  (t.kind, t.text)

/-- The rest of a text after the character `previous` gives these tokens, wherever it starts. -/
def Lexes (previous : Option Char) (cs : List Char) (xs : List (Kind × String)) : Prop :=
  ∀ place, (spansFrom previous place cs).map (·.token.unplaced) = xs

theorem Lexes.unplaced {text : String} {xs : List (Kind × String)}
    (h : Lexes none text.toList xs) : (tokens text).map Token.unplaced = xs := by
  rw [tokens, List.map_map]
  exact h .start

namespace Lexes

variable {previous : Option Char} {c : Char} {more rest : List Char} {xs : List (Kind × String)}

theorem nil : Lexes previous [] [(.stop, "")] := by
  intro place
  rw [spansFrom]
  rfl

theorem of_step {step : Step} (first : Step.at_ previous c (more ++ rest) = step)
    (taken : step.more = more.length) (after : Lexes (c :: more).getLast? rest xs) :
    Lexes previous (c :: (more ++ rest)) (step.lexemes.map (fun l => (l.kind, l.text)) ++ xs) := by
  intro place
  rw [spansFrom, first, taken]
  simp only [List.take_left, List.drop_left, List.map_append, List.map_map]
  rw [after]
  rfl

theorem one {kind : Kind} (first : Step.at_ previous c (more ++ rest) = .one kind (c :: more))
    (after : Lexes (c :: more).getLast? rest xs) :
    Lexes previous (c :: (more ++ rest)) ((kind, String.ofList (c :: more)) :: xs) :=
  of_step first rfl after

end Lexes

namespace Step

variable {previous : Option Char} {c : Char} {cs : List Char}

theorem at_blank (blank : Text.isBlank c = true) : at_ previous c cs = skip 0 := by
  rw [at_, if_pos blank]

/-- A character that begins no blank, comment, pair or string. -/
theorem at_single (visible : Text.isBlank c = false) (comment : c ≠ '#')
    (alone : ∀ d ∈ cs.head?, Symbol.ofPair? c d = none) (quote : c ≠ '\'') (quotes : c ≠ '"') :
    at_ previous c cs = if c.isDigit then ofDigit previous c cs
      else if c.isAlpha ∨ c = '_' then ofLetter c cs
      else ((Symbol.ofChar? c).map fun mark => one (.symbol mark) [c]).getD (skip 0) := by
  have pair : (cs.head?.bind fun d => (Symbol.ofPair? c d).map (·, d)) = none := by
    cases head : cs.head? with
    | none => rfl
    | some d => simp [alone d head]
  rw [at_, if_neg (by simp [visible]), if_neg comment, pair]
  dsimp only
  rw [if_neg (by simp [quote, quotes])]
  cases Symbol.ofChar? c <;> rfl

theorem not_blank_of_word (word : Text.isWordChar c = true) : Text.isBlank c = false := by
  have range : 48 ≤ c.toNat ∧ c.toNat ≤ 122 := by
    simp only [Text.isWordChar, Char.isAlphanum, Char.isAlpha, Char.isUpper, Char.isLower,
      Char.isDigit, Bool.or_eq_true, Bool.and_eq_true, decide_eq_true_eq, beq_iff_eq,
      ge_iff_le, UInt32.le_iff_toNat_le] at word
    rcases word with ((⟨low, high⟩ | ⟨low, high⟩) | ⟨low, high⟩) | rfl
    · exact ⟨le_trans (by decide) low, le_trans high (by decide)⟩
    · exact ⟨le_trans (by decide) low, le_trans high (by decide)⟩
    · exact ⟨le_trans (by decide) low, le_trans high (by decide)⟩
    · decide
  simp only [Text.isBlank, Text.blankRanges, List.any_cons, List.any_nil, Bool.or_eq_false_iff,
    Bool.and_eq_false_iff, decide_eq_false_iff_not, and_true, not_le]
  refine ⟨?_, ?_, ?_, ?_, ?_, ?_, ?_, ?_, ?_, ?_⟩ <;> omega

theorem ofPair?_of_word (word : Text.isWordChar c = true) (d : Char) :
    Symbol.ofPair? c d = none := by
  unfold Symbol.ofPair?
  split
  all_goals first | rfl | cases word

/-- The characters of words and numbers begin nothing else. -/
theorem at_word (word : Text.isWordChar c = true) :
    at_ previous c cs = if c.isDigit then ofDigit previous c cs else ofLetter c cs := by
  have other : ∀ {d}, Text.isWordChar d = false → c ≠ d := by
    rintro d no rfl
    cases no.symm.trans word
  rw [at_single (not_blank_of_word word) (other rfl) (fun d _ => ofPair?_of_word word d)
    (other rfl) (other rfl)]
  split
  next => rfl
  next digit =>
    have letter : c.isAlpha ∨ c = '_' := by
      simpa [Text.isWordChar, Char.isAlphanum, digit] using word
    rw [if_pos letter]

theorem at_mark {mark : Symbol} (single : Symbol.ofChar? c = some mark) (quote : c ≠ '\'')
    (alone : ∀ d ∈ cs.head?, Symbol.ofPair? c d = none) :
    at_ previous c cs = one (.symbol mark) [c] := by
  unfold Symbol.ofChar? at single
  split at single <;> cases single
  all_goals
    rw [at_single rfl (by decide) alone quote (by decide)]
    rfl

section Continued

variable {more rest : List Char}

theorem ofLetter_word (word : ∀ d ∈ more, Text.isWordChar d = true)
    (ends : ∀ d ∈ rest.head?, Text.isWordChar d = false)
    (single : pairKeyword? (String.ofList (c :: more)) = none) :
    ofLetter c (more ++ rest) = one (.ofWord (String.ofList (c :: more))) (c :: more) := by
  unfold ofLetter
  rw [Text.takeWhile_run word ends]
  dsimp only
  rw [single]

theorem isHexDigit_of_isDigit {d : Char} (digit : d.isDigit = true) :
    Text.isHexDigit d = true := by
  simp [Text.isHexDigit, digit]

/-- The step at runs of digits with points between. -/
def ofRuns : List (List Char) → Step
  | [run] => one .integer run
  | [whole, fraction] => one .float (whole ++ '.' :: fraction)
  | runs => ⟨dotted 0 runs, (runs.flatMap ('.' :: ·)).length - 2⟩

/-- A number that is not in the notation with `0x`. -/
theorem ofDigit_of_group (digit : c.isDigit = true) (hex : ∀ d ∈ more, Text.isHexDigit d = true)
    (ends : ∀ d ∈ rest.head?, Text.isHexDigit d = false ∧ d ≠ 'x' ∧ d ≠ 'X') :
    ofDigit previous c (more ++ rest) =
      if previous = some ':' ∨ rest.head? = some ':' then one .integer (c :: more)
      else ofRuns (digitRuns (c :: (more ++ rest))) := by
  have all : ∀ d ∈ c :: more, Text.isHexDigit d = true := by
    rintro d (_ | ⟨_, member⟩)
    · exact isHexDigit_of_isDigit digit
    · exact hex d member
  have group : (c :: (more ++ rest)).takeWhile Text.isHexDigit = c :: more :=
    Text.takeWhile_run all fun d head => (ends d head).1
  have next : (c :: (more ++ rest))[(c :: more).length]? = rest.head? := by
    rw [← List.cons_append, List.getElem?_append_right le_rfl, Nat.sub_self, List.head?_eq_getElem?]
  unfold ofDigit
  extract_lets group' prefixed
  have unprefixed : prefixed = false := by
    dsimp only [prefixed]
    split
    next _ x h tail written =>
      have second : x ≠ 'x' ∧ x ≠ 'X' := by
        cases more with
        | nil =>
          have head : x ∈ rest.head? := by
            rw [show rest = x :: h :: tail from written]
            rfl
          exact (ends x head).2
        | cons d more =>
          have digit := hex d List.mem_cons_self
          rw [List.cons_append, List.cons.injEq] at written
          rw [written.1] at digit
          constructor <;> rintro rfl <;> cases digit
      simp [second]
    next => rfl
  rw [unprefixed, if_neg Bool.false_ne_true]
  have same : group' = c :: more := group
  rw [same, next]
  congr 1

end Continued

section Digits

variable {run rest : List Char} (digits : ∀ d ∈ run, d.isDigit = true)
include digits

theorem digitRuns_last (ends : ∀ d ∈ rest.head?, d.isDigit = false ∧ d ≠ '.') :
    digitRuns (run ++ rest) = [run] := by
  have stops : ∀ d ∈ rest.head?, d.isDigit = false := fun d head => (ends d head).1
  have before := Text.takeWhile_run digits stops
  have after := Text.dropWhile_run digits stops
  rw [digitRuns]
  split
  next d tail point =>
    have head : '.' ∈ rest.head? := by
      rw [← after, point]
      rfl
    exact absurd rfl (ends '.' head).2
  next => rw [before]

theorem digitRuns_point {next : List Char} (some_ : ∃ d ∈ next.head?, d.isDigit = true) :
    digitRuns (run ++ '.' :: next) = run :: digitRuns next := by
  obtain ⟨d, head, digit⟩ := some_
  obtain ⟨tail, rfl⟩ := List.head?_eq_some_iff.mp head
  have stops : ∀ e ∈ ('.' :: d :: tail).head?, e.isDigit = false := by
    rintro e ⟨⟩
    rfl
  have before := Text.takeWhile_run digits stops
  have after := Text.dropWhile_run digits stops
  rw [digitRuns]
  split
  next e tail' point =>
    rw [after] at point
    cases point
    rw [if_pos digit, before]
  next other => exact absurd after (other d tail)

end Digits

end Step

/-- The text is one word of a kind. -/
structure Spelled (s : String) (kind : Kind) : Prop where
  letter : ∃ c ∈ s.toList.head?, c.isAlpha = true
  word : s.toList.all Text.isWordChar = true
  single : Step.pairKeyword? s = none
  named : Kind.ofWord s = kind

namespace Lexes

variable {previous : Option Char} {c : Char} {more rest : List Char} {xs : List (Kind × String)}

theorem blank (after : Lexes (some ' ') rest xs) : Lexes previous (' ' :: rest) xs :=
  @of_step previous ' ' [] rest xs _ (Step.at_blank rfl) rfl after

theorem mark {m : Symbol} {text : String} (single : Symbol.ofChar? c = some m) (quote : c ≠ '\'')
    (alone : ∀ d ∈ rest.head?, Symbol.ofPair? c d = none) (written : String.ofList [c] = text)
    (after : Lexes (some c) rest xs) : Lexes previous (c :: rest) ((.symbol m, text) :: xs) := by
  subst written
  exact @one previous c [] rest xs _ (Step.at_mark single quote alone) after

theorem word {kind : Kind} {text : String} (letter : c.isAlpha = true)
    (word : ∀ d ∈ more, Text.isWordChar d = true)
    (ends : ∀ d ∈ rest.head?, Text.isWordChar d = false)
    (written : String.ofList (c :: more) = text) (single : Step.pairKeyword? text = none)
    (named : Kind.ofWord text = kind) (after : ∀ q, Lexes q rest xs) :
    Lexes previous (c :: (more ++ rest)) ((kind, text) :: xs) := by
  have first : Text.isWordChar c = true := by
    simp [Text.isWordChar, Char.isAlphanum, letter]
  have digit : c.isDigit = false := by
    have low : 65 ≤ c.val.toNat := by
      simp only [Char.isAlpha, Char.isUpper, Char.isLower, Bool.or_eq_true, Bool.and_eq_true,
        decide_eq_true_eq, ge_iff_le, UInt32.le_iff_toNat_le] at letter
      rcases letter with ⟨low, _⟩ | ⟨low, _⟩
      · exact low
      · exact le_trans (by decide) low
    simp only [Char.isDigit, Bool.and_eq_false_iff, decide_eq_false_iff_not,
      UInt32.le_iff_toNat_le]
    exact .inr fun high => absurd (low.trans high) (by decide)
  subst written named
  refine one ?_ (after _)
  rw [Step.at_word first, if_neg (by simp [digit]), Step.ofLetter_word word ends single]

theorem spelled {kind : Kind} {s : String} (spelled : Spelled s kind)
    (ends : ∀ d ∈ rest.head?, Text.isWordChar d = false) (after : ∀ q, Lexes q rest xs) :
    Lexes previous (s.toList ++ rest) ((kind, s) :: xs) := by
  obtain ⟨⟨c, head, letter⟩, all, single, named⟩ := spelled
  obtain ⟨more, shape⟩ := List.head?_eq_some_iff.mp head
  have written : String.ofList (c :: more) = s := by rw [← shape, String.ofList_toList]
  rw [shape] at all ⊢
  rw [List.all_cons, Bool.and_eq_true, List.all_eq_true] at all
  exact .word letter all.2 ends written single named after

section Number

variable (digit : c.isDigit = true)
include digit

theorem at_digit : Step.at_ previous c rest = Step.ofDigit previous c rest := by
  have first : Text.isWordChar c = true := by
    simp [Text.isWordChar, Char.isAlphanum, digit]
  rw [Step.at_word first, if_pos digit]

/-- A group of hexadecimal digits next to a colon. -/
theorem group (hex : ∀ d ∈ more, Text.isHexDigit d = true)
    (ends : ∀ d ∈ rest.head?, Text.isHexDigit d = false ∧ d ≠ 'x' ∧ d ≠ 'X')
    (colon : previous = some ':' ∨ rest.head? = some ':') (after : ∀ q, Lexes q rest xs) :
    Lexes previous (c :: (more ++ rest)) ((.integer, String.ofList (c :: more)) :: xs) := by
  refine one ?_ (after _)
  rw [at_digit digit, Step.ofDigit_of_group digit hex ends, if_pos colon]

end Number

/-- Digits are one number, whether it is next to a colon or not. -/
theorem numeral {s : String} (numeral : Text.IsNumeral s.toList)
    (ends : ∀ d ∈ rest.head?, Text.isHexDigit d = false ∧ d ∉ ['x', 'X', '.'])
    (after : ∀ q, Lexes q rest xs) : Lexes previous (s.toList ++ rest) ((.integer, s) :: xs) := by
  obtain ⟨c, more, shape⟩ := List.exists_cons_of_ne_nil numeral.nonempty
  have written : s = String.ofList (c :: more) := by rw [← shape, String.ofList_toList]
  have digits := numeral.digits
  rw [shape] at digits
  have digit : c.isDigit = true := digits c List.mem_cons_self
  have hex : ∀ d ∈ more, Text.isHexDigit d = true :=
    fun d member => Step.isHexDigit_of_isDigit (digits d (List.mem_cons_of_mem c member))
  simp only [List.mem_cons, List.not_mem_nil, or_false, not_or] at ends
  have stops : ∀ d ∈ rest.head?, Text.isHexDigit d = false ∧ d ≠ 'x' ∧ d ≠ 'X' :=
    fun d head => ⟨(ends d head).1, (ends d head).2.1, (ends d head).2.2.1⟩
  have runs : Step.digitRuns (c :: (more ++ rest)) = [c :: more] := by
    refine Step.digitRuns_last digits fun d head => ⟨?_, (ends d head).2.2.2⟩
    have other := (ends d head).1
    rw [← Bool.not_eq_true] at other ⊢
    exact fun same => other (Step.isHexDigit_of_isDigit same)
  have first : Step.at_ previous c (more ++ rest) = .one .integer (c :: more) := by
    rw [at_digit digit, Step.ofDigit_of_group digit hex stops, runs]
    exact ite_self _
  rw [shape, written]
  exact one first (after _)

/-- Four numbers with points between. -/
theorem quad {a b c d : String} (numerals : ∀ s ∈ [a, b, c, d], Text.IsNumeral s.toList)
    (apart : previous ≠ some ':') (ends : ∀ e ∈ rest.head?, e.isDigit = false ∧ e ≠ '.')
    (after : ∀ q, Lexes q rest xs) :
    Lexes previous ((a ++ "." ++ b ++ "." ++ c ++ "." ++ d).toList ++ rest)
      ((.integer, a) :: (.symbol .dot, ".") :: (.integer, b) :: (.symbol .dot, ".")
        :: (.integer, c) :: (.symbol .dot, ".") :: (.integer, d) :: xs) := by
  simp only [List.forall_mem_cons, List.not_mem_nil, false_implies, implies_true, and_true]
    at numerals
  obtain ⟨a', b', c', d'⟩ := numerals
  have head : ∀ {s : String} {next : List Char}, Text.IsNumeral s.toList →
      ∃ e ∈ (s.toList ++ next).head?, e.isDigit = true := by
    intro s next numeral
    obtain ⟨y, ys, shape⟩ := List.exists_cons_of_ne_nil numeral.nonempty
    exact ⟨y, by rw [shape]; rfl, numeral.digits y (shape ▸ List.mem_cons_self)⟩
  have cut : Step.digitRuns (a.toList ++ '.' :: (b.toList ++ '.' :: (c.toList ++ '.' ::
      (d.toList ++ rest)))) = [a.toList, b.toList, c.toList, d.toList] := by
    rw [Step.digitRuns_point a'.digits (head b'), Step.digitRuns_point b'.digits (head c'),
      Step.digitRuns_point c'.digits (head d'), Step.digitRuns_last d'.digits ends]
  obtain ⟨x, ys, shape⟩ := List.exists_cons_of_ne_nil a'.nonempty
  have digits := a'.digits
  rw [shape] at cut digits
  have digit : x.isDigit = true := digits x List.mem_cons_self
  have hex : ∀ e ∈ ys, Text.isHexDigit e = true :=
    fun e member => Step.isHexDigit_of_isDigit (digits e (List.mem_cons_of_mem x member))
  let tail := '.' :: (b.toList ++ '.' :: (c.toList ++ '.' :: d.toList))
  have stops : ∀ e ∈ (tail ++ rest).head?, Text.isHexDigit e = false ∧ e ≠ 'x' ∧ e ≠ 'X' := by
    rintro e ⟨⟩
    decide
  have first : Step.at_ previous x (ys ++ tail ++ rest)
      = Step.ofRuns [x :: ys, b.toList, c.toList, d.toList] := by
    rw [List.append_assoc, at_digit digit, Step.ofDigit_of_group digit hex stops,
      if_neg (by simp [apart, tail])]
    refine congrArg Step.ofRuns (Eq.trans ?_ cut)
    simp [tail]
  have whole := of_step first (by simp [Step.ofRuns, tail]) (after _)
  rw [← List.cons_append, ← List.cons_append, ← shape] at whole
  simpa [Step.ofRuns, Step.dotted, ← shape, tail] using whole

end Lexes

end PacketQuery.Language
