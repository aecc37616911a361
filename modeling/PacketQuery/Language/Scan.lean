import PacketQuery.Language.Token
import PacketQuery.Text.Blank
/-!
The division of a text into tokens. Each step takes one character or more from the head of the
text and gives the tokens among them; blanks, comments and unknown characters give none. Tokens
keep the part of the text that they cover.
-/

namespace PacketQuery.Language

/-- A place in a text: the characters before it, and its line and column counted from one. -/
structure Place where
  offset : Nat
  line : Nat
  column : Nat
  deriving DecidableEq, Repr

namespace Place

def start : Place := ⟨0, 1, 1⟩

/-- The place after one character. -/
def after (p : Place) (c : Char) : Place :=
  if c = '\n' then ⟨p.offset + 1, p.line + 1, 1⟩ else ⟨p.offset + 1, p.line, p.column + 1⟩

def afterAll (p : Place) (cs : List Char) : Place :=
  cs.foldl after p

end Place

/-- A token found in a step; `start` counts characters from the step's first, and `width` is how
many the token covers. -/
structure Lexeme where
  kind : Kind
  text : String
  start : Nat
  width : Nat
  deriving DecidableEq, Repr

/-- What a step finds, and how many characters it takes after its first. -/
structure Step where
  lexemes : List Lexeme
  more : Nat
  deriving DecidableEq, Repr

namespace Step

/-- A step that takes `more` further characters and gives nothing. -/
def skip (more : Nat) : Step := ⟨[], more⟩

/-- A step that is one token with the text `cs`, which it covers. -/
def one (kind : Kind) (cs : List Char) : Step :=
  ⟨[⟨kind, String.ofList cs, 0, cs.length⟩], cs.length - 1⟩

/-- A string up to the next quote of its kind. Without one a single quote is a symbol and a
double quote nothing. -/
def ofQuote (quote : Char) (cs : List Char) : Step :=
  match cs.span (· != quote) with
  | (content, _ :: _) =>
    ⟨[⟨.string, String.ofList content, 0, content.length + 2⟩], content.length + 1⟩
  | (_, []) => if quote = '\'' then one (.symbol .quote) [quote] else skip 0

/-- The runs of digits at the head of a text that are joined by single points. -/
def digitRuns (cs : List Char) : List (List Char) :=
  match _h : cs.dropWhile Char.isDigit with
  | '.' :: d :: rest =>
    if d.isDigit then cs.takeWhile Char.isDigit :: digitRuns (d :: rest)
    else [cs.takeWhile Char.isDigit]
  | _ => [cs.takeWhile Char.isDigit]
termination_by cs.length
decreasing_by
  have := (List.dropWhile_sublist Char.isDigit (l := cs)).length_le
  rw [_h] at this
  simp only [List.length_cons] at this ⊢
  omega

/-- Runs of digits as integers with dots between. -/
def dotted (start : Nat) : List (List Char) → List Lexeme
  | [] => []
  | [run] => [⟨.integer, String.ofList run, start, run.length⟩]
  | run :: runs =>
    ⟨.integer, String.ofList run, start, run.length⟩ ::
      ⟨.symbol .dot, ".", start + run.length, 1⟩ :: dotted (start + run.length + 1) runs

/-- A number. After `0x` hexadecimal digits follow. Next to a colon it is a group of hexadecimal
digits. Otherwise one run of digits is an integer, two joined by a point are a float, and more
are integers and dots. -/
def ofDigit (previous : Option Char) (c : Char) (cs : List Char) : Step :=
  let group := (c :: cs).takeWhile Text.isHexDigit
  let prefixed := match c, cs with
    | '0', x :: h :: _ => (x == 'x' || x == 'X') && Text.isHexDigit h
    | _, _ => false
  if prefixed then one .integer (c :: cs.take 1 ++ (cs.drop 1).takeWhile Text.isHexDigit)
  else if previous = some ':' ∨ (c :: cs)[group.length]? = some ':' then one .integer group
  else
    match digitRuns (c :: cs) with
    | [run] => one .integer run
    | [whole, fraction] => one .float (whole ++ '.' :: fraction)
    -- Each run is counted with a dot; the first has none, and its first digit is `c`.
    | runs => ⟨dotted 0 runs, (runs.flatMap ('.' :: ·)).length - 2⟩

/-- The keyword that a word begins together with a following `by`. -/
def pairKeyword? (word : String) : Option Keyword :=
  if Text.same word "order" then some .orderBy
  else if Text.same word "group" then some .groupBy
  else none

/-- A word, or two that make one keyword with only blanks between. -/
def ofLetter (c : Char) (cs : List Char) : Step :=
  let word := c :: cs.takeWhile Text.isWordChar
  let after := cs.dropWhile Text.isWordChar
  let blanks := after.takeWhile Text.isBlank
  let second := (after.dropWhile Text.isBlank).takeWhile Text.isWordChar
  let text := String.ofList word
  let single := one (.ofWord text) word
  match pairKeyword? text with
  | some k =>
    if !blanks.isEmpty && Text.same (String.ofList second) "by" then
      let width := word.length + blanks.length + second.length
      ⟨[⟨.keyword k, text ++ " " ++ String.ofList second, 0, width⟩], width - 1⟩
    else single
  | none => single

/-- The step at a text that starts with `c`, where `previous` is the character before it. -/
def at_ (previous : Option Char) (c : Char) (cs : List Char) : Step :=
  if Text.isBlank c then skip 0
  else if c = '#' then skip (cs.takeWhile (· != '\n')).length
  else
    match cs.head?.bind fun d => (Symbol.ofPair? c d).map (·, d) with
    | some (mark, d) => one (.symbol mark) [c, d]
    | none =>
      if c = '\'' ∨ c = '"' then ofQuote c cs
      else if c.isDigit then ofDigit previous c cs
      else if c.isAlpha ∨ c = '_' then ofLetter c cs
      else
        match Symbol.ofChar? c with
        | some mark => one (.symbol mark) [c]
        | none => skip 0

end Step

/-- A token with the characters that it covers, counted from the start of the text. -/
structure Span where
  token : Token
  start : Nat
  stop : Nat
  deriving DecidableEq, Repr

/-- The lexeme of a step that takes `taken` at `place`. -/
def Span.ofLexeme (place : Place) (taken : List Char) (l : Lexeme) : Span :=
  let here := place.afterAll (taken.take l.start)
  ⟨⟨l.kind, l.text, here.line, here.column⟩, here.offset, here.offset + l.width⟩

/-- The tokens of the rest of a text, which starts at `place` after the character `previous`. -/
def spansFrom (previous : Option Char) (place : Place) : List Char → List Span
  | [] => [⟨⟨.stop, "", place.line, place.column⟩, place.offset, place.offset⟩]
  | c :: cs =>
    let step := Step.at_ previous c cs
    let taken := c :: cs.take step.more
    step.lexemes.map (Span.ofLexeme place taken)
      ++ spansFrom taken.getLast? (place.afterAll taken) (cs.drop step.more)
termination_by cs => cs.length
decreasing_by
  simp only [List.length_drop, List.length_cons]
  omega

/-- The tokens of a text with the parts that they cover; the last is its end. -/
def spans (text : String) : List Span :=
  spansFrom none .start text.toList

def tokens (text : String) : List Token :=
  (spans text).map (·.token)

end PacketQuery.Language
