import PacketQuery.Language.Grammar
/-!
The grammar of statements as a relation between tokens and what they write. Nothing here tells how
tokens are read: phrases are put together from parts, and an expression is derived level by level,
from the operators that bind least to the operands.
-/

namespace PacketQuery.Language

/-- Which values the tokens of a list write. -/
abbrev Phrase (α : Type) :=
  List Token → α → Prop

namespace Phrase

/-! ### Parts that may be left out or repeated -/

/-- A single token, or nothing. -/
inductive Mark (kind : Kind) : Phrase Bool
  | absent : Mark kind [] false
  | present {t} : t.kind = kind → Mark kind [t] true

/-- A keyword with what follows it, or nothing. -/
inductive Clause {α : Type} (word : Keyword) (content : Phrase α) : Phrase (Option α)
  | absent : Clause word content [] none
  | present {t ts a} : t.kind = .keyword word → content ts a →
      Clause word content (t :: ts) (some a)

/-- One item or more with commas between. -/
inductive Listed {α : Type} (item : Phrase α) : Phrase (List α)
  | one {ts x} : item ts x → Listed item ts [x]
  | more {ts x t us xs} : item ts x → t.kind = .symbol .comma → Listed item us xs →
      Listed item (ts ++ t :: us) (x :: xs)

/-! ### Names, numbers and times -/

inductive FieldName : Phrase String
  | mk {t} : t.kind = .field ∨ t.kind = .name → FieldName [t] t.text

inductive SourceName : Phrase String
  | mk {t} : Parser.isSource t.kind = true → SourceName [t] t.text

inductive Unsigned : Phrase UInt64
  | mk {t n} : t.kind = .integer → Parser.integerOf? t = some n → 0 ≤ n →
      Unsigned [t] n.toUInt64

inductive Byte : Phrase UInt8
  | mk {t n} : t.kind = .integer → Parser.integerOf? t = some n → 0 ≤ n → n ≤ 255 →
      Byte [t] (UInt8.ofNat n.toInt.toNat)

/-- The sign of a distance from the present, which counts back unless it is a plus. -/
inductive Sign : Phrase Bool
  | back : Sign [] false
  | minus {t} : t.kind = .symbol .minus → Sign [t] false
  | plus {t} : t.kind = .symbol .plus → Sign [t] true

/-- A present moment: how many units it lies back. -/
inductive Present (now : Int64) : Phrase (Int64 × Time.Unit)
  | here {word opening closing} : word.kind = .keyword .now →
      opening.kind = .symbol .leftParen → closing.kind = .symbol .rightParen →
      Present now [word, opening, closing] (0, .seconds)
  | away {word opening ts ahead amount distance suffix unit offset closing} :
      word.kind = .keyword .now → opening.kind = .symbol .leftParen → Sign ts ahead →
      amount.kind = .integer → Parser.integerOf? amount = some distance →
      suffix.kind = .name → Time.Unit.ofSuffix? suffix.text = some unit →
      offset = (if ahead then -distance else distance) →
      (unit.shiftBack now offset).isSome = true → closing.kind = .symbol .rightParen →
      Present now (word :: opening :: (ts ++ [amount, suffix, closing])) (offset, unit)

theorem Present.starts {now : Int64} {ts : List Token} {a : Int64 × Time.Unit}
    (h : Present now ts a) : ∃ t us, ts = t :: us ∧ t.kind = .keyword .now := by
  cases h with
  | here word => exact ⟨_, _, rfl, word⟩
  | away word => exact ⟨_, _, rfl, word⟩

/-- A moment that bounds an interval. -/
inductive Bound (now : Int64) : Phrase Int64
  | moment {t s} : Parser.momentOf? now t = some s → Bound now [t] s
  | integer {t n} : t.kind = .integer → Parser.integerOf? t = some n → Bound now [t] n
  | present {ts offset unit s} : Present now ts (offset, unit) →
      unit.shiftBack now offset = some s → Bound now ts s

inductive Interval (now : Int64) : Phrase (Int64 × Int64)
  | mk {ts first t us last} : Bound now ts first → t.kind = .keyword .to_ → Bound now us last →
      Interval now (ts ++ t :: us) (first, last)

inductive Limit : Phrase (UInt64 × UInt64)
  | count {ts n} : Unsigned ts n → Limit ts (0, n)
  | both {ts first t us n} : Unsigned ts first → t.kind = .symbol .comma → Unsigned us n →
      Limit (ts ++ t :: us) (first, n)

/-! ### Expressions -/

/-- An operand of one token or of a fixed shape. -/
inductive Leaf (now : Int64) : Phrase Expr
  | integer {t n} : t.kind = .integer → Parser.integerOf? t = some n → Leaf now [t] (.integer n)
  | float {t x} : t.kind = .float → Parser.floatOf? t = some x → Leaf now [t] (.float x)
  | string {t} : t.kind = .string → Leaf now [t] (.string t.text)
  | true_ {t} : t.kind = .keyword .true_ → Leaf now [t] (.boolean true)
  | false_ {t} : t.kind = .keyword .false_ → Leaf now [t] (.boolean false)
  | moment {t s} : Parser.momentOf? now t = some s → Leaf now [t] (.moment s)
  | address {t a} : t.kind = .ipv4 → Parser.ipv4Of? t = some a →
      Leaf now [t] (.ipv4 (Network.of a 32))
  | network {t a slash u n} : t.kind = .ipv4 → Parser.ipv4Of? t = some a →
      slash.kind = .symbol .slash → u.kind = .integer → Parser.integerOf? u = some n → 0 ≤ n →
      n ≤ 32 → Leaf now [t, slash, u] (.ipv4 (Network.of a n.toInt.toNat))
  | mac {t m} : t.kind = .mac → Parser.macOf? t = some m → Leaf now [t] (.mac m)
  | bytes {opening ts values closing} : opening.kind = .symbol .leftBrace →
      Listed Byte ts values → closing.kind = .symbol .rightBrace →
      Leaf now (opening :: (ts ++ [closing])) (.bytes values)
  | field {t} : t.kind = .field ∨ t.kind = .name → Leaf now [t] (.field t.text)
  | protocol {t} : t.kind = .constant → Leaf now [t] (.protocol (Text.upper t.text))
  | subscript {t opening ts offset colon us length closing} :
      t.kind = .name ∨ t.kind = .constant → Text.lower t.text ∈ Parser.subscriptBases →
      opening.kind = .symbol .leftBracket → Unsigned ts offset → colon.kind = .symbol .colon →
      Unsigned us length → closing.kind = .symbol .rightBracket →
      Leaf now (t :: opening :: (ts ++ colon :: (us ++ [closing])))
        (.subscript (Text.lower t.text) offset.toNat length.toNat)
  | present {ts offset unit} : Present now ts (offset, unit) → Leaf now ts (.now offset unit)
  | wildcard {t} : t.kind = .symbol .star → Leaf now [t] .wildcard

end Phrase

/-- How tightly the parts of an expression hold together. -/
inductive Level
  /-- Two or more expressions with commas between. -/
  | list
  | disjunction
  | conjunction
  | relation
  | bits
  | sum
  | product
  | operand
  deriving DecidableEq, Repr

namespace Level

/-- The level of the operands between the operators of a level. -/
def tighter? : Level → Option Level
  | list => none
  | disjunction => some conjunction
  | conjunction => some relation
  | relation => some bits
  | bits => some sum
  | sum => some product
  | product => some operand
  | operand => none

/-- The operators of a level of which there may be several in a row. -/
def operator? : Level → Kind → Option BinaryOp
  | disjunction => Parser.disjunction?
  | conjunction => Parser.conjunction?
  | bits => Parser.bitOperator?
  | sum => Parser.sumOperator?
  | product => Parser.productOperator?
  | list | relation | operand => fun _ => none

end Level

/-- The expressions that tokens write, by level. Operators of one level go to the left, and a
relation is alone on its level. -/
inductive Derives (now : Int64) : Level → List Token → Expr → Prop
  | lift {level tighter ts e} : level.tighter? = some tighter → Derives now tighter ts e →
      Derives now level ts e
  | binary {level tighter ts left t op us right} : level.tighter? = some tighter →
      Derives now level ts left → level.operator? t.kind = some op → Derives now tighter us right →
      Derives now level (ts ++ t :: us) (.binary op left right)
  | relation {ts left t op us right} : Derives now .bits ts left →
      Parser.relation? t.kind = some op → Derives now .bits us right →
      Derives now .relation (ts ++ t :: us) (.binary op left right)
  | range {ts left t op us low u vs high} : Derives now .bits ts left →
      Parser.relation? t.kind = some op → op ≠ .range → Derives now .bits us low →
      u.kind = .keyword .to_ → Derives now .bits vs high →
      Derives now .relation (ts ++ t :: (us ++ u :: vs))
        (.binary op left (.binary .range low high))
  | prefixed {t op ts e} : Parser.unaryOperator? t.kind = some op → Derives now .operand ts e →
      Derives now .operand (t :: ts) (.unary op e)
  | leaf {ts e} : Phrase.Leaf now ts e → Derives now .operand ts e
  | group {opening ts e closing} : opening.kind = .symbol .leftParen →
      Derives now .disjunction ts e → closing.kind = .symbol .rightParen →
      Derives now .operand (opening :: (ts ++ [closing])) (.group e)
  | sequence {opening ts e closing} : opening.kind = .symbol .leftParen → Derives now .list ts e →
      closing.kind = .symbol .rightParen → Derives now .operand (opening :: (ts ++ [closing])) e
  | pair {ts e t us f} : Derives now .disjunction ts e → t.kind = .symbol .comma →
      Derives now .disjunction us f → Derives now .list (ts ++ t :: us) (.sequence [e, f])
  | more {ts e t us es} : Derives now .disjunction ts e → t.kind = .symbol .comma →
      Derives now .list us (.sequence es) → Derives now .list (ts ++ t :: us) (.sequence (e :: es))

namespace Expr

mutual

/-- Under how many parentheses and prefix operators an operand stands at most. -/
def nesting : Expr → Nat
  | .group inner => nesting inner + 1
  | .unary _ operand => nesting operand + 1
  | .binary _ left right => max (nesting left) (nesting right)
  | .sequence members => nestingOfAll members + 1
  | _ => 0

def nestingOfAll : List Expr → Nat
  | [] => 0
  | e :: es => max (nesting e) (nestingOfAll es)

end

end Expr

/-! ### Statements -/

namespace Phrase

/-- The argument of a function: a field or nothing. -/
inductive PlainArgument : Phrase (Option String)
  | none : PlainArgument [] none
  | field {ts name} : FieldName ts name → PlainArgument ts (some name)

/-- The argument of a function: a field, a `*`, which stands for nothing, or nothing. -/
inductive Argument : Phrase (Option String)
  | plain {ts name?} : PlainArgument ts name? → Argument ts name?
  | star {t} : t.kind = .symbol .star → Argument [t] none

section Statement

variable (argument : Phrase (Option String)) (now : Int64)

inductive Column : Phrase Item
  | field {ts name} : FieldName ts name → Column ts (.field name)
  | bare {word function opening ts name? closing} : Parser.aggregateOf? word.kind = some function →
      opening.kind = .symbol .leftParen → argument ts name? → closing.kind = .symbol .rightParen →
      Column (word :: opening :: (ts ++ [closing]))
        (.aggregate function name? (function.name ++ "(" ++ name?.getD "" ++ ")"))
  | labelled {word function opening ts name? closing as_ label} :
      Parser.aggregateOf? word.kind = some function → opening.kind = .symbol .leftParen →
      argument ts name? → closing.kind = .symbol .rightParen → as_.kind = .keyword .as_ →
      Parser.isLabel label.kind = true →
      Column (word :: opening :: (ts ++ [closing, as_, label]))
        (.aggregate function name? label.text)

inductive Columns : Phrase Projection
  | wildcard {t} : t.kind = .symbol .star → Columns [t] .wildcard
  | items {ts items} : Listed (Column argument) ts items → Columns ts (.items items)

/-- A statement up to the end, apart from what it refers to. -/
inductive Sentence : Phrase Statement
  | mk {select distinct? columns from_ names where_ groups orders span top_ limit_ finish distinct
      projection sources filter groupBy orderBy interval top limit closed} :
      select.kind = .keyword .select →
      Mark (.keyword .distinct) distinct? distinct →
      Columns argument columns projection →
      from_.kind = .keyword .from_ →
      Listed SourceName names sources →
      Clause .where_ (Derives now .disjunction) where_ filter →
      Clause .groupBy (Listed FieldName) groups groupBy →
      Clause .orderBy (Listed FieldName) orders orderBy →
      Clause .interval (Interval now) span interval →
      Clause .top Unsigned top_ top →
      Clause .limit Limit limit_ limit →
      Mark (.symbol .semicolon) finish closed →
      Sentence (select :: (distinct? ++ (columns ++ from_ :: (names ++ (where_ ++ (groups
          ++ (orders ++ (span ++ (top_ ++ (limit_ ++ finish))))))))))
        { distinct, projection, sources, filter, interval, top, limit
          groupBy := groupBy.getD [], orderBy := orderBy.getD [], protocols := [], networks := {} }

end Statement

end Phrase

/-- The statement apart from what it refers to. -/
def Statement.bare (s : Statement) : Statement :=
  { s with protocols := [], networks := {} }

end PacketQuery.Language
