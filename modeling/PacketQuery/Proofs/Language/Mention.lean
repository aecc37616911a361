import PacketQuery.Language.Statement
import PacketQuery.Proofs.Order
import PacketQuery.Proofs.Text.Case
/-!
What an expression refers to, in the order of its text: the dotted fields, the protocols and the
networks. Noting the mentions one after another gives the protocols and networks that narrow a
search.
-/

namespace PacketQuery.Language

/-- Something that an expression refers to. -/
inductive Mention
  | field (name : String)
  | protocol (name : String)
  | network (network : Network)

/-- With one mention. -/
def References.note (r : References) : Mention → References
  | .field name => r.addField name
  | .protocol name => r.addProtocol name
  | .network network => r.addNetwork network

/-- With mentions one after another. -/
def References.noteAll (r : References) (ms : List Mention) : References :=
  ms.foldl note r

/-- The protocol of a mention, in capitals: the one named, or the layer of a dotted field. -/
def Mention.word? : Mention → Option String
  | field name => (Text.cut '.' name).map fun parts => Text.upper parts.1
  | protocol name => some (Text.upper name)
  | network _ => none

/-- The networks among mentions whose last dotted field before them has the role. `current` is
the role that was taken up before. -/
def Mention.located (role : Role) : (current : Option Role) → List Mention → List Network
  | _, [] => []
  | current, field name :: ms =>
    if (Text.cut '.' name).isSome then located role (Role.ofField? name) ms
    else located role current ms
  | current, protocol _ :: ms => located role current ms
  | current, network n :: ms =>
    if current = some role then n :: located role current ms else located role current ms

/-- The networks for a role. -/
def Networks.ofRole (n : Networks) : Role → List Network
  | .source => n.source
  | .destination => n.destination

/-- The protocol that the bytes of a base belong to: none for the frame and the payload. -/
def Mention.ofBase (base : String) : List Mention :=
  if base ≠ "frame" ∧ base ≠ "payload" then [.protocol base] else []

namespace Expr

mutual

/-- The mentions of an expression, from left to right. -/
def mentions : Expr → List Mention
  | .field name => [.field name]
  | .subscript base _ _ => Mention.ofBase base
  | .protocol name => [.protocol name]
  | .ipv4 network => [.network network]
  | .group inner => mentions inner
  | .unary _ operand => mentions operand
  | .binary _ left right => mentions left ++ mentions right
  | .sequence members => mentionsOfAll members
  | _ => []

/-- The mentions of expressions one after another. -/
def mentionsOfAll : List Expr → List Mention
  | [] => []
  | e :: es => mentions e ++ mentionsOfAll es

end

end Expr

/-- The mentions of a column: its field, or the field that its function takes. -/
def Item.mentions : Item → List Mention
  | field name => [.field name]
  | aggregate _ argument _ => argument.toList.map .field

def Projection.mentions : Projection → List Mention
  | wildcard => []
  | items is => is.flatMap Item.mentions

/-- The mentions of a statement, in the order of its clauses. -/
def Statement.mentions (s : Statement) : List Mention :=
  s.projection.mentions ++ (s.filter.map Expr.mentions).getD [] ++ s.groupBy.map .field
    ++ s.orderBy.map .field

theorem Expr.mentionsOfAll_eq (es : List Expr) : mentionsOfAll es = es.flatMap mentions := by
  induction es with
  | nil => simp [mentionsOfAll]
  | cons e es ih => simp [mentionsOfAll, ih]

theorem cut_eq_none {sep : Char} {s : String} (h : sep ∉ s.toList) : Text.cut sep s = none := by
  have whole : s.toList.dropWhile (· != sep) = [] := by
    refine List.dropWhile_eq_nil_iff.mpr fun c member => ?_
    simpa using fun same : c = sep => h (same ▸ member)
  simp [Text.cut, List.span_eq_takeWhile_dropWhile, whole]

namespace References

@[simp] theorem noteAll_nil (r : References) : r.noteAll [] = r :=
  rfl

@[simp] theorem noteAll_cons (r : References) (m : Mention) (ms : List Mention) :
    r.noteAll (m :: ms) = (r.note m).noteAll ms :=
  rfl

@[simp] theorem noteAll_append (r : References) (ms ns : List Mention) :
    r.noteAll (ms ++ ns) = (r.noteAll ms).noteAll ns := by
  simp [noteAll]

/-- A name without a point refers to nothing. -/
theorem note_field_of_plain (r : References) {name : String} (plain : '.' ∉ name.toList) :
    r.note (.field name) = r := by
  simp [note, addField, cut_eq_none plain]

theorem mem_noteAll_protocols (r : References) (ms : List Mention) (word : String) :
    word ∈ (r.noteAll ms).protocols ↔
      word ∈ r.protocols ∨ ∃ m ∈ ms, m.word? = some word := by
  induction ms generalizing r with
  | nil => simp
  | cons m ms ih =>
    have one : word ∈ (r.note m).protocols ↔ word ∈ r.protocols ∨ m.word? = some word := by
      cases m with
      | protocol name =>
        simp [note, addProtocol, Mention.word?, Order.mem_insertText, or_comm, eq_comm]
      | network net =>
        simp only [note, addNetwork, Mention.word?, reduceCtorEq, or_false]
        split <;> rfl
      | field name =>
        simp only [note, addField, Mention.word?]
        cases Text.cut '.' name with
        | none => simp
        | some parts =>
          simp [addProtocol, Order.mem_insertText, or_comm, eq_comm]
    rw [noteAll_cons, ih, one, or_assoc]
    simp

/-- The networks of a role are those that the mentions locate there. -/
theorem noteAll_networks (r : References) (ms : List Mention) (role : Role) :
    (r.noteAll ms).networks.ofRole role =
      r.networks.ofRole role ++ Mention.located role r.role ms := by
  induction ms generalizing r with
  | nil => simp [Mention.located]
  | cons m ms ih =>
    rw [noteAll_cons, ih]
    cases m with
    | protocol name => rfl
    | field name =>
      cases parts : Text.cut '.' name with
      | none => simp [note, addField, Mention.located, parts]
      | some parts' => simp [note, addField, addProtocol, Mention.located, parts]
    | network net =>
      cases current : r.role with
      | none => simp [note, addNetwork, Mention.located, current]
      | some other =>
        cases other <;> cases role <;>
          simp [note, addNetwork, Networks.add, Networks.ofRole, Mention.located, current]

end References

end PacketQuery.Language
