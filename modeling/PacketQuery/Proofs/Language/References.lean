import PacketQuery.Proofs.Language.Harvest
import PacketQuery.Proofs.Language.Location
import PacketQuery.Proofs.Language.Parentheses
import PacketQuery.Proofs.Text.Numerals
/-!
The protocols and networks of a statement, told from the statement alone. A protocol is there if a
field, a protocol or a byte subscript names it; a network is there for a role if the last dotted
field before it is an address field of that role. What was referred to before is forgotten.
-/

namespace PacketQuery.Language

/-- The fields of the columns, those that functions take among them. -/
def Item.fieldNames : Item → List String
  | field name => [name]
  | aggregate _ argument _ => argument.toList

def Projection.fieldNames : Projection → List String
  | wildcard => []
  | items is => is.flatMap Item.fieldNames

namespace Statement

variable (s : Statement)

/-- The parts of the filter, from left to right. -/
def filterParts : List Expr :=
  (s.filter.map Expr.parts).getD []

/-- The name is that of a field anywhere in the statement. -/
def HasField (name : String) : Prop :=
  name ∈ s.projection.fieldNames ∨ .field name ∈ s.filterParts ∨ name ∈ s.groupBy ∨
    name ∈ s.orderBy

/-- The statement names a protocol, written in capitals. -/
inductive Names : String → Prop
  | layer {name layer field : String} :
      s.HasField name → name.toList = layer.toList ++ '.' :: field.toList →
      '.' ∉ layer.toList → Names (Text.upper layer)
  | protocol {name : String} : .protocol name ∈ s.filterParts → Names (Text.upper name)
  | bytes {base : String} {offset length : Nat} :
      .subscript base offset length ∈ s.filterParts → base ≠ "frame" → base ≠ "payload" →
      Names (Text.upper base)

end Statement

/-- The names of the field with the address of a role, in small letters. -/
def Role.fieldNames : Role → List String
  | source => ["ip.src", "ipv4.src"]
  | destination => ["ip.dst", "ipv4.dst"]

/-- The name is that of the field with the address of the role, in any case. -/
def Role.owns (role : Role) (name : String) : Bool :=
  role.fieldNames.any (Text.same · name)

namespace Expr

/-- The dotted field that the expression is. -/
def dotted? : Expr → Option String
  | .field name => if '.' ∈ name.toList then some name else none
  | _ => none

def network? : Expr → Option Network
  | .ipv4 network => some network
  | _ => none

/-- The last of the expressions that is a dotted field is an address field of the role. -/
def lastOwned (role : Role) (before : List Expr) : Bool :=
  (before.filterMap dotted?).getLast?.any role.owns

/-- The networks among the expressions for which the last dotted field before them is an address
field of the role. -/
def networksOf (role : Role) (parts : List Expr) : List Network :=
  (parts.zip parts.inits).filterMap fun p => p.1.network?.filter fun _ => lastOwned role p.2

/-- What an expression mentions itself, its operands left out. -/
def ownMentions : Expr → List Mention
  | .field name => [.field name]
  | .subscript base _ _ => Mention.ofBase base
  | .protocol name => [.protocol name]
  | .ipv4 network => [.network network]
  | _ => []

mutual

theorem mentions_eq_flatMap : ∀ e : Expr, e.mentions = e.parts.flatMap ownMentions
  | .group inner => by
    simp only [mentions, parts, List.flatMap_cons, ownMentions, List.nil_append]
    exact mentions_eq_flatMap inner
  | .unary _ operand => by
    simp only [mentions, parts, List.flatMap_cons, ownMentions, List.nil_append]
    exact mentions_eq_flatMap operand
  | .binary _ left right => by
    simp only [mentions, parts, List.flatMap_cons, ownMentions, List.nil_append,
      List.flatMap_append]
    rw [mentions_eq_flatMap left, mentions_eq_flatMap right]
  | .sequence members => by
    simp only [mentions, parts, List.flatMap_cons, ownMentions, List.nil_append]
    exact mentionsOfAll_eq_flatMap members
  | .integer _ | .float _ | .boolean _ | .string _ | .moment _ | .now .. | .ipv4 _ | .mac _
  | .bytes _ | .field _ | .subscript .. | .protocol _ | .wildcard => by
    simp [mentions, parts, ownMentions]

theorem mentionsOfAll_eq_flatMap :
    ∀ es : List Expr, mentionsOfAll es = (partsOfAll es).flatMap ownMentions
  | [] => by simp [mentionsOfAll, partsOfAll]
  | e :: es => by
    simp only [mentionsOfAll, partsOfAll, List.flatMap_append]
    rw [mentions_eq_flatMap e, mentionsOfAll_eq_flatMap es]

end

end Expr

/-- The expressions of a statement up to the end of its filter: the fields of the columns and the
parts of the filter. -/
def Statement.compared (s : Statement) : List Expr :=
  s.projection.fieldNames.map .field ++ s.filterParts

theorem Statement.mentions_eq (s : Statement) : s.mentions =
    s.compared.flatMap Expr.ownMentions ++ (s.groupBy ++ s.orderBy).map .field := by
  have columns : s.projection.mentions = s.projection.fieldNames.map Mention.field := by
    cases s.projection with
    | wildcard => rfl
    | items is =>
      simp only [Projection.mentions, Projection.fieldNames, List.map_flatMap]
      refine List.flatMap_congr fun item _ => ?_
      cases item <;> rfl
  have filter : (s.filter.map Expr.mentions).getD [] = s.filterParts.flatMap Expr.ownMentions := by
    unfold filterParts
    cases s.filter with
    | none => rfl
    | some e => exact e.mentions_eq_flatMap
  rw [mentions, columns, filter, compared, List.flatMap_append, List.flatMap_map, List.map_append,
    List.map_eq_flatMap]
  simp only [Expr.ownMentions, List.append_assoc]

/-! ### Protocols -/

theorem exists_cut {sep : Char} {s : String} (inside : sep ∈ s.toList) :
    ∃ before after, Text.cut sep s = some (before, after) := by
  obtain ⟨cs, ds, shape, absent⟩ := List.eq_append_cons_of_mem inside
  refine ⟨String.ofList cs, String.ofList ds, Text.cut_eq_some ?_ ?_⟩
  · rwa [String.toList_ofList]
  · rwa [String.toList_ofList, String.toList_ofList]

theorem cut_eq_some_iff {sep : Char} {s before after : String} :
    Text.cut sep s = some (before, after) ↔
      s.toList = before.toList ++ sep :: after.toList ∧ sep ∉ before.toList := by
  constructor
  · intro h
    by_cases inside : sep ∈ s.toList
    · obtain ⟨cs, ds, shape, absent⟩ := List.eq_append_cons_of_mem inside
      have cut : Text.cut sep s = some (String.ofList cs, String.ofList ds) :=
        Text.cut_eq_some (by rwa [String.toList_ofList]) (by simpa using shape)
      cases cut.symm.trans h
      simpa using ⟨shape, absent⟩
    · cases (cut_eq_none inside).symm.trans h
  · intro h
    exact Text.cut_eq_some h.2 h.1

theorem mem_ofBase {m : Mention} {base : String} :
    m ∈ Mention.ofBase base ↔ m = .protocol base ∧ base ≠ "frame" ∧ base ≠ "payload" := by
  unfold Mention.ofBase
  split
  next proper => simp [proper]
  next other => simpa using fun _ frame payload => other ⟨frame, payload⟩

namespace Statement

variable {s : Statement}

theorem field_mem_mentions {name : String} : .field name ∈ s.mentions ↔ s.HasField name := by
  have own : ∀ e : Expr, Mention.field name ∈ e.ownMentions ↔ e = .field name := by
    intro e
    cases e with
    | subscript base offset length => simp [Expr.ownMentions, mem_ofBase]
    | _ => simp [Expr.ownMentions, eq_comm]
  rw [mentions_eq, List.mem_append, List.mem_flatMap]
  simp [own, compared, HasField, or_assoc]

theorem protocol_mem_mentions {name : String} : .protocol name ∈ s.mentions ↔
    .protocol name ∈ s.filterParts ∨
      ∃ offset length, .subscript name offset length ∈ s.filterParts ∧ name ≠ "frame" ∧
        name ≠ "payload" := by
  have own : ∀ e : Expr, Mention.protocol name ∈ e.ownMentions ↔ e = .protocol name ∨
      ∃ offset length, e = .subscript name offset length ∧ name ≠ "frame" ∧ name ≠ "payload" := by
    intro e
    cases e with
    | subscript base offset length =>
      simp only [Expr.ownMentions, mem_ofBase, Mention.protocol.injEq, reduceCtorEq, false_or,
        Expr.subscript.injEq]
      constructor
      · rintro ⟨rfl, proper⟩
        exact ⟨offset, length, ⟨rfl, rfl, rfl⟩, proper⟩
      · rintro ⟨_, _, ⟨rfl, _, _⟩, proper⟩
        exact ⟨rfl, proper⟩
    | _ => simp [Expr.ownMentions, eq_comm]
  have part : ∀ e ∈ s.compared, (∀ name, e ≠ .field name) → e ∈ s.filterParts := by
    intro e member other
    rcases List.mem_append.mp member with column | part
    · obtain ⟨name, -, rfl⟩ := List.mem_map.mp column
      exact absurd rfl (other name)
    · exact part
  rw [mentions_eq, List.mem_append, List.mem_flatMap]
  constructor
  · rintro (⟨e, member, mentioned⟩ | member)
    · rcases (own e).mp mentioned with rfl | ⟨offset, length, rfl, proper⟩
      · exact .inl (part _ member (by simp))
      · exact .inr ⟨offset, length, part _ member (by simp), proper⟩
    · simp at member
  · rintro (member | ⟨offset, length, member, proper⟩)
    · exact .inl ⟨_, List.mem_append_right _ member, (own _).mpr (.inl rfl)⟩
    · exact .inl ⟨_, List.mem_append_right _ member, (own _).mpr (.inr ⟨_, _, rfl, proper⟩)⟩

/-- The words of the mentions are the protocols that the statement names. -/
theorem names_iff (word : String) : s.Names word ↔ ∃ m ∈ s.mentions, m.word? = some word := by
  constructor
  · rintro (⟨field, shape, absent⟩ | member | ⟨member, frame, payload⟩)
    · refine ⟨_, field_mem_mentions.mpr field, ?_⟩
      rw [Mention.word?, Text.cut_eq_some absent shape]
      rfl
    · exact ⟨_, protocol_mem_mentions.mpr (.inl member), rfl⟩
    · exact ⟨_, protocol_mem_mentions.mpr (.inr ⟨_, _, member, frame, payload⟩), rfl⟩
  · rintro ⟨m, member, worded⟩
    cases m with
    | field name =>
      obtain ⟨parts, cut, rfl⟩ := Option.map_eq_some_iff.mp worded
      obtain ⟨shape, absent⟩ := cut_eq_some_iff.mp cut
      exact .layer (field_mem_mentions.mp member) shape absent
    | protocol name =>
      cases worded
      rcases protocol_mem_mentions.mp member with named | ⟨offset, length, bytes, frame, payload⟩
      · exact .protocol named
      · exact .bytes bytes frame payload
    | network net => cases worded

end Statement

/-! ### Networks -/

theorem Role.owns_iff {role : Role} {name : String} : role.owns name = true ↔
    ∃ layer ∈ ["ip", "ipv4"], Text.same (layer ++ "." ++ role.word) name = true := by
  cases role <;> simp [owns, fieldNames, word]

theorem append_cons_inj {sep : Char} {as cs : List Char} (first : sep ∉ as) (second : sep ∉ cs)
    (bs ds : List Char) : as ++ sep :: bs = cs ++ sep :: ds ↔ as = cs ∧ bs = ds := by
  induction as generalizing cs with
  | nil =>
    cases cs with
    | nil => simp
    | cons c cs =>
      have other : sep ≠ c := fun same => second (same ▸ List.mem_cons_self)
      simp [other]
  | cons a as ih =>
    rw [List.mem_cons, not_or] at first
    cases cs with
    | nil => simp [Ne.symm first.1]
    | cons c cs =>
      rw [List.mem_cons, not_or] at second
      simp [ih first.2 second.2, and_assoc]

theorem point_notMem_lower {cs : List Char} (absent : '.' ∉ cs) : '.' ∉ cs.map Char.toLower := by
  intro member
  obtain ⟨c, inside, point⟩ := List.mem_map.mp member
  exact absent (Text.eq_of_toLower point (by decide) ▸ inside)

/-- Dotted names are alike if their layers and their fields are. -/
theorem same_dotted {layer field name first last : String} (plain : '.' ∉ layer.toList)
    (cut : Text.cut '.' name = some (first, last)) :
    Text.same (layer ++ "." ++ field) name = true ↔
      Text.same first layer = true ∧ Text.same last field = true := by
  obtain ⟨shape, absent⟩ := cut_eq_some_iff.mp cut
  have point : Char.toLower '.' = '.' := by decide
  have parts := append_cons_inj (point_notMem_lower plain) (point_notMem_lower absent)
    (field.toList.map Char.toLower) (last.toList.map Char.toLower)
  rw [Text.same_comm first, Text.same_comm last, Text.same_iff, Text.same_iff, Text.same_iff,
    ← parts, shape]
  simp [point]

theorem Role.ofField?_eq_some_iff {role : Role} {name : String} :
    Role.ofField? name = some role ↔ role.owns name = true := by
  have plain : ∀ l ∈ ["ip", "ipv4"], '.' ∉ l.toList := by decide
  rw [owns_iff]
  by_cases dotted : '.' ∈ name.toList
  · obtain ⟨layer, field, cut⟩ := exists_cut dotted
    have each : ∀ l ∈ ["ip", "ipv4"], Text.same (l ++ "." ++ role.word) name = true ↔
        Text.same layer l = true ∧ Text.same field role.word = true :=
      fun l listed => same_dotted (plain l listed) cut
    constructor
    · intro h
      obtain ⟨layer', field', cut', named, word⟩ := ofField?_iff_parts.mp h
      cases cut.symm.trans cut'
      rcases named with ip | ipv4
      · exact ⟨"ip", by simp, (each "ip" (by simp)).mpr ⟨ip, word⟩⟩
      · exact ⟨"ipv4", by simp, (each "ipv4" (by simp)).mpr ⟨ipv4, word⟩⟩
    · rintro ⟨l, listed, same⟩
      obtain ⟨named, word⟩ := (each l listed).mp same
      refine ofField?_iff_parts.mpr ⟨layer, field, cut, ?_, word⟩
      simp only [List.mem_cons, List.not_mem_nil, or_false] at listed
      rcases listed with rfl | rfl
      · exact .inl named
      · exact .inr named
  · have missing := cut_eq_none dotted
    constructor
    · intro h
      obtain ⟨layer, field, cut, -⟩ := ofField?_iff_parts.mp h
      cases missing.symm.trans cut
    · rintro ⟨l, -, same⟩
      rw [Text.same_iff] at same
      have point : '.' ∈ name.toList.map Char.toLower := by
        rw [← same]
        exact List.mem_map.mpr ⟨'.', by simp, by decide⟩
      exact absurd point (point_notMem_lower dotted)

namespace Expr

/-- The role of the last dotted field among the expressions. -/
def roleAfter (before : List Expr) : Option Role :=
  (before.filterMap dotted?).getLast?.bind Role.ofField?

variable {role : Role} {before : List Expr}

theorem lastOwned_iff : lastOwned role before = true ↔ roleAfter before = some role := by
  unfold lastOwned roleAfter
  cases (before.filterMap dotted?).getLast? with
  | none => simp
  | some name => exact Role.ofField?_eq_some_iff.symm

theorem roleAfter_concat (e : Expr) : roleAfter (before ++ [e]) =
    e.dotted?.elim (roleAfter before) Role.ofField? := by
  unfold roleAfter
  rw [List.filterMap_append]
  cases shape : e.dotted? with
  | none => simp [shape]
  | some name => simp [shape]

/-- One expression and what follows it. -/
theorem located_ownMentions (e : Expr) (ms : List Mention) :
    Mention.located role (roleAfter before) (e.ownMentions ++ ms) =
      (e.network?.filter fun _ => lastOwned role before).toList
        ++ Mention.located role (roleAfter (before ++ [e])) ms := by
  rw [roleAfter_concat]
  cases e with
  | field name =>
    show Mention.located role _ (.field name :: ms) = _
    rw [Mention.located]
    by_cases dotted : '.' ∈ name.toList
    · obtain ⟨layer, field, cut⟩ := exists_cut dotted
      simp [dotted?, network?, dotted, cut]
    · simp [dotted?, network?, dotted, cut_eq_none dotted]
  | ipv4 network =>
    show Mention.located role _ (.network network :: ms) = _
    rw [Mention.located]
    by_cases owned : lastOwned role before = true
    · rw [if_pos (lastOwned_iff.mp owned)]
      simp [dotted?, network?, owned, Option.filter]
    · rw [if_neg fun current => owned (lastOwned_iff.mpr current)]
      simp [dotted?, network?, owned]
  | subscript base offset length =>
    show Mention.located role _ (Mention.ofBase base ++ ms) = _
    unfold Mention.ofBase
    split <;> simp [dotted?, network?, Mention.located]
  | protocol name => rfl
  | _ => rfl

theorem located_flatMap (parts : List Expr) :
    Mention.located role (roleAfter before) (parts.flatMap ownMentions) =
      (parts.zip parts.inits).filterMap fun p =>
        p.1.network?.filter fun _ => lastOwned role (before ++ p.2) := by
  induction parts generalizing before with
  | nil => rfl
  | cons e es ih =>
    rw [List.flatMap_cons, located_ownMentions, ih, List.inits_cons, List.zip_cons_cons,
      List.zip_map_right, List.filterMap_cons, List.filterMap_map]
    simp only [Function.comp_def, Prod.map, id, List.append_assoc, List.singleton_append,
      List.append_nil]
    cases e.network?.filter fun _ => lastOwned role before <;> rfl

end Expr

/-- Fields after the last network locate nothing. -/
theorem located_append_fields {role : Role} (current : Option Role) (ms : List Mention)
    (names : List String) :
    Mention.located role current (ms ++ names.map .field) = Mention.located role current ms := by
  induction ms generalizing current with
  | nil =>
    rw [List.nil_append]
    induction names generalizing current with
    | nil => rfl
    | cons name names ih =>
      simp only [List.map_cons, Mention.located, ih, ite_self]
  | cons m ms ih =>
    cases m <;> simp only [List.cons_append, Mention.located, ih]

/-! ### Accepted texts -/

theorem References.ascending_noteAll (ms : List Mention) {r : References}
    (ascending : r.protocols.Pairwise fun a b => Order.text a b = .lt) :
    (r.noteAll ms).protocols.Pairwise fun a b => Order.text a b = .lt := by
  induction ms generalizing r with
  | nil => exact ascending
  | cons m ms ih =>
    refine ih ?_
    cases m with
    | protocol name => exact Order.insertText_ascending ascending
    | field name =>
      simp only [note, addField]
      split
      next => exact ascending
      next => exact Order.insertText_ascending ascending
    | network net =>
      simp only [note, addNetwork]
      split
      next => exact ascending
      next => exact ascending

/-- What was referred to before a text makes no difference to reading it. -/
theorem parseWith_eq (held : References) (now : Int64) (text : String) :
    parseWith held now text = parse now text :=
  rfl

theorem parse_held {now : Int64} {text : String} {s : Statement}
    (h : (parse now text).1 = .ok s) :
    (parse now text).2.protocols = s.protocols ∧ (parse now text).2.networks = s.networks := by
  have plain := plain_ofTokens (plain_compose (tokens text) (plain_tokens text))
  unfold parse at h ⊢
  split at h
  next s' j read =>
    cases h
    obtain ⟨-, protocols, networks⟩ := Parser.statement_noted plain read
    exact ⟨protocols.symm, networks.symm⟩
  next => cases h

/-- The protocols of an accepted text are those that its statement names, the networks of a role
those after an address field of the role; both do not depend on what was referred to before. -/
theorem parseWith_references {held : References} {now : Int64} {text : String} {s : Statement}
    (h : (parseWith held now text).1 = .ok s) :
    (s.protocols.Pairwise fun a b => Order.text a b = .lt) ∧
      (∀ word, word ∈ s.protocols ↔ s.Names word) ∧
      (∀ role, s.networks.ofRole role = Expr.networksOf role s.compared) ∧
      (parseWith held now text).2.protocols = s.protocols ∧
      (parseWith held now text).2.networks = s.networks := by
  rw [parseWith_eq] at h ⊢
  obtain ⟨protocols, networks⟩ := parse_references h
  refine ⟨?_, fun word => ?_, fun role => ?_, parse_held h⟩
  · rw [protocols]
    exact References.ascending_noteAll s.mentions List.Pairwise.nil
  · rw [protocols, References.mem_noteAll_protocols, Statement.names_iff]
    simp
  · rw [networks, References.noteAll_networks, Statement.mentions_eq, located_append_fields]
    have located := @Expr.located_flatMap role [] s.compared
    cases role <;> exact located

/-- The network comes after the column and before the field that it is compared with. -/
def locatedText : String := "select ip.src from a where 10.0.0.1 = IP.dst and eth"

theorem parse_locatedText : (parse 0 locatedText).1.toOption.map
    (fun s => (s.protocols, s.networks.source)) = some (["ETH", "IP"], [⟨0x0A000001, 32⟩]) := by
  decide +kernel

theorem parseWith_references_located : ∃ s,
    (parseWith { protocols := ["TCP"], role := some .destination } 0 locatedText).1 = .ok s ∧
      s.protocols = ["ETH", "IP"] ∧ (∀ word, word ∈ s.protocols ↔ s.Names word) ∧
      [⟨0x0A000001, 32⟩] = Expr.networksOf .source s.compared := by
  obtain ⟨s, read, shown⟩ := Option.map_eq_some_iff.mp parse_locatedText
  obtain ⟨protocols, networks⟩ := Prod.mk.inj shown
  have accepted :
      (parseWith { protocols := ["TCP"], role := some .destination } 0 locatedText).1 = .ok s := by
    rw [parseWith_eq]
    cases result : (parse 0 locatedText).1 with
    | ok s' =>
      rw [result] at read
      exact congrArg Except.ok (Option.some.inj read)
    | error e =>
      rw [result] at read
      cases read
  obtain ⟨-, named, located, -⟩ := parseWith_references accepted
  exact ⟨s, accepted, protocols, named, networks.symm.trans (located .source)⟩

end PacketQuery.Language
