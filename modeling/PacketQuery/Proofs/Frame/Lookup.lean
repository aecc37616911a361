import PacketQuery.Proofs.Frame.Dissection
/-!
A field is looked up by its dotted name in the first layer of that name, and a packet lists the
fields of all its layers. Both tell the same: the first entry of a name in the list is what is
looked up, since of the layers that come more than once every one but the last has all its fields.
-/

namespace PacketQuery

/-! ### Entries under a name -/

/-- The value of the first entry of a name. -/
def firstNamed? (name : String) (entries : List (String × FieldValue)) : Option FieldValue :=
  (entries.find? (·.1 == name)).map (·.2)

theorem firstNamed?_eq_none_iff {name : String} {entries : List (String × FieldValue)} :
    firstNamed? name entries = none ↔ ∀ value, (name, value) ∉ entries := by
  rw [firstNamed?, Option.map_eq_none_iff, List.find?_eq_none]
  constructor
  · intro absent value member
    exact absent (name, value) member (beq_self_eq_true name)
  · rintro absent ⟨other, value⟩ member same
    rw [beq_iff_eq] at same
    exact absent value (same ▸ member)

theorem firstNamed?_append (name : String) (as bs : List (String × FieldValue)) :
    firstNamed? name (as ++ bs) = (firstNamed? name as).or (firstNamed? name bs) := by
  rw [firstNamed?, List.find?_append, Option.map_or, firstNamed?, firstNamed?]

theorem firstNamed?_flatMap {α : Type} (name : String) (f : α → List (String × FieldValue))
    (xs : List α) :
    firstNamed? name (xs.flatMap f) = xs.findSome? fun x => firstNamed? name (f x) := by
  induction xs with
  | nil => rfl
  | cons x xs ih =>
    rw [List.flatMap_cons, firstNamed?_append, ih, List.findSome?_cons]
    cases firstNamed? name (f x) <;> rfl

/-- A list that goes through names holds under each what there is for it. -/
theorem firstNamed?_filterMap (g : String → Option FieldValue) (base name : String)
    (names : List String) :
    firstNamed? (base ++ name) (names.filterMap fun n => (g n).map (base ++ n, ·))
      = if name ∈ names then g name else none := by
  induction names with
  | nil => rfl
  | cons n names ih =>
    have test : (base ++ n == base ++ name) = decide (name = n) := by
      rw [Bool.eq_iff_iff, beq_iff_eq, decide_eq_true_iff, String.append_right_inj, eq_comm]
    cases result : g n with
    | none =>
      rw [List.filterMap_cons_none (by rw [result]; rfl), ih]
      by_cases same : name = n
      · rw [same, result, if_pos List.mem_cons_self, ite_self]
      · simp only [List.mem_cons, same, false_or]
    | some value =>
      rw [List.filterMap_cons_some (by rw [result]; rfl), firstNamed?]
      by_cases same : name = n
      · rw [List.find?_cons_of_pos (by simpa only [test] using decide_eq_true same), same,
          if_pos List.mem_cons_self, result]
        rfl
      · rw [List.find?_cons_of_neg (by simpa only [test, decide_eq_true_iff] using same)]
        simp only [List.mem_cons, same, false_or]
        exact ih

/-- Looking at the first match alone gives the first result, where a match without a result is
followed by no match with one. -/
theorem find?_bind_eq_findSome? {α β : Type} {test : α → Bool} {f : α → Option β} {xs : List α}
    (lasting : xs.Pairwise fun a b => test a = true → test b = true → f a = none → f b = none) :
    (xs.find? test).bind f = xs.findSome? fun a => if test a then f a else none := by
  induction xs with
  | nil => rfl
  | cons x xs ih =>
    obtain ⟨here, later⟩ := List.pairwise_cons.mp lasting
    rw [List.findSome?_cons]
    by_cases matched : test x = true
    · rw [List.find?_cons_of_pos matched, Option.bind_some, if_pos matched]
      cases result : f x with
      | some y => rfl
      | none =>
        symm
        refine List.findSome?_eq_none_iff.mpr fun b member => ?_
        split
        next again => exact here b member matched again result
        next => rfl
    · rw [List.find?_cons_of_neg matched, if_neg matched, ih later]

/-! ### Dotted names -/

/-- Names with a point are the same if they agree before and after it. -/
theorem dotted_inj {a b c d : String} (first : '.' ∉ a.toList) (second : '.' ∉ c.toList) :
    a ++ "." ++ b = c ++ "." ++ d ↔ a = c ∧ b = d := by
  constructor
  · intro same
    have left : Text.cut '.' (a ++ "." ++ b) = some (a, b) := Text.cut_eq_some first (by simp)
    have right : Text.cut '.' (c ++ "." ++ d) = some (c, d) := Text.cut_eq_some second (by simp)
    rw [same, right] at left
    cases left
    exact ⟨rfl, rfl⟩
  · rintro ⟨rfl, rfl⟩
    rfl

theorem Protocol.point_notMem_name (q : Protocol) : '.' ∉ q.name.toList := by
  cases q <;> decide

theorem Protocol.name_inj {q r : Protocol} : q.name = r.name ↔ q = r := by
  refine ⟨?_, congrArg name⟩
  cases q <;> cases r <;> decide

theorem Protocol.name_ne_frame (q : Protocol) : q.name ≠ "frame" := by
  cases q <;> decide

namespace Layer

/-- The fields of a layer with their dotted names. -/
def entries (layer : Layer) : List (String × FieldValue) :=
  layer.reading.fields.map fun entry => (layer.protocol.name ++ "." ++ entry.1, entry.2)

theorem firstNamed?_entries (layer : Layer) {base : String} (plain : '.' ∉ base.toList)
    (field : String) :
    firstNamed? (base ++ "." ++ field) layer.entries
      = if layer.protocol.name = base then layer.reading.field? field else none := by
  split
  next same =>
    have test : ((fun entry : String × FieldValue => entry.1 == base ++ "." ++ field) ∘
        fun entry : String × FieldValue => (layer.protocol.name ++ "." ++ entry.1, entry.2))
          = (·.1 == field) := by
      funext entry
      rw [Bool.eq_iff_iff, Function.comp_apply, beq_iff_eq, beq_iff_eq,
        dotted_inj layer.protocol.point_notMem_name plain, and_iff_right same]
    rw [firstNamed?, entries, List.find?_map, test, Option.map_map, Reading.field?]
    rfl
  next other =>
    refine firstNamed?_eq_none_iff.mpr fun value member => ?_
    obtain ⟨entry, _, same⟩ := List.mem_map.mp member
    have named := (Prod.mk.inj same).1
    exact other ((dotted_inj layer.protocol.point_notMem_name plain).mp named).1

end Layer

theorem point_notMem_of_same_frame {word : String} (same : Text.same "frame" word = true) :
    '.' ∉ word.toList := by
  intro point
  have lowered : '.' ∈ word.toList.map Char.toLower := List.mem_map.mpr ⟨'.', point, by decide⟩
  rw [← Text.same_iff.mp same] at lowered
  revert lowered
  decide

namespace Packet

theorem fields_eq (p : Packet) : p.fields =
    (frameFieldNames.filterMap fun n => (p.frameField? n).map ("frame" ++ "." ++ n, ·))
      ++ p.layers.flatMap Layer.entries :=
  rfl

theorem field?_frame (p : Packet) {word : String} (same : Text.same "frame" word = true)
    (field : String) : p.field? (word ++ "." ++ field) = p.frameField? field := by
  have parts : Text.cut '.' (word ++ "." ++ field) = some (word, field) :=
    Text.cut_eq_some (point_notMem_of_same_frame same) (by simp)
  rw [field?, parts]
  exact if_pos same

theorem frameField?_eq_none (p : Packet) {field : String} (unknown : field ∉ frameFieldNames) :
    p.frameField? field = none := by
  unfold frameField?
  split <;> first | rfl | exact absurd (by decide) unknown

/-- Under the name of a field of the capture stands that field alone. -/
theorem firstNamed?_frame (p : Packet) (field : String) :
    firstNamed? ("frame" ++ "." ++ field) p.fields = p.frameField? field := by
  have others : p.layers.findSome?
      (fun layer => firstNamed? ("frame" ++ "." ++ field) layer.entries) = none := by
    refine List.findSome?_eq_none_iff.mpr fun layer _ => ?_
    rw [layer.firstNamed?_entries (by decide), if_neg layer.protocol.name_ne_frame]
  have own := firstNamed?_filterMap p.frameField? ("frame" ++ ".") field frameFieldNames
  rw [fields_eq, firstNamed?_append, firstNamed?_flatMap, others, Option.or_none, own]
  by_cases known : field ∈ frameFieldNames
  · rw [if_pos known]
  · rw [if_neg known, p.frameField?_eq_none known]

/-- Under the name of a field of a protocol stands the first such field of its layers. -/
theorem firstNamed?_layers (p : Packet) (q : Protocol) (field : String) :
    firstNamed? (q.name ++ "." ++ field) p.fields = p.layers.findSome? fun layer =>
      if layer.protocol == q then layer.reading.field? field else none := by
  have frame : firstNamed? (q.name ++ "." ++ field) (frameFieldNames.filterMap fun n =>
      (p.frameField? n).map ("frame" ++ "." ++ n, ·)) = none := by
    refine firstNamed?_eq_none_iff.mpr fun value member => ?_
    obtain ⟨n, _, entry⟩ := List.mem_filterMap.mp member
    obtain ⟨_, _, same⟩ := Option.map_eq_some_iff.mp entry
    have named := (dotted_inj (by decide) q.point_notMem_name).mp (Prod.mk.inj same).1
    exact q.name_ne_frame named.1.symm
  rw [fields_eq, firstNamed?_append, frame, Option.none_or, firstNamed?_flatMap]
  congr 1
  funext layer
  rw [layer.firstNamed?_entries q.point_notMem_name]
  simp only [Protocol.name_inj, beq_iff_eq]

end Packet

/-! ### Layers that come more than once -/

theorem Reading.field?_eq_none_iff {r : Reading} {name : String} :
    r.field? name = none ↔ name ∉ r.fields.map (·.1) := by
  have absent : r.field? name = none ↔ ∀ value, (name, value) ∉ r.fields := firstNamed?_eq_none_iff
  rw [absent]
  constructor
  · intro without member
    obtain ⟨entry, inside, rfl⟩ := List.mem_map.mp member
    exact without entry.2 inside
  · exact fun without value member => without (List.mem_map_of_mem member)

/-- What a whole VLAN tag does not have, no VLAN tag has. -/
theorem Protocol.vlan_field?_eq_none {data other : Bytes} {context context' : Context}
    {name : String} (whole : (vlan.read data context).isComplete = true)
    (without : (vlan.read data context).field? name = none) :
    (vlan.read other context').field? name = none := by
  rw [Reading.field?_eq_none_iff] at without ⊢
  have all := ((vlan.tells_read data context).fixedNames_isPrefix whole).subset
  have listed := (vlan.tells_read other context').names_isPrefix.subset
  exact fun member => without (all (listed member))

namespace Chain

variable {linkType : UInt16} {stage : Stage} {start : Nat} {layers : List Layer}

/-- Every layer that another one follows was read to its end. -/
theorem pairwise_isComplete (h : Chain linkType stage start layers) :
    layers.Pairwise fun a _ => a.reading.isComplete = true := by
  induction h with
  | done => exact .nil
  | broken => exact List.pairwise_singleton _ _
  | read _ leads _ ih => exact List.pairwise_cons.mpr ⟨fun _ _ => leads.complete, ih⟩

/-- Of several layers of one protocol the later ones have no field that the first has not. -/
theorem pairwise_lasting (h : Chain linkType stage start layers) (q : Protocol) (name : String) :
    layers.Pairwise fun a b => (a.protocol == q) = true → (b.protocol == q) = true →
      a.reading.field? name = none → b.reading.field? name = none := by
  refine (h.pairwise.and h.pairwise_isComplete).imp_of_mem ?_
  rintro a b inside later ⟨ordered, whole⟩ first second without
  rw [beq_iff_eq] at first second
  -- two layers of one protocol have one height, so they are tags
  have tag : q = .vlan := by
    rcases ordered with tag | below
    · rw [← first, tag]
    · rw [first, second] at below
      exact absurd below (Nat.lt_irrefl _)
  obtain ⟨data, context, read⟩ := h.reading_eq a inside
  obtain ⟨other, context', reads⟩ := h.reading_eq b later
  rw [first, tag] at read
  rw [second, tag] at reads
  rw [read] at whole without
  rw [reads]
  exact Protocol.vlan_field?_eq_none whole without

end Chain

/-! ### The list and the look-up -/

/-- The first entry of a name in the list of all fields is the field that is looked up by it, be the
layer named by an alias or in another case. -/
theorem field?_eq_firstNamed? (set : List Protocol) (linkType : UInt16) (frame : Bytes)
    (capture : Capture) :
    let p := Packet.decode set linkType frame capture
    (∀ base ∈ "frame" :: Protocol.all.map Protocol.name, ∀ field,
      p.field? (base ++ "." ++ field) = firstNamed? (base ++ "." ++ field) p.fields ∧
      (p.field? (base ++ "." ++ field) = none ↔
        ∀ value, (base ++ "." ++ field, value) ∉ p.fields)) ∧
    (∀ (q : Protocol) (word field : String), q.isNamed word = true →
      p.field? (word ++ "." ++ field) = p.field? (q.name ++ "." ++ field)) ∧
    ∀ word field, Text.same "frame" word = true →
      p.field? (word ++ "." ++ field) = p.field? ("frame" ++ "." ++ field) := by
  intro p
  have self : ∀ q : Protocol, q.isNamed q.name = true := by
    intro q
    cases q <;> decide
  have agree : ∀ base ∈ "frame" :: Protocol.all.map Protocol.name, ∀ field,
      p.field? (base ++ "." ++ field) = firstNamed? (base ++ "." ++ field) p.fields := by
    refine List.forall_mem_cons.mpr ⟨fun field => ?_, fun base member field => ?_⟩
    · rw [p.firstNamed?_frame, p.field?_frame (Text.same_self "frame")]
    · obtain ⟨q, _, rfl⟩ := List.mem_map.mp member
      have chain : Chain linkType .first 0 p.layers := Layer.ofFrame_chain set linkType frame
      rw [p.firstNamed?_layers, p.field?_dotted (self q),
        find?_bind_eq_findSome? (chain.pairwise_lasting q field)]
  refine ⟨fun base member field => ⟨agree base member field, ?_⟩, ?_, ?_⟩
  · rw [agree base member field, firstNamed?_eq_none_iff]
  · intro q word field named
    rw [p.field?_dotted named, p.field?_dotted (self q)]
  · intro word field same
    rw [p.field?_frame same, p.field?_frame (Text.same_self "frame")]

/-- Two tags, and the start of a third. -/
def sampleTags : Bytes :=
  List.replicate 12 0 ++ [0x88, 0xA8, 0, 1, 0x81, 0, 0, 2, 0x81, 0, 0]

theorem field?_eq_firstNamed?_tags :
    let p := Packet.decode Protocol.all 1 sampleTags ⟨1, 24, 0, 23, 60⟩
    ("vlan" ∈ "frame" :: Protocol.all.map Protocol.name ∧ Protocol.vlan.isNamed "VLan" = true ∧
      Text.same "frame" "Frame" = true) ∧
    p.layers.map (·.protocol) = [.ethernet, .vlan, .vlan, .vlan] ∧
      ("vlan.id", .u16 2) ∈ p.fields ∧ p.field? "VLan.id" = some (.u16 1) ∧
      p.field? "Frame.len" = some (.u32 60) ∧ ∀ value, ("vlan.len", value) ∉ p.fields := by
  intro p
  have vlan : "vlan" ∈ "frame" :: Protocol.all.map Protocol.name := by decide
  have named : Protocol.vlan.isNamed "VLan" = true := by decide
  have same : Text.same "frame" "Frame" = true := by decide
  obtain ⟨agree, words, frames⟩ :=
    field?_eq_firstNamed? Protocol.all 1 sampleTags ⟨1, 24, 0, 23, 60⟩
  refine ⟨⟨vlan, named, same⟩, by decide +kernel, by decide +kernel, ?_, ?_, ?_⟩
  · refine (words .vlan "VLan" "id" named).trans ((agree "vlan" vlan "id").1.trans ?_)
    decide +kernel
  · refine (frames "Frame" "len" same).trans ((agree "frame" List.mem_cons_self "len").1.trans ?_)
    decide +kernel
  · refine (agree "vlan" vlan "len").2.mp ?_
    decide +kernel

end PacketQuery
