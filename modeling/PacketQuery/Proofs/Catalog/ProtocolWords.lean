import PacketQuery.Frame.Packet
import PacketQuery.Language.Token
import PacketQuery.Proofs.Catalog.MaskBits
/-!
The words for protocols. Four tables name them: the words of the language, the layers with their
aliases, the services, and the bits of a mask. They agree: the language knows exactly the words
that have a bit, and two words of one bit name the same layers and services.
-/

namespace PacketQuery.Catalog

open PacketQuery.Language (baseProtocols isProtocolName)

/-- The words that the language knows, in small letters. -/
def protocolWords : List String :=
  baseProtocols ++ Service.all.map (·.name)

theorem isProtocolName_iff {word : String} :
    isProtocolName word = true ↔ ∃ known ∈ protocolWords, Text.same known word = true := by
  simp [isProtocolName, Service.isName, protocolWords, or_and_right, exists_or]

theorem position?_isSome_of_mem : ∀ known ∈ protocolWords, (position? known).isSome = true := by
  decide +kernel

theorem isProtocolName_of_mem : (∀ known ∈ protocols, isProtocolName known = true) ∧
    ∀ entry ∈ otherNames, isProtocolName entry.1 = true := by
  decide +kernel

theorem isProtocolName_congr {a b : String} (h : Text.same a b = true) :
    isProtocolName a = isProtocolName b := by
  apply Bool.eq_iff_iff.mpr
  simp only [isProtocolName_iff, Text.same_right_congr h]

/-- The language knows exactly the words that have a bit. -/
theorem isProtocolName_iff_position? {word : String} :
    isProtocolName word = true ↔ (position? word).isSome = true := by
  constructor
  · intro h
    obtain ⟨known, member, alike⟩ := isProtocolName_iff.mp h
    rw [← position?_congr alike]
    exact position?_isSome_of_mem known member
  · intro h
    obtain ⟨i, hi⟩ := Option.isSome_iff_exists.mp h
    obtain ⟨bound, alike, _⟩ := List.findIdx?_eq_some_iff_getElem.mp hi
    have known := isProtocolName_of_mem.1 _ (List.getElem_mem bound)
    rw [isProtocolName_congr alike] at known
    unfold canonical at known
    cases found : otherNames.find? fun entry => Text.same entry.1 word with
    | none => simpa [found] using known
    | some entry =>
      have listed := isProtocolName_of_mem.2 entry (List.mem_of_find?_eq_some found)
      have named : Text.same entry.1 word = true := by simpa using List.find?_some found
      rwa [isProtocolName_congr named] at listed

theorem position?_frame {word : String} (h : Text.same "frame" word = true) :
    position? word = none := by
  rw [← position?_congr h]
  decide

theorem not_same_frame {word : String} (known : isProtocolName word = true) :
    Text.same "frame" word = false := by
  rw [← Bool.not_eq_true]
  intro frame
  rw [isProtocolName_iff_position?, position?_frame frame] at known
  cases known

/-! ### Layers and services -/

/-- Words of one bit stand for one name of the table of bits. -/
theorem same_canonical {a b : String} {i : Nat} (first : position? a = some i)
    (second : position? b = some i) : Text.same (canonical a) (canonical b) = true := by
  obtain ⟨_, left, _⟩ := List.findIdx?_eq_some_iff_getElem.mp first
  obtain ⟨_, right, _⟩ := List.findIdx?_eq_some_iff_getElem.mp second
  rwa [← Text.same_left_congr left]

/-- A test of words for `own`, which is none of the other names, is a test for the bit of `own`
if it lets the other names of `own` pass. -/
theorem names_iff {names : String → Bool} {own : String}
    (alike : ∀ {a b : String}, Text.same a b = true → names a = names b)
    (bit : ∀ {word : String}, names word = true → position? word = position? own)
    (itself : names own = true) (plain : canonical own = own)
    (others : ∀ entry ∈ otherNames, Text.same entry.2 own = true → names entry.1 = true)
    {word : String} (known : isProtocolName word = true) :
    names word = true ↔ position? word = position? own := by
  refine ⟨bit, fun h => ?_⟩
  obtain ⟨i, hi⟩ := Option.isSome_iff_exists.mp (isProtocolName_iff_position?.mp known)
  have stands : Text.same (canonical word) own = true :=
    plain ▸ same_canonical hi (h.symm.trans hi)
  -- Either `word` is alike to `own`, or it is one of the other names of `own`.
  unfold canonical at stands
  cases found : otherNames.find? fun entry => Text.same entry.1 word with
  | none =>
    rw [found] at stands
    exact (alike stands).trans itself
  | some entry =>
    rw [found] at stands
    have named : Text.same entry.1 word = true := by simpa using List.find?_some found
    rw [← alike named]
    exact others entry (List.mem_of_find?_eq_some found) stands

theorem isNamed_congr {a b : String} (h : Text.same a b = true) (q : Protocol) :
    q.isNamed a = q.isNamed b := by
  simp only [Protocol.isNamed, Text.same_right_congr h]

theorem position?_of_mem_aliases (q : Protocol) :
    ∀ other ∈ q.aliases, position? other = position? q.name := by
  cases q <;> decide

/-- Whatever names a layer has the layer's bit. -/
theorem position?_of_isNamed {word : String} {q : Protocol} (h : q.isNamed word = true) :
    position? word = position? q.name := by
  rcases Bool.or_eq_true_iff.mp h with name | other
  · exact (position?_congr name).symm
  · obtain ⟨small, member, alike⟩ := List.any_eq_true.mp other
    rw [← position?_congr alike, position?_of_mem_aliases q small member]

theorem isNamed_of_otherNames (q : Protocol) : canonical q.name = q.name ∧
    ∀ entry ∈ otherNames, Text.same entry.2 q.name = true → q.isNamed entry.1 = true := by
  cases q <;> decide

/-- A word of the language names a layer exactly where both have one bit. -/
theorem isNamed_iff {word : String} (known : isProtocolName word = true) (q : Protocol) :
    q.isNamed word = true ↔ position? word = position? q.name := by
  obtain ⟨plain, others⟩ := isNamed_of_otherNames q
  have itself : q.isNamed q.name = true := by simp [Protocol.isNamed]
  exact names_iff (isNamed_congr · q) position?_of_isNamed itself plain others known

/-- A word of the language is alike to a name without other names exactly where both have one
bit. -/
theorem same_iff_position? {own : String} (plain : canonical own = own)
    (single : ∀ entry ∈ otherNames, Text.same entry.2 own = false) {word : String}
    (known : isProtocolName word = true) :
    Text.same own word = true ↔ position? word = position? own := by
  refine names_iff (Text.same_right_congr · own) (fun h => (position?_congr h).symm)
    (Text.same_self own) plain (fun entry member other => ?_) known
  rw [single entry member] at other
  cases other

theorem otherNames_of_mem_services : ∀ service ∈ Service.all,
    canonical service.name = service.name ∧
      ∀ entry ∈ otherNames, Text.same entry.2 service.name = false := by
  decide +kernel

theorem same_service_iff {word : String} (known : isProtocolName word = true) {service : Service}
    (member : service ∈ Service.all) :
    Text.same service.name word = true ↔ position? word = position? service.name := by
  obtain ⟨plain, single⟩ := otherNames_of_mem_services service member
  exact same_iff_position? plain single known

theorem same_unreachableTag_iff {word : String} (known : isProtocolName word = true) :
    Text.same Packet.unreachableTag word = true ↔
      position? word = position? Packet.unreachableTag :=
  same_iff_position? (by decide) (by decide) known

end PacketQuery.Catalog
