import PacketQuery.Proofs.Frame.Reading
/-!
The names of the fields of a header. Whatever the bytes, a reading names them in the order of its
protocol's list and none twice. What it gives back is an end of the bytes, and a header that is
malformed says nothing of the next one.
-/

namespace PacketQuery

theorem Protocol.nodup_fieldNames (p : Protocol) : p.fieldNames.Nodup := by
  cases p <;> decide

namespace Reading.Tells

variable {p : Protocol} {data : Bytes} {r : Reading}

theorem nodup_names (h : r.Tells p data) : (r.fields.map (·.1)).Nodup :=
  p.nodup_fieldNames.sublist h.names_isPrefix.sublist

/-- A malformed header says nothing of the next one, and gives back all bytes or, within a message,
none. -/
theorem of_fault (h : r.Tells p data) {fault : HeaderFault} (malformed : r.fault = some fault) :
    r.hints = [] ∧ (r.fields = [] ∧ r.rest = data ∨
      p.isApplication = true ∧ r.fields.map (·.1) = p.fixedNames ∧ r.rest = []) := by
  cases h with
  | complete => cases malformed
  | failed => exact ⟨rfl, .inl ⟨rfl, rfl⟩⟩
  | broken _ application fixed => exact ⟨rfl, .inr ⟨application, fixed, rfl⟩⟩

end Reading.Tells

/-- Whatever the bytes are and whatever is known before them, a protocol names only fields of its
list, in the order of the list and none twice, and gives back an end of the bytes. A malformed
header hands nothing on: nothing of it was read, or a message broke off behind its fixed fields. A
header that is read to its end has all its fixed fields and takes a byte at least. -/
theorem Protocol.read_listed (p : Protocol) (data : Bytes) (context : Context) :
    let r := p.read data context
    let names := r.fields.map (·.1)
    names.Sublist p.fieldNames ∧ names.Nodup ∧ r.rest <:+ data ∧
    (∀ fault, r.fault = some fault → r.hints = [] ∧ (r.fields = [] ∧ r.rest = data ∨
      p.isApplication = true ∧ names = p.fixedNames ∧ r.rest = [])) ∧
    (r.fault = none → p.fixedNames <+: names ∧ r.rest.length < data.length) := by
  intro r names
  have tells : r.Tells p data := p.tells_read data context
  refine ⟨tells.names_isPrefix.sublist, tells.nodup_names, tells.consumes.suffix,
    fun fault malformed => tells.of_fault malformed, fun sound => ?_⟩
  have whole : r.isComplete = true := Option.isNone_iff_eq_none.mpr sound
  exact ⟨tells.fixedNames_isPrefix whole, tells.consumes.rest_lt whole⟩

/-- A DNS message breaks off in the name of its question, and an echo is read with a byte behind. -/
theorem Protocol.read_listed_cutQuestion :
    let context : Context := ⟨1, false, [(.transport, 17)]⟩
    let question := dns.read [0, 7, 1, 0, 0, 1, 0, 0, 0, 0, 0, 0, 3] context
    let echo := icmp.read [8, 0, 0, 0, 0, 1, 0, 2, 9] context
    (question.fault = some .labelEnds ∧ question.hints = [] ∧ question.rest = [] ∧
      question.fields.map (·.1) = dns.fixedNames) ∧
    echo.fault = none ∧ icmp.fixedNames <+: echo.fields.map (·.1) ∧ echo.rest.length < 9 := by
  intro context question echo
  have malformed : question.fault = some .labelEnds := by decide
  have sound : echo.fault = none := by decide
  obtain ⟨_, _, _, broken, _⟩ := read_listed dns [0, 7, 1, 0, 0, 1, 0, 0, 0, 0, 0, 0, 3] context
  obtain ⟨_, _, _, _, whole⟩ := read_listed icmp [8, 0, 0, 0, 0, 1, 0, 2, 9] context
  obtain ⟨closed, ⟨none, _⟩ | ⟨_, fixed, rest⟩⟩ := broken .labelEnds malformed
  · have some_ : question.fields ≠ [] := by decide
    exact absurd none some_
  · exact ⟨⟨malformed, closed, rest, fixed⟩, sound, whole sound⟩

end PacketQuery
