import Mathlib.Data.List.Basic
import PacketQuery.Search.Run
/-!
The wording of problems. Every error names its segment first; what follows tells a packet that is
not there from a segment that cannot be read, so the kinds can be told apart in a list of errors.
-/

namespace PacketQuery.Search

namespace Problem

def segment : Problem → UInt32
  | entries segment _ => segment
  | unopened segment _ => segment
  | noPacket place => place.segment

/-- What an error says after the number of its segment. -/
def detail : Problem → String
  | entries _ fault => fault.message
  | unopened _ failure => failure.message
  | noPacket place => "no packet at offset " ++ toString place.offset.toNat

/-- The problem is one of a packet, not of a segment. -/
def isOfPacket : Problem → Bool
  | noPacket _ => true
  | _ => false

theorem message_eq (p : Problem) :
    p.message = "segment " ++ toString p.segment.toNat ++ ": " ++ p.detail := by
  cases p with
  | entries segment fault => rfl
  | unopened segment failure => rfl
  | noPacket place =>
    -- The equation of `message` would be made by evaluating its texts.
    change "segment " ++ toString place.segment.toNat ++ ": no packet at offset "
        ++ toString place.offset.toNat
      = "segment " ++ toString place.segment.toNat ++ ": "
        ++ ("no packet at offset " ++ toString place.offset.toNat)
    have joined : ": no packet at offset " = ": " ++ "no packet at offset " := by decide
    rw [joined]
    simp only [String.append_assoc]

end Problem

theorem head?_append {text : String} {c : Char} (start : text.toList.head? = some c)
    (rest : String) : (text ++ rest).toList.head? = some c := by
  rw [String.toList_append, List.head?_append, start]
  rfl

-- The wording of a missing packet starts with a small letter, that of all other faults does not.
theorem head?_storeFault (fault : Catalog.StoreFault) :
    ∃ c, fault.message.toList.head? = some c ∧ c ≠ 'n' := by
  cases fault with
  | database fault => exact ⟨'S', head?_append rfl _, by decide⟩
  | noEntries segment path =>
    exact ⟨'N', head?_append (head?_append (head?_append rfl _) _) _, by decide⟩
  | noExtents path => exact ⟨'M', head?_append rfl _, by decide⟩

theorem head?_failure (failure : Failure) :
    ∃ c, failure.message.toList.head? = some c ∧ c ≠ 'n' := by
  cases failure with
  | statement error => exact ⟨'P', head?_append rfl _, by decide⟩
  | store fault => exact ⟨'I', head?_append rfl _, by decide⟩
  | segment fault => exact ⟨'P', head?_append rfl _, by decide⟩
  | packet fault => exact ⟨'P', head?_append rfl _, by decide⟩
  | io fault => exact ⟨'I', head?_append rfl _, by decide⟩

theorem head?_detail (p : Problem) : (p.detail.toList.head? == some 'n') = p.isOfPacket := by
  cases p with
  | entries segment fault =>
    obtain ⟨c, start, ne⟩ := head?_storeFault fault
    have other : (Problem.entries segment fault).detail.toList.head? = some c := start
    simp [other, ne, Problem.isOfPacket]
  | unopened segment failure =>
    obtain ⟨c, start, ne⟩ := head?_failure failure
    have other : (Problem.unopened segment failure).detail.toList.head? = some c := start
    simp [other, ne, Problem.isOfPacket]
  | noPacket place =>
    have start : "no packet at offset ".toList.head? = some 'n' := rfl
    have own : (Problem.noPacket place).detail.toList.head? = some 'n' := head?_append start _
    simp [own, Problem.isOfPacket]

/-- What stands in an error after the number of its segment. -/
def detailIn (message : String) : List Char :=
  (message.toList.dropWhile (· != ':')).drop 2

/-- An error tells of a packet that is not there. -/
def tellsOfPacket (message : String) : Bool :=
  (detailIn message).head? == some 'n'

theorem colon_notMem_toString (n : Nat) : ':' ∉ (toString n).toList := by
  intro member
  have digit : ':' ∈ Nat.toDigits 10 n := by simpa [toString, Nat.repr] using member
  have isDigit := Nat.isDigit_of_mem_toDigits (by decide) (by decide) digit
  revert isDigit
  decide

theorem detailIn_message (p : Problem) : detailIn p.message = p.detail.toList := by
  have skipped : ∀ c ∈ "segment ".toList ++ (toString p.segment.toNat).toList,
      (c != ':') = true := by
    intro c member
    rw [bne_iff_ne]
    rintro rfl
    rcases List.mem_append.mp member with word | number
    · revert word
      decide
    · exact colon_notMem_toString _ number
  rw [detailIn, Problem.message_eq]
  simp only [String.toList_append, List.append_assoc]
  rw [← List.append_assoc, List.dropWhile_append_of_pos skipped]
  rfl

theorem tellsOfPacket_message (p : Problem) : tellsOfPacket p.message = p.isOfPacket := by
  rw [tellsOfPacket, detailIn_message, head?_detail]

theorem message_ne_noErrors (p : Problem) : p.message ≠ noErrors := by
  intro same
  have word : "segment ".toList.head? = some 's' := rfl
  have start : p.message.toList.head? = some 's' := by
    rw [Problem.message_eq]
    exact head?_append (head?_append (head?_append word _) _) _
  rw [same] at start
  revert start
  decide

/-- The errors of a result: one for each problem, or the line that says there is none. -/
def errorsOf (problems : List Problem) : List String :=
  if problems = [] then [noErrors] else problems.map Problem.message

theorem errorsOf_perm {ps qs : List Problem} (perm : ps.Perm qs) :
    (errorsOf ps).Perm (errorsOf qs) := by
  unfold errorsOf
  by_cases none : ps = []
  · rw [none] at perm
    rw [if_pos none, if_pos perm.nil_eq.symm]
  · have some : qs ≠ [] := fun empty => none (empty ▸ perm).eq_nil
    rw [if_neg none, if_neg some]
    exact perm.map _

/-- The line that says there is no error is none of the messages. -/
theorem map_message_of_errorsOf {ps qs : List Problem} (same : errorsOf ps = errorsOf qs) :
    ps.map Problem.message = qs.map Problem.message := by
  have unmixed : ∀ rs : List Problem, rs ≠ [] → [noErrors] ≠ rs.map Problem.message := by
    intro rs _ single
    obtain ⟨r, _, said⟩ := List.mem_map.mp (single ▸ List.mem_singleton.mpr rfl)
    exact message_ne_noErrors r said
  unfold errorsOf at same
  split at same <;> split at same
  next p q => rw [p, q]
  next q => exact absurd same (unmixed qs q)
  next p _ => exact absurd same.symm (unmixed ps p)
  next => exact same

theorem errors_addErrors (problems : List Problem) {r : Result} (known : r.errors ≠ [noErrors])
    (told : r.errors ≠ []) :
    (problems.foldl (fun r problem => r.addError problem.message) r).errors
      = r.errors ++ problems.map Problem.message := by
  induction problems generalizing r with
  | nil => simp
  | cons problem rest ih =>
    have added : (r.addError problem.message).errors = r.errors ++ [problem.message] := by
      simp [Result.addError, Result.hasErrors, known]
    have longer : r.errors ++ [problem.message] ≠ [noErrors] := by
      intro single
      rcases List.append_eq_singleton_iff.mp single with ⟨none, _⟩ | ⟨one, _⟩
      · exact told none
      · exact known one
    rw [List.foldl_cons, ih (added ▸ longer) (by simp [added]), added]
    simp

theorem errors_addErrors_of_none (problems : List Problem) {r : Result}
    (none : r.errors = [noErrors]) :
    (problems.foldl (fun r problem => r.addError problem.message) r).errors
      = errorsOf problems := by
  cases problems with
  | nil => exact none
  | cons problem rest =>
    have first : (r.addError problem.message).errors = [problem.message] := by
      simp [Result.addError, Result.hasErrors, none]
    have known : (r.addError problem.message).errors ≠ [noErrors] := by
      rw [first]
      simpa using message_ne_noErrors problem
    rw [List.foldl_cons, errors_addErrors rest known (by simp [first]), first]
    simp [errorsOf]

theorem errors_resultOf (s : Language.Statement) (p : Progress) :
    (resultOf s p).errors = errorsOf p.problems := by
  rw [resultOf]
  exact errors_addErrors_of_none _ rfl

end PacketQuery.Search
