import PacketQuery.Proofs.Text.Numerals
import PacketQuery.Storage.Path
/-!
Names that a directory can give to what it has, and the paths that they make with the path of the
directory.
-/

namespace PacketQuery.Storage

/-- A name that leads from a directory to something in it. -/
structure IsName (name : String) : Prop where
  nonempty : name ≠ ""
  unslashed : '/' ∉ name.toList
  ne_dot : name ≠ "."
  ne_dots : name ≠ ".."
  short : name.utf8ByteSize ≤ Path.maxNameLength

section Join

variable {directory name : String}

/-- The last slash of the path of something in a directory stands right before its name. -/
theorem toList_join (name : String) (known : directory ≠ "") : ∃ cs, cs <+: directory.toList ∧
    (cs = directory.toList ∨ directory.toList = cs ++ ['/']) ∧
    (join directory name).toList = cs ++ '/' :: name.toList := by
  unfold join
  split
  next slashed =>
    have last : directory.toList.getLast? = some '/' := by
      simpa [String.isEmpty_iff, known] using slashed
    obtain ⟨cs, shape⟩ := List.getLast?_eq_some_iff.mp last
    exact ⟨cs, ⟨['/'], shape.symm⟩, .inr shape, by simp [shape]⟩
  next => exact ⟨directory.toList, List.prefix_rfl, .inl rfl, by simp⟩

/-- The path of something in a directory, unless it is too long. -/
theorem ofText_join {path : Path} (d : Path.ofText directory = .ok path) (n : IsName name) :
    Path.ofText (join directory name) = .error .nameTooLong ∨
      Path.ofText (join directory name) = .ok ⟨path.fromTop, path.names ++ [name], false⟩ := by
  simp only [Path.ofText] at d ⊢
  split at d
  · cases d
  next known =>
    split at d
    · cases d
    next =>
      cases d
      have nonempty : directory.toList ≠ [] := by simpa using known
      obtain ⟨cs, _, shape, joined⟩ :=
        toList_join name (mt String.toList_eq_nil_iff.mpr nonempty)
      have named : name.toList ≠ [] := mt String.toList_eq_nil_iff.mp n.nonempty
      have empty : (cs ++ '/' :: name.toList).isEmpty = false := by simp
      have head : (cs ++ '/' :: name.toList).head? = directory.toList.head? := by
        rcases shape with same | slashed
        · rw [List.head?_append_of_ne_nil _ (same ▸ nonempty), same]
        · rw [slashed, List.append_cons, List.head?_append_of_ne_nil _ (by simp)]
      have last : ((cs ++ '/' :: name.toList).getLast? == some '/') = false := by
        rw [List.append_cons, List.getLast?_append_of_ne_nil _ named]
        have : name.toList.getLast? ≠ some '/' :=
          fun last => n.unslashed (List.mem_of_getLast? last)
        simpa using this
      have pieces : (Text.pieces '/' (cs ++ '/' :: name.toList)).filter (!·.isEmpty)
          = (Text.pieces '/' directory.toList).filter (!·.isEmpty) ++ [name.toList] := by
        rw [Text.pieces_append_cons, Text.pieces_of_notMem n.unslashed]
        rcases shape with same | slashed
        · simp [same, named]
        · simp [slashed, Text.pieces_append_cons, Text.pieces, named]
      rw [joined, empty, head, last, pieces]
      split
      next long => cases long
      next =>
        split
        next => exact .inl rfl
        next => exact .inr (by simp)

end Join

end PacketQuery.Storage
