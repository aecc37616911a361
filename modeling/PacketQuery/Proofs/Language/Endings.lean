import PacketQuery.Proofs.Language.Words
/-!
The tokens of a text have one end, which is the last of them, also after literals are fused.
-/

namespace PacketQuery.Language

/-- The last token is an end and no other is. -/
inductive EndsOnce : List Token → Prop
  | single {t : Token} : t.kind = .stop → EndsOnce [t]
  | cons {t : Token} {ts : List Token} : t.kind ≠ .stop → EndsOnce ts → EndsOnce (t :: ts)

namespace EndsOnce

variable {ts us : List Token}

theorem append (others : ∀ t ∈ us, t.kind ≠ .stop) (h : EndsOnce ts) : EndsOnce (us ++ ts) := by
  induction us with
  | nil => exact h
  | cons t us ih =>
    rw [List.forall_mem_cons] at others
    exact .cons others.1 (ih others.2)

/-- What is left after tokens that are no end. -/
theorem drop {n : Nat} (h : EndsOnce ts) (others : ∀ t ∈ ts.take n, t.kind ≠ .stop) :
    EndsOnce (ts.drop n) := by
  induction h generalizing n with
  | single ended =>
    cases n with
    | zero => exact .single ended
    | succ n => exact absurd ended (others _ (by simp))
  | cons other later ih =>
    cases n with
    | zero => exact .cons other later
    | succ n =>
      rw [List.take_succ_cons, List.forall_mem_cons] at others
      exact ih others.2

theorem exists_append (h : EndsOnce ts) :
    ∃ us stop, ts = us ++ [stop] ∧ stop.kind = .stop ∧ ∀ t ∈ us, t.kind ≠ .stop := by
  induction h with
  | single ended => exact ⟨[], _, rfl, ended, by simp⟩
  | cons other _ ih =>
    obtain ⟨us, stop, rfl, ended, others⟩ := ih
    exact ⟨_ :: us, stop, rfl, ended, List.forall_mem_cons.mpr ⟨other, others⟩⟩

theorem kind_last {t : Token} (h : EndsOnce (ts ++ [t])) : t.kind = .stop := by
  obtain ⟨_, stop, same, ended, -⟩ := h.exists_append
  obtain ⟨-, last⟩ := List.append_inj' same rfl
  cases last
  exact ended

end EndsOnce

theorem endsOnce_spansFrom (previous : Option Char) (place : Place) (cs : List Char) :
    EndsOnce ((spansFrom previous place cs).map (·.token)) := by
  induction previous, place, cs using spansFrom.induct with
  | case1 =>
    rw [spansFrom]
    exact .single rfl
  | case2 previous place c cs step taken ih =>
    rw [spansFrom, List.map_append, List.map_map]
    refine .append (fun t member => ?_) ih
    obtain ⟨l, found, rfl⟩ := List.mem_map.mp member
    exact (Step.inner_at previous c cs l found).1.1

theorem endsOnce_tokens (text : String) : EndsOnce (tokens text) :=
  endsOnce_spansFrom none .start text.toList

theorem endsOnce_compose {ts : List Token} (h : EndsOnce ts) : EndsOnce (compose ts) := by
  induction ts using compose.induct with
  | case1 => rwa [compose]
  | case2 t ts kind text width fused ih =>
    obtain ⟨⟨literal, -⟩, positive, others⟩ := Literal.inner_of_first? fused
    obtain ⟨n, rfl⟩ := Nat.exists_eq_add_of_lt positive
    rw [compose, fused]
    refine .cons literal (ih ?_)
    simpa using h.drop others
  | case3 t ts apart ih =>
    have kept : compose (t :: ts) = t :: compose ts := by rw [compose, apart]
    rw [kept]
    cases h with
    | single ended => simpa [compose] using EndsOnce.single ended
    | cons other later => exact .cons other (ih later)

end PacketQuery.Language
