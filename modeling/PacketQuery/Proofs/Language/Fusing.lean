import PacketQuery.Language.Literal
import PacketQuery.Proofs.Language.Scanning
import PacketQuery.Proofs.Text.Numerals
/-!
Which tokens are fused into literals: a literal starts with a number or a word, and one of three
symbols follows that. Where the tokens stand is left out.
-/

namespace PacketQuery.Language

namespace Literal

variable {t : Token} {ts : List Token}

/-- A token that no literal starts with, or one that no mark of a literal follows. -/
def Apart (t : Token) (ts : List Token) : Prop :=
  t.kind ∉ [.integer, .name, .constant] ∨
    ∀ u ∈ ts.head?, u.kind ∉ [.symbol .colon, .symbol .minus, .symbol .dot]

theorem separated_of_apart {mark : Symbol} {item : Token → Bool} (apart : Apart t ts)
    (fails : t.kind ∉ [.integer, .name, .constant] → item t = false)
    (marks : mark ∈ [.colon, .minus, .dot]) (several : ts ≠ []) :
    separated mark item (t :: ts) = false := by
  obtain ⟨u, us, rfl⟩ := List.exists_cons_of_ne_nil several
  rcases apart with other | other
  · simp [separated, fails other]
  · have ne : u.kind ≠ .symbol mark := by
      intro same
      refine other u rfl ?_
      rw [same]
      simpa using marks
    simp [separated, ne]

theorem Apart.take {n : Nat} (apart : Apart t ts) : Apart t (ts.take n) := by
  rcases apart with other | other
  · exact .inl other
  · refine .inr fun u head => other u ?_
    rw [List.head?_take] at head
    split at head
    next => cases head
    next => exact head

theorem first?_of_apart (apart : Apart t ts) : first? (t :: ts) = none := by
  have decimal : t.kind ∉ [.integer, .name, .constant] → isDecimal t = false := by
    intro other
    simp only [List.mem_cons, List.not_mem_nil, or_false, not_or] at other
    simp [isDecimal, other]
  have hex : t.kind ∉ [.integer, .name, .constant] → isHexGroup t = false := by
    intro other
    simp only [List.mem_cons, List.not_mem_nil, or_false, not_or] at other
    simp [isHexGroup, other]
  have word : t.kind ∉ [.integer, .name, .constant] → t.kind.isWord = false := by
    intro other
    simp only [List.mem_cons, List.not_mem_nil, or_false, not_or] at other
    unfold Kind.isWord
    split <;> simp_all
  -- a window of two tokens or more has a second one
  have unfused : ∀ {mark item} {made : Kind × String} {n : Nat}, n + 2 ≤ (t :: ts).length →
      (t.kind ∉ [.integer, .name, .constant] → item t = false) →
      mark ∈ [Symbol.colon, .minus, .dot] →
      (if separated mark item ((t :: ts).take (n + 2)) then some made else none) = none := by
    intro mark item made n several fails marks
    have next : ts.take (n + 1) ≠ [] := by
      cases ts with
      | nil => exact absurd several (by simp)
      | cons u us => exact List.cons_ne_nil u _
    rw [List.take_succ_cons, separated_of_apart apart.take fails marks next]
    rfl
  rw [first?, List.findSome?_eq_none_iff]
  intro w member
  unfold Window.apply
  split
  next whole =>
    rw [Option.map_eq_none_iff]
    have fits : w.width ≤ (t :: ts).length := by
      rw [← whole]
      exact List.length_take_le' _ _
    simp only [windows, List.mem_cons, List.not_mem_nil, or_false] at member
    rcases member with rfl | rfl | rfl | rfl | rfl | rfl
    · exact unfused fits hex (by decide)
    · have days : date (((t :: ts).take 10).take 5) = none := by
        rw [List.take_take]
        exact unfused (le_trans (by decide) fits) decimal (by decide)
      simp only [timestamp, days]
    · exact unfused fits decimal (by decide)
    · exact unfused fits decimal (by decide)
    · exact unfused fits decimal (by decide)
    · exact unfused fits word (by decide)
  next => rfl

/-! ### Changes of tokens that no window sees -/

theorem separated_map {f : Token → Token} {item : Token → Bool} (mark : Symbol)
    (kind : ∀ t, (f t).kind = t.kind) (same : ∀ t, item (f t) = item t) (ts : List Token) :
    separated mark item (ts.map f) = separated mark item ts := by
  fun_induction separated mark item ts with
  | case1 => rfl
  | case2 t => exact same t
  | case3 t sep rest ih => rw [List.map_cons, List.map_cons, separated, same, kind, ih]

theorem everyOther_map (f : Token → Token) (ts : List Token) :
    everyOther (ts.map f) = (everyOther ts).map f := by
  fun_induction everyOther ts with
  | case1 t sep rest ih => simp only [List.map_cons, everyOther, ih]
  | case2 ts short =>
    rw [everyOther]
    intro t sep rest shape
    match ts, shape with
    | t :: u :: rest, _ => exact short t u rest rfl

/-- By the change `f` of tokens every literal keeps its kind and has its text changed by `g`. -/
structure Uniform (f : Token → Token) (g : String → String) : Prop where
  kind : ∀ t, (f t).kind = t.kind
  decimal : ∀ t, isDecimal (f t) = isDecimal t
  hex : ∀ t, isHexGroup (f t) = isHexGroup t
  joined : ∀ ts, joined (ts.map f) = g (joined ts)
  mac : ∀ ts, macText (ts.map f) = g (macText ts)
  spaced : ∀ s t, g (s ++ " " ++ t) = g s ++ " " ++ g t

namespace Uniform

variable {f : Token → Token} {g : String → String} (uniform : Uniform f g)
include uniform

theorem date_map (ts : List Token) :
    date (ts.map f) = (date ts).map fun made => (made.1, g made.2) := by
  rw [date, separated_map _ uniform.kind uniform.decimal, uniform.joined, date]
  split <;> rfl

theorem time_map (ts : List Token) :
    time (ts.map f) = (time ts).map fun made => (made.1, g made.2) := by
  rw [time, separated_map _ uniform.kind uniform.decimal, uniform.joined, time]
  split <;> rfl

theorem fuse_map {w : Window} (member : w ∈ windows) (ts : List Token) :
    w.fuse (ts.map f) = (w.fuse ts).map fun made => (made.1, g made.2) := by
  simp only [windows, List.mem_cons, List.not_mem_nil, or_false] at member
  rcases member with rfl | rfl | rfl | rfl | rfl | rfl
  · dsimp only
    rw [Literal.mac, separated_map _ uniform.kind uniform.hex, uniform.mac, Literal.mac]
    split <;> rfl
  · dsimp only
    rw [timestamp, ← List.map_take, ← List.map_drop, uniform.date_map, uniform.time_map, timestamp]
    cases date (ts.take 5) <;> cases time (ts.drop 5) <;> simp [uniform.spaced]
  · dsimp only
    rw [ipv4, separated_map _ uniform.kind uniform.decimal, uniform.joined, ipv4]
    split <;> rfl
  · exact uniform.date_map ts
  · exact uniform.time_map ts
  · have word : ∀ t, (f t).kind.isWord = t.kind.isWord := fun t => by rw [uniform.kind]
    dsimp only
    rw [field, separated_map _ uniform.kind word, uniform.joined, field]
    split <;> rfl

theorem first?_map (ts : List Token) :
    first? (ts.map f) = (first? ts).map fun made => (made.1, g made.2.1, made.2.2) := by
  have each : ∀ w ∈ windows, Window.apply w (ts.map f)
      = (Window.apply w ts).map fun made => (made.1, g made.2.1, made.2.2) := by
    intro w member
    rw [Window.apply, ← List.map_take, List.length_map, uniform.fuse_map member, Window.apply]
    split
    next => rw [Option.map_map, Option.map_map]; rfl
    next => rfl
  rw [first?, ← List.head?_filterMap, List.filterMap_congr each, ← List.map_filterMap,
    List.head?_map, List.head?_filterMap, first?]

end Uniform

/-- A token with a kind and a text, before every place of a text. -/
def placed (x : Kind × String) : Token :=
  ⟨x.1, x.2, 0, 0⟩

@[simp] theorem kind_placed (x : Kind × String) : (placed x).kind = x.1 := rfl

@[simp] theorem text_placed (x : Kind × String) : (placed x).text = x.2 := rfl

/-- Where tokens stand makes no difference. -/
theorem uniform_placed : Uniform (fun t => placed t.unplaced) id where
  kind _ := rfl
  decimal _ := rfl
  hex _ := rfl
  joined ts := by
    rw [joined, List.map_map]
    rfl
  mac ts := by
    rw [macText, everyOther_map, List.map_map]
    rfl
  spaced _ _ := rfl

theorem first?_placed (ts : List Token) :
    first? (ts.map fun t => placed t.unplaced) = first? ts := by
  rw [uniform_placed.first?_map]
  exact Option.map_id'

theorem isDecimal_placed {s : String} (numeral : Text.IsNumeral s.toList) :
    isDecimal (placed (.integer, s)) = true := by
  have some_ : s ≠ "" := by
    rintro rfl
    exact numeral.nonempty rfl
  have all : s.toList.all Char.isDigit = true := List.all_eq_true.mpr numeral.digits
  simp [isDecimal, placed, some_, all]

/-- The windows one after another. -/
theorem first?_eq (ts : List Token) : first? ts = (Window.apply ⟨11, mac⟩ ts).or
    ((Window.apply ⟨10, timestamp⟩ ts).or ((Window.apply ⟨7, ipv4⟩ ts).or
    ((Window.apply ⟨5, date⟩ ts).or ((Window.apply ⟨5, time⟩ ts).or
    ((Window.apply ⟨3, field⟩ ts).or none))))) := by
  have cons : ∀ w ws, List.findSome? (Window.apply · ts) (w :: ws)
      = (Window.apply w ts).or (List.findSome? (Window.apply · ts) ws) := by
    intro w ws
    rw [List.findSome?_cons]
    cases Window.apply w ts <;> rfl
  rw [first?, windows]
  simp only [cons]
  rfl

end Literal

/-- Tokens of the kinds and texts `xs` are fused to tokens of the kinds and texts `ys`. -/
def Fuses (xs ys : List (Kind × String)) : Prop :=
  ∀ ts, ts.map Token.unplaced = xs → (compose ts).map Token.unplaced = ys

namespace Fuses

variable {x : Kind × String} {xs ys : List (Kind × String)}

theorem nil : Fuses [] [] := by
  intro ts none
  rw [List.map_eq_nil_iff.mp none, compose]
  rfl

theorem skip (after : Fuses xs ys) (apart : x.1 ∉ [.integer, .name, .constant] ∨
    ∀ y ∈ xs.head?, y.1 ∉ [.symbol .colon, .symbol .minus, .symbol .dot]) :
    Fuses (x :: xs) (x :: ys) := by
  intro ts same
  obtain ⟨t, us, rfl, rfl, rfl⟩ := List.map_eq_cons_iff.mp same
  have unfused : Literal.first? (t :: us) = none := by
    refine Literal.first?_of_apart (apart.imp_right fun other u head => other u.unplaced ?_)
    rw [List.head?_map, Option.mem_def.mp head]
    rfl
  rw [compose, unfused]
  exact congrArg _ (after us rfl)

theorem literal {kind : Kind} {text : String} {n : Nat}
    (fused : Literal.first? ((x :: xs).map Literal.placed) = some (kind, text, n + 1))
    (after : Fuses (xs.drop n) ys) : Fuses (x :: xs) ((kind, text) :: ys) := by
  intro ts same
  have first : Literal.first? ts = some (kind, text, n + 1) := by
    rw [← Literal.first?_placed, ← fused, ← same, List.map_map]
    rfl
  obtain ⟨t, us, rfl, rfl, rfl⟩ := List.map_eq_cons_iff.mp same
  rw [compose, first]
  exact congrArg _ (after _ (List.map_drop ..))

theorem stop : Fuses [(.stop, "")] [(.stop, "")] :=
  skip nil (.inl (by decide))

theorem field {a b : Kind × String} {text : String} (words : a.1.isWord = true ∧ b.1.isWord = true)
    (after : Fuses xs ys) (written : a.2 ++ "." ++ b.2 = text) :
    Fuses (a :: (.symbol .dot, ".") :: b :: xs) ((.field, text) :: ys) := by
  subst written
  obtain ⟨first, second⟩ := words
  have other : a.1 ≠ .integer := by
    intro same
    rw [same] at first
    cases first
  refine @literal _ _ _ _ _ 2 ?_ after
  rw [Literal.first?_eq]
  simp [Literal.Window.apply, Literal.mac, Literal.timestamp, Literal.date, Literal.time,
    Literal.ipv4, Literal.field, Literal.separated, Literal.isDecimal, first, second, other,
    Literal.joined, String.append_assoc]

theorem ipv4 {a b c d : String} (numerals : ∀ s ∈ [a, b, c, d], Text.IsNumeral s.toList)
    (after : Fuses xs ys) :
    Fuses ((.integer, a) :: (.symbol .dot, ".") :: (.integer, b) :: (.symbol .dot, ".")
        :: (.integer, c) :: (.symbol .dot, ".") :: (.integer, d) :: xs)
      ((.ipv4, a ++ "." ++ b ++ "." ++ c ++ "." ++ d) :: ys) := by
  have decimal : ∀ s ∈ [a, b, c, d], Literal.isDecimal (Literal.placed (.integer, s)) = true :=
    fun s member => Literal.isDecimal_placed (numerals s member)
  simp only [List.forall_mem_cons, List.not_mem_nil, false_implies, implies_true, and_true]
    at decimal
  refine @literal _ _ _ _ _ 6 ?_ after
  rw [Literal.first?_eq]
  simp [Literal.Window.apply, Literal.mac, Literal.timestamp, Literal.date, Literal.ipv4,
    Literal.separated, decimal, Literal.joined, String.append_assoc]

theorem timestamp {y m d h i s : String}
    (numerals : ∀ n ∈ [y, m, d, h, i, s], Text.IsNumeral n.toList) :
    Fuses [(.integer, y), (.symbol .minus, "-"), (.integer, m), (.symbol .minus, "-"),
        (.integer, d), (.integer, h), (.symbol .colon, ":"), (.integer, i),
        (.symbol .colon, ":"), (.integer, s), (.stop, "")]
      [(.timestamp, y ++ "-" ++ m ++ "-" ++ d ++ " " ++ (h ++ ":" ++ i ++ ":" ++ s)),
        (.stop, "")] := by
  have decimal : ∀ n ∈ [y, m, d, h, i, s],
      Literal.isDecimal (Literal.placed (.integer, n)) = true :=
    fun n member => Literal.isDecimal_placed (numerals n member)
  simp only [List.forall_mem_cons, List.not_mem_nil, false_implies, implies_true, and_true]
    at decimal
  refine @literal _ _ _ _ _ 9 ?_ stop
  rw [Literal.first?_eq]
  simp [Literal.Window.apply, Literal.mac, Literal.timestamp, Literal.date, Literal.time,
    Literal.separated, decimal, Literal.joined, String.append_assoc]

theorem mac {a b c d e f : Kind × String}
    (groups : ∀ x ∈ [a, b, c, d, e, f], Literal.isHexGroup (Literal.placed x) = true) :
    Fuses [a, (.symbol .colon, ":"), b, (.symbol .colon, ":"), c, (.symbol .colon, ":"), d,
        (.symbol .colon, ":"), e, (.symbol .colon, ":"), f, (.stop, "")]
      [(.mac, Text.joined ":" ([a.2, b.2, c.2, d.2, e.2, f.2].map fun s =>
        String.ofList (Text.padLeft '0' 2 (Text.lower s).toList))), (.stop, "")] := by
  simp only [List.forall_mem_cons, List.not_mem_nil, false_implies, implies_true, and_true]
    at groups
  refine @literal _ _ _ _ _ 10 ?_ stop
  rw [Literal.first?_eq]
  simp [Literal.Window.apply, Literal.mac, Literal.separated, groups, Literal.macText,
    Literal.everyOther]

end Fuses

end PacketQuery.Language
