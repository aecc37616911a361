import PacketQuery.Language.Literal
import Mathlib.Data.List.Forall2
/-!
Fusing literals as a division of the tokens into parts. A form says of each of its tokens what it
has to be. From left to right a part is what the first of the forms fits, or one token where none
of them does. A fused token passes no test of a form, so fusing again changes nothing.
-/

namespace PacketQuery.Language

open Literal

/-- A literal of several tokens: its kind, a test for each token, and the text made of them. -/
structure Form where
  kind : Kind
  shape : List (Token → Bool)
  text : List Token → String

namespace Form

/-- Tests of `item` with `marks` tests of the mark between them. -/
def alternating (mark : Symbol) (item : Token → Bool) : (marks : Nat) → List (Token → Bool)
  | 0 => [item]
  | marks + 1 => item :: (·.kind = .symbol mark) :: alternating mark item marks

def mac : Form := ⟨.mac, alternating .colon isHexGroup 5, macText⟩

def ipv4 : Form := ⟨.ipv4, alternating .dot isDecimal 3, joined⟩

def date : Form := ⟨.date, alternating .minus isDecimal 2, joined⟩

def time : Form := ⟨.time, alternating .colon isDecimal 2, joined⟩

def field : Form := ⟨.field, alternating .dot (·.kind.isWord) 1, joined⟩

/-- A date and a time without a mark between. -/
def timestamp : Form :=
  ⟨.timestamp, date.shape ++ time.shape,
    fun ts => joined (ts.take date.shape.length) ++ " " ++ joined (ts.drop date.shape.length)⟩

/-- The forms in the order in which they are tried. -/
def all : List Form :=
  [mac, timestamp, ipv4, date, time, field]

/-- Each token passes its test, and there are no more and no fewer tokens. -/
def Fits (f : Form) (ts : List Token) : Prop :=
  List.Forall₂ (fun t test => test t = true) ts f.shape

/-- The form fits the head of the tokens. -/
def Begins (f : Form) (ts : List Token) : Prop :=
  ∃ us, us <+: ts ∧ f.Fits us

/-- `f` is the first of the forms that fits the head of the tokens `ts`, and `part` is that
head. -/
inductive Chosen (ts : List Token) : List Form → Form → List Token → Prop
  | here {f : Form} {fs : List Form} {part : List Token} :
      part <+: ts → f.Fits part → Chosen ts (f :: fs) f part
  | later {f g : Form} {fs : List Form} {part : List Token} :
      ¬ g.Begins ts → Chosen ts fs f part → Chosen ts (g :: fs) f part

end Form

/-- `us` are the tokens that the parts are made into, one by one: a part is what the first form
fits there, or one token at which no form does. -/
inductive Composition : (parts : List (List Token)) → (us : List Token) → Prop
  | nil : Composition [] []
  | kept {t : Token} {parts : List (List Token)} {us : List Token} :
      (∀ f ∈ Form.all, ¬ f.Begins (t :: parts.flatten)) → Composition parts us →
      Composition ([t] :: parts) (t :: us)
  | fused {f : Form} {t : Token} {ts : List Token} {parts : List (List Token)}
      {us : List Token} :
      Form.Chosen (t :: ts ++ parts.flatten) Form.all f (t :: ts) → Composition parts us →
      Composition ((t :: ts) :: parts) (⟨f.kind, f.text (t :: ts), t.line, t.column⟩ :: us)

namespace Form

variable {f : Form} {fs : List Form} {ts part : List Token}

theorem length_alternating (mark : Symbol) (item : Token → Bool) (marks : Nat) :
    (alternating mark item marks).length = 2 * marks + 1 := by
  induction marks with
  | zero => rfl
  | succ marks ih =>
    rw [alternating, List.length_cons, List.length_cons, ih]
    omega

theorem Fits.length_eq (fits : f.Fits ts) : ts.length = f.shape.length :=
  List.Forall₂.length_eq fits

theorem Chosen.fits (chosen : Chosen ts fs f part) : f ∈ fs ∧ part <+: ts ∧ f.Fits part := by
  induction chosen with
  | here head fits => exact ⟨List.mem_cons_self, head, fits⟩
  | later _ _ ih => exact ⟨List.mem_cons_of_mem _ ih.1, ih.2⟩

theorem shape_pos : ∀ f ∈ all, 0 < f.shape.length := by
  decide

theorem Fits.ne_nil (member : f ∈ all) (fits : f.Fits part) : part ≠ [] := by
  rw [← List.length_pos_iff, fits.length_eq]
  exact shape_pos f member

end Form

/-! ### The windows are the forms -/

/-- The window fuses what the form fits, into what the form says. -/
structure Window.Agrees (w : Window) (f : Form) : Prop where
  width : w.width = f.shape.length
  fuse : ∀ us : List Token, us.length = w.width → ∀ made,
    w.fuse us = some made ↔ f.Fits us ∧ made = (f.kind, f.text us)

namespace Form

variable {f g : Form} {fs : List Form} {ts us part : List Token}

theorem separated_iff (mark : Symbol) (item : Token → Bool) (marks : Nat)
    (whole : us.length = 2 * marks + 1) :
    separated mark item us = true ↔
      List.Forall₂ (fun t test => test t = true) us (alternating mark item marks) := by
  induction marks generalizing us with
  | zero =>
    obtain ⟨t, rfl⟩ := List.length_eq_one_iff.mp whole
    simp [separated, alternating]
  | succ marks ih =>
    obtain ⟨t, sep, rest, rfl⟩ : ∃ t sep rest, us = t :: sep :: rest := by
      cases us with
      | nil => simp at whole
      | cons t us =>
        cases us with
        | nil => simp at whole
        | cons sep rest => exact ⟨t, sep, rest, rfl⟩
    have fewer : rest.length = 2 * marks + 1 := by
      simp only [List.length_cons] at whole
      omega
    simp [separated, alternating, ih fewer, and_assoc]

/-- A window whose test is one of marks between items. -/
theorem agrees_of_separated {kind : Kind} {mark : Symbol} {item : Token → Bool}
    {text : List Token → String} {fuse : List Token → Option (Kind × String)} (marks : Nat)
    (test : ∀ us, fuse us = if separated mark item us then some (kind, text us) else none) :
    Window.Agrees ⟨2 * marks + 1, fuse⟩ ⟨kind, alternating mark item marks, text⟩ where
  width := (length_alternating mark item marks).symm
  fuse us whole made := by
    simp only [Fits]
    rw [← separated_iff mark item marks whole, test us]
    split
    next shape => simp [shape, eq_comm]
    next shape => simp [shape]

theorem fits_timestamp {days clock : List Token} (five : days.length = 5)
    (five' : clock.length = 5) :
    timestamp.Fits (days ++ clock) ↔
      separated .minus isDecimal days = true ∧ separated .colon isDecimal clock = true := by
  rw [separated_iff .minus isDecimal 2 five, separated_iff .colon isDecimal 2 five']
  constructor
  · intro fits
    have early := List.forall₂_take 5 fits
    have late := List.forall₂_drop 5 fits
    rw [List.take_left' five] at early
    rw [List.drop_left' five] at late
    exact ⟨early, late⟩
  · intro both
    exact List.rel_append both.1 both.2

theorem agrees_timestamp : Window.Agrees ⟨10, Literal.timestamp⟩ timestamp where
  width := rfl
  fuse us whole made := by
    have ten : us.length = 10 := whole
    have five : (us.take 5).length = 5 := by
      rw [List.length_take, ten]
      rfl
    have five' : (us.drop 5).length = 5 := by
      rw [List.length_drop, ten]
    have shape := fits_timestamp five five'
    rw [List.take_append_drop] at shape
    simp only [shape, Literal.timestamp, Literal.date, Literal.time]
    by_cases days : separated .minus isDecimal (us.take 5) = true
    · by_cases clock : separated .colon isDecimal (us.drop 5) = true
      · simp only [days, clock, if_true, true_and, Option.some.injEq]
        exact eq_comm
      · simp [days, clock]
    · simp [days]

theorem agrees_windows : List.Forall₂ Window.Agrees windows all := by
  have macs : Window.Agrees ⟨11, Literal.mac⟩ mac := agrees_of_separated 5 fun _ => rfl
  have addresses : Window.Agrees ⟨7, Literal.ipv4⟩ ipv4 := agrees_of_separated 3 fun _ => rfl
  have dates : Window.Agrees ⟨5, Literal.date⟩ date := agrees_of_separated 2 fun _ => rfl
  have times : Window.Agrees ⟨5, Literal.time⟩ time := agrees_of_separated 2 fun _ => rfl
  have fields : Window.Agrees ⟨3, Literal.field⟩ field := agrees_of_separated 1 fun _ => rfl
  exact .cons macs (.cons agrees_timestamp (.cons addresses (.cons dates (.cons times
    (.cons fields .nil)))))

theorem apply_eq_some_iff {w : Window} (agrees : w.Agrees f) (made : Kind × String × Nat) :
    Window.apply w ts = some made ↔
      ∃ part, part <+: ts ∧ f.Fits part ∧ made = (f.kind, f.text part, part.length) := by
  unfold Window.apply
  constructor
  · intro applied
    split at applied
    next whole =>
      obtain ⟨⟨kind, text⟩, fused, rfl⟩ := Option.map_eq_some_iff.mp applied
      obtain ⟨fits, same⟩ := (agrees.fuse _ whole _).mp fused
      cases same
      exact ⟨_, List.take_prefix w.width ts, fits, by rw [whole]⟩
    next => cases applied
  · rintro ⟨part, head, fits, rfl⟩
    have width : part.length = w.width := fits.length_eq.trans agrees.width.symm
    have taken : ts.take w.width = part := by
      rw [← width]
      exact (List.prefix_iff_eq_take.mp head).symm
    have fused := (agrees.fuse part width _).mpr ⟨fits, rfl⟩
    simp [taken, width, fused]

theorem apply_eq_none_iff {w : Window} (agrees : w.Agrees f) :
    Window.apply w ts = none ↔ ¬ f.Begins ts := by
  rw [Option.eq_none_iff_forall_ne_some]
  constructor
  · rintro never ⟨part, head, fits⟩
    exact never _ ((apply_eq_some_iff agrees _).mpr ⟨part, head, fits, rfl⟩)
  · intro apart made applied
    obtain ⟨part, head, fits, -⟩ := (apply_eq_some_iff agrees made).mp applied
    exact apart ⟨part, head, fits⟩

theorem findSome?_eq_some_iff {ws : List Window} {fs : List Form}
    (agree : List.Forall₂ Window.Agrees ws fs) (made : Kind × String × Nat) :
    ws.findSome? (Window.apply · ts) = some made ↔
      ∃ f part, Chosen ts fs f part ∧ made = (f.kind, f.text part, part.length) := by
  induction agree with
  | nil =>
    constructor
    · nofun
    · rintro ⟨f, part, chosen, -⟩
      cases chosen
  | @cons w g ws fs agrees _ ih =>
    rw [List.findSome?_cons]
    constructor
    · intro found
      split at found
      next applied =>
        cases found
        obtain ⟨part, head, fits, rfl⟩ := (apply_eq_some_iff agrees _).mp applied
        exact ⟨g, part, .here head fits, rfl⟩
      next applied =>
        obtain ⟨f, part, chosen, rfl⟩ := ih.mp found
        exact ⟨f, part, .later ((apply_eq_none_iff agrees).mp applied) chosen, rfl⟩
    · rintro ⟨f, part, chosen, rfl⟩
      cases chosen with
      | here head fits =>
        rw [(apply_eq_some_iff agrees _).mpr ⟨part, head, fits, rfl⟩]
      | later apart chosen =>
        rw [(apply_eq_none_iff agrees).mpr apart]
        exact ih.mpr ⟨f, part, chosen, rfl⟩

/-- The literal at the head of the tokens is that of the form chosen there. -/
theorem first?_eq_some_iff (made : Kind × String × Nat) :
    first? ts = some made ↔
      ∃ f part, Chosen ts all f part ∧ made = (f.kind, f.text part, part.length) :=
  findSome?_eq_some_iff agrees_windows made

theorem exists_chosen (member : f ∈ fs) (begins : f.Begins ts) :
    ∃ g part, Chosen ts fs g part := by
  induction fs with
  | nil => cases member
  | cons g fs ih =>
    by_cases first : g.Begins ts
    · obtain ⟨part, head, fits⟩ := first
      exact ⟨g, part, .here head fits⟩
    · rcases List.mem_cons.mp member with rfl | member
      · exact absurd begins first
      · obtain ⟨g', part, chosen⟩ := ih member
        exact ⟨g', part, .later first chosen⟩

theorem first?_eq_none_iff : first? ts = none ↔ ∀ f ∈ all, ¬ f.Begins ts := by
  rw [Option.eq_none_iff_forall_ne_some]
  constructor
  · intro never f member begins
    obtain ⟨g, part, chosen⟩ := exists_chosen member begins
    exact never _ ((first?_eq_some_iff _).mpr ⟨g, part, chosen, rfl⟩)
  · intro apart made found
    obtain ⟨f, part, chosen, -⟩ := (first?_eq_some_iff made).mp found
    obtain ⟨member, head, fits⟩ := chosen.fits
    exact apart f member ⟨part, head, fits⟩

end Form

variable {parts : List (List Token)} {ts us : List Token}

/-! ### The parts determine the tokens -/

theorem Composition.compose_eq (h : Composition parts us) : compose parts.flatten = us := by
  induction h with
  | nil => rw [List.flatten_nil, compose]
  | @kept t parts us apart _ ih =>
    have alone : first? (t :: parts.flatten) = none := Form.first?_eq_none_iff.mpr apart
    rw [List.flatten_cons, List.singleton_append, compose, alone]
    exact congrArg (t :: ·) ih
  | @fused f t ts parts us chosen _ ih =>
    have literal := (Form.first?_eq_some_iff _).mpr ⟨f, _, chosen, rfl⟩
    rw [List.cons_append] at literal
    rw [List.flatten_cons, List.cons_append, compose, literal]
    simpa using ih

theorem exists_composition (ts : List Token) :
    ∃ parts, parts.flatten = ts ∧ Composition parts (compose ts) := by
  induction ts using compose.induct with
  | case1 => exact ⟨[], rfl, by rw [compose]; exact .nil⟩
  | case2 t ts kind text width fused ih =>
    obtain ⟨parts, covers, composed⟩ := ih
    obtain ⟨f, part, chosen, same⟩ := (Form.first?_eq_some_iff _).mp fused
    cases same
    obtain ⟨member, ⟨rest, split⟩, fits⟩ := chosen.fits
    obtain ⟨u, us, rfl⟩ := List.exists_cons_of_ne_nil (fits.ne_nil member)
    rw [List.cons_append, List.cons.injEq] at split
    obtain ⟨rfl, rfl⟩ := split
    have left : (us ++ rest).drop ((u :: us).length - 1) = rest := List.drop_left' rfl
    rw [left] at covers composed
    rw [compose, fused, ← covers]
    simp only [left, covers]
    refine ⟨(u :: us) :: parts, by rw [List.flatten_cons, covers]; rfl, .fused ?_ composed⟩
    rwa [covers]
  | case3 t ts apart ih =>
    obtain ⟨parts, rfl, composed⟩ := ih
    rw [compose, apart]
    exact ⟨[t] :: parts, rfl, .kept (Form.first?_eq_none_iff.mp apart) composed⟩

theorem compose_eq_iff :
    compose ts = us ↔ ∃ parts, parts.flatten = ts ∧ Composition parts us := by
  constructor
  · rintro rfl
    exact exists_composition ts
  · rintro ⟨parts, rfl, composed⟩
    exact composed.compose_eq

/-! ### Fused tokens stay as they are -/

/-- The kinds of the tokens that fusing makes. -/
def Form.kinds : List Kind :=
  all.map (·.kind)

namespace Form

variable {f : Form} {t : Token} {test : Token → Bool}

theorem mem_alternating {mark : Symbol} {item : Token → Bool} {marks : Nat}
    (member : test ∈ alternating mark item marks) :
    test = item ∨ test = fun t : Token => decide (t.kind = .symbol mark) := by
  induction marks with
  | zero => exact .inl (List.mem_singleton.mp member)
  | succ marks ih =>
    rcases List.mem_cons.mp member with item' | later
    · exact .inl item'
    · rcases List.mem_cons.mp later with mark' | later
      · exact .inr mark'
      · exact ih later

theorem symbol_notMem_kinds (mark : Symbol) : Kind.symbol mark ∉ kinds := by
  simp [kinds, all, mac, timestamp, ipv4, date, time, field]

theorem keyword_notMem_kinds (word : Keyword) : Kind.keyword word ∉ kinds := by
  simp [kinds, all, mac, timestamp, ipv4, date, time, field]

theorem kind_of_isDecimal (passed : isDecimal t = true) : t.kind = .integer := by
  simp only [isDecimal, Bool.and_eq_true, decide_eq_true_eq] at passed
  exact passed.1.1

theorem raw_of_isDecimal (passed : isDecimal t = true) : t.kind ∉ kinds := by
  rw [kind_of_isDecimal passed]
  decide

theorem raw_of_isHexGroup (passed : isHexGroup t = true) : t.kind ∉ kinds := by
  have kind : t.kind = .integer ∨ t.kind = .name := by
    simp only [isHexGroup, Bool.and_eq_true, Bool.or_eq_true, decide_eq_true_eq] at passed
    exact passed.1.1.1
  rcases kind with kind | kind <;> rw [kind] <;> decide

theorem raw_of_isWord (passed : t.kind.isWord = true) : t.kind ∉ kinds := by
  unfold Kind.isWord at passed
  split at passed
  next kind => rw [kind]; decide
  next kind => rw [kind]; decide
  next => cases passed

theorem raw_of_alternating {mark : Symbol} {item : Token → Bool} {marks : Nat}
    (raw : item t = true → t.kind ∉ kinds) (member : test ∈ alternating mark item marks)
    (passed : test t = true) : t.kind ∉ kinds := by
  rcases mem_alternating member with rfl | rfl
  · exact raw passed
  · have kind : t.kind = .symbol mark := of_decide_eq_true passed
    rw [kind]
    exact symbol_notMem_kinds mark

/-- No form has a fused token among its tokens. -/
theorem raw_of_test (member : f ∈ all) (part : test ∈ f.shape) (passed : test t = true) :
    t.kind ∉ kinds := by
  simp only [all, List.mem_cons, List.not_mem_nil, or_false] at member
  rcases member with rfl | rfl | rfl | rfl | rfl | rfl
  · exact raw_of_alternating raw_of_isHexGroup part passed
  · rcases List.mem_append.mp part with days | clock
    · exact raw_of_alternating raw_of_isDecimal days passed
    · exact raw_of_alternating raw_of_isDecimal clock passed
  · exact raw_of_alternating raw_of_isDecimal part passed
  · exact raw_of_alternating raw_of_isDecimal part passed
  · exact raw_of_alternating raw_of_isDecimal part passed
  · exact raw_of_alternating raw_of_isWord part passed

theorem Fits.exists_of_test {ts : List Token} (fits : f.Fits ts) (part : test ∈ f.shape) :
    ∃ t ∈ ts, test t = true := by
  obtain ⟨i, inside, rfl⟩ := List.getElem_of_mem part
  have inside' : i < ts.length := fits.length_eq ▸ inside
  exact ⟨_, List.get_mem ts ⟨i, inside'⟩, List.Forall₂.get fits inside' inside⟩

theorem Fits.raw {ts : List Token} (member : f ∈ all) (fits : f.Fits ts) :
    ∀ t ∈ ts, t.kind ∉ kinds := by
  intro t found
  obtain ⟨i, inside, rfl⟩ := List.getElem_of_mem found
  have inside' : i < f.shape.length := fits.length_eq ▸ inside
  exact raw_of_test member (List.get_mem _ _) (List.Forall₂.get fits inside inside')

theorem Chosen.mem_kinds {ts part : List Token} (chosen : Chosen ts all f part) :
    f.kind ∈ kinds :=
  List.mem_map_of_mem chosen.fits.1

end Form

/-- Tokens at the head that are not fused are the same before fusing. -/
theorem Composition.prefix_of_raw (h : Composition parts us) {vs : List Token}
    (head : vs <+: us) (raw : ∀ t ∈ vs, t.kind ∉ Form.kinds) : vs <+: parts.flatten := by
  induction h generalizing vs with
  | nil => exact head
  | @kept t parts us _ _ ih =>
    cases vs with
    | nil => exact List.nil_prefix
    | cons v vs =>
      obtain ⟨rfl, later⟩ := List.cons_prefix_cons.mp head
      rw [List.forall_mem_cons] at raw
      exact List.cons_prefix_cons.mpr ⟨rfl, ih later raw.2⟩
  | @fused f t ts parts us chosen _ ih =>
    cases vs with
    | nil => exact List.nil_prefix
    | cons v vs =>
      obtain ⟨rfl, -⟩ := List.cons_prefix_cons.mp head
      exact absurd chosen.mem_kinds (raw _ List.mem_cons_self)

/-- Where tokens were kept or fused no form fits any more. -/
theorem Composition.apart (h : Composition parts us) :
    ∀ f ∈ Form.all, ∀ vs, vs <:+: us → ¬ f.Fits vs := by
  intro f member vs inside fits
  induction h with
  | nil => exact fits.ne_nil member (List.infix_nil.mp inside)
  | @kept t parts us apart rest ih =>
    rcases List.infix_cons_iff.mp inside with head | later
    · have before := (Composition.kept apart rest).prefix_of_raw head (fits.raw member)
      exact apart f member ⟨vs, before, fits⟩
    · exact ih later
  | fused chosen _ ih =>
    rcases List.infix_cons_iff.mp inside with head | later
    · obtain ⟨v, vs, rfl⟩ := List.exists_cons_of_ne_nil (fits.ne_nil member)
      obtain ⟨rfl, -⟩ := List.cons_prefix_cons.mp head
      exact fits.raw member _ List.mem_cons_self chosen.mem_kinds
    · exact ih later

/-- Tokens among which no form fits anything stay as they are. -/
theorem compose_eq_self (apart : ∀ f ∈ Form.all, ∀ us, us <:+: ts → ¬ f.Fits us) :
    compose ts = ts := by
  have single : Composition (ts.map ([·])) ts := by
    induction ts with
    | nil => exact .nil
    | cons t ts ih =>
      refine .kept (fun f member begins => ?_) (ih fun f member us inside => ?_)
      · obtain ⟨us, head, fits⟩ := begins
        rw [← List.flatMap_def, List.flatMap_singleton'] at head
        exact apart f member us head.isInfix fits
      · exact apart f member us (List.infix_cons inside)
  have whole := single.compose_eq
  rwa [← List.flatMap_def, List.flatMap_singleton'] at whole

/-- Tokens that a form fits somewhere are not all left as they are. -/
theorem exists_fused {f : Form} {us : List Token} (member : f ∈ Form.all) (fits : f.Fits us)
    (inside : us <:+: ts) : ∃ t ∈ compose ts, t.kind ∈ Form.kinds := by
  obtain ⟨parts, rfl, composed⟩ := exists_composition ts
  generalize compose parts.flatten = made at composed
  induction composed with
  | nil =>
    rw [List.flatten_nil, List.infix_nil] at inside
    exact absurd inside (fits.ne_nil member)
  | @kept t parts made apart _ ih =>
    rw [List.flatten_cons, List.singleton_append, List.infix_cons_iff] at inside
    rcases inside with head | later
    · exact absurd ⟨us, head, fits⟩ (apart f member)
    · obtain ⟨u, found, kind⟩ := ih later
      exact ⟨u, List.mem_cons_of_mem t found, kind⟩
  | fused chosen _ _ => exact ⟨_, List.mem_cons_self, chosen.mem_kinds⟩

/-- A composed token was there before, or is what a form makes of tokens that it fits. -/
theorem mem_compose_cases {t : Token} (member : t ∈ compose ts) :
    t ∈ ts ∨ ∃ f ∈ Form.all, ∃ us, f.Fits us ∧ t.kind = f.kind ∧ t.text = f.text us := by
  obtain ⟨parts, rfl, composed⟩ := exists_composition ts
  generalize compose parts.flatten = made at composed member
  induction composed with
  | nil => cases member
  | @kept u parts made _ _ ih =>
    rcases List.mem_cons.mp member with rfl | later
    · exact .inl List.mem_cons_self
    · exact (ih later).imp_left (List.mem_cons_of_mem u)
  | @fused f u us parts made chosen _ ih =>
    rcases List.mem_cons.mp member with rfl | later
    · exact .inr ⟨f, chosen.fits.1, u :: us, chosen.fits.2.2, rfl, rfl⟩
    · refine (ih later).imp_left fun found => ?_
      rw [List.flatten_cons]
      exact List.mem_append_right _ found

theorem mem_of_mem_compose {t : Token} (member : t ∈ compose ts) :
    t ∈ ts ∨ t.kind ∈ Form.kinds := by
  rcases mem_compose_cases member with before | ⟨f, form, us, -, kind, -⟩
  · exact .inl before
  · exact .inr (kind ▸ List.mem_map_of_mem form)

/-- Fusing literals divides the tokens from left to right, each part being what the first form
fits or a single token where none fits, longer forms being tried before shorter ones; and fused
tokens are not fused again. -/
theorem compose_greedy (ts : List Token) :
    (∀ us, compose ts = us ↔ ∃ parts, parts.flatten = ts ∧ Composition parts us) ∧
      Form.all.Pairwise (fun f g => g.shape.length ≤ f.shape.length) ∧
      compose (compose ts) = compose ts := by
  obtain ⟨parts, -, composed⟩ := exists_composition ts
  exact ⟨fun us => compose_eq_iff, by decide, compose_eq_self composed.apart⟩

end PacketQuery.Language
