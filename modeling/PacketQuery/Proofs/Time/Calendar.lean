import PacketQuery.Proofs.Text.Numerals
import PacketQuery.Time.Calendar
/-!
The calendar counts days and names dates in the same way: every day has a date that exists, and
the date leads back to the day. So the text of a moment is read back as the moment.
-/

namespace PacketQuery.Time

namespace Date

/-- The days of an era before one of its years, which begin in March. -/
def daysBefore (year : Int) : Int :=
  365 * year + year / 4 - year / 100

/-- What the years of an era are divided from: the days without the leap days before them. -/
def commonDays (day : Int) : Int :=
  day - day / 1460 + day / 36524 - day / 146096

theorem commonDays_mono {i j : Int} (le : i ≤ j) : commonDays i ≤ commonDays j := by
  have four : ∀ k : Int, k / 146096 = k / 36524 / 4 := by
    intro k
    omega
  unfold commonDays
  rw [four i, four j]
  have years : i - i / 1460 ≤ j - j / 1460 := by omega
  have centuries : i / 36524 ≤ j / 36524 := by omega
  omega

/-- The first day of a year is the first from which its number is counted. -/
theorem commonDays_first : ∀ year : Fin 400,
    commonDays (daysBefore year.val) = 365 * year.val ∧
      (0 < year.val → commonDays (daysBefore year.val - 1) < 365 * year.val) := by
  decide +kernel

/-- The year of an era in which one of its days lies. -/
def yearOf (day : Int) : Int :=
  commonDays day / 365

section Era

variable {day : Int} (low : 0 ≤ day) (high : day < 146097)
include low high

theorem yearOf_range : 0 ≤ yearOf day ∧ yearOf day < 400 := by
  unfold yearOf commonDays
  omega

omit low high in
theorem commonDays_range :
    365 * yearOf day ≤ commonDays day ∧ commonDays day < 365 * (yearOf day + 1) := by
  unfold yearOf
  omega

theorem daysBefore_yearOf : daysBefore (yearOf day) ≤ day := by
  obtain ⟨first, last⟩ := yearOf_range low high
  have enough := (@commonDays_range day).1
  obtain ⟨year, same⟩ := Int.eq_ofNat_of_zero_le first
  rw [same] at last enough ⊢
  have counted := (commonDays_first ⟨year, by omega⟩).2
  by_contra later
  have before := commonDays_mono (show day ≤ daysBefore year - 1 by omega)
  have positive : 0 < year := by
    rcases Nat.eq_zero_or_pos year with rfl | positive
    · exact absurd low later
    · exact positive
  have fewer := counted positive
  dsimp only at fewer
  omega

theorem lt_daysBefore_yearOf (others : yearOf day < 399) : day < daysBefore (yearOf day + 1) := by
  obtain ⟨first, _⟩ := yearOf_range low high
  have few := (@commonDays_range day).2
  obtain ⟨year, same⟩ := Int.eq_ofNat_of_zero_le first
  rw [same] at others few ⊢
  have counted := (commonDays_first ⟨year + 1, by omega⟩).1
  by_contra later
  have after := commonDays_mono (show daysBefore (year + 1) ≤ day by omega)
  dsimp only at counted
  push_cast at counted
  omega

/-- The last year of an era and those before a leap year have 366 days. -/
theorem day_range : 0 ≤ day - daysBefore (yearOf day) ∧ day - daysBefore (yearOf day) ≤ 365 ∧
    (day - daysBefore (yearOf day) = 365 →
      (yearOf day + 1) % 4 = 0 ∧ ((yearOf day + 1) % 100 ≠ 0 ∨ (yearOf day + 1) % 400 = 0)) := by
  obtain ⟨first, last⟩ := yearOf_range low high
  have before := daysBefore_yearOf low high
  have after := lt_daysBefore_yearOf low high
  generalize yearOf day = year at *
  unfold daysBefore at *
  have fourth : (year + 1) / 4 ≤ year / 4 + 1 := by omega
  have century : year / 100 ≤ (year + 1) / 100 := by omega
  refine ⟨by omega, ?_, fun full => ?_⟩
  · by_cases others : year < 399
    · have next := after others
      omega
    · omega
  · by_cases others : year < 399
    · have next := after others
      have later : (year + 1) / 4 = year / 4 + 1 := by omega
      have same : (year + 1) / 100 = year / 100 := by omega
      omega
    · omega

end Era

/-- The date of a day of a year of an era, all counted from zero. -/
def ofParts (era year day : Int) : Date :=
  let monthFromMarch := (5 * day + 2) / 153
  let month := if monthFromMarch < 10 then monthFromMarch + 3 else monthFromMarch - 9
  ⟨year + era * 400 + (if month ≤ 2 then 1 else 0), month.toNat,
    (day - (153 * monthFromMarch + 2) / 5 + 1).toNat⟩

theorem ofDays_eq (days : Int) : ofDays days =
    ofParts ((days + 719468) / 146097) (yearOf ((days + 719468) % 146097))
      ((days + 719468) % 146097 - daysBefore (yearOf ((days + 719468) % 146097))) :=
  rfl

section Parts

variable {era year day m : Int} (month : (5 * day + 2) / 153 = m)

section Month

include month

/-- The months from March to December. -/
theorem ofParts_of_lt (early : m < 10) (some_ : 0 ≤ m) : ofParts era year day
    = ⟨year + era * 400, (m + 3).toNat, (day - (153 * m + 2) / 5 + 1).toNat⟩ := by
  have sameYear : ¬ m + 3 ≤ 2 := by omega
  simp only [ofParts, month, if_pos early, if_neg sameYear, Int.add_zero]

/-- January and February belong to the next year of the calendar. -/
theorem ofParts_of_le (late : 10 ≤ m) (last : m ≤ 11) : ofParts era year day
    = ⟨year + era * 400 + 1, (m - 9).toNat, (day - (153 * m + 2) / 5 + 1).toNat⟩ := by
  have nextYear : m - 9 ≤ 2 := by omega
  simp only [ofParts, month, if_neg (not_lt.mpr late), if_pos nextYear]

end Month

variable (first : 0 ≤ day) (last : day ≤ 365)
include first last

theorem toDays_ofParts (early : 0 ≤ year) (late : year < 400) :
    (ofParts era year day).toDays = era * 146097 + daysBefore year + day - 719468 := by
  obtain ⟨m, month⟩ : ∃ m, (5 * day + 2) / 153 = m := ⟨_, rfl⟩
  have some_ : 0 ≤ m := by omega
  have bound : m ≤ 11 := by omega
  unfold daysBefore
  by_cases sameYear : m < 10
  · have number : ((m + 3).toNat + 9) % 12 = m.toNat := by omega
    have spring : ¬ (m + 3).toNat ≤ 2 := by omega
    rw [ofParts_of_lt month sameYear some_, toDays]
    dsimp only
    rw [if_neg spring, number]
    omega
  · have number : ((m - 9).toNat + 9) % 12 = m.toNat := by omega
    have winter : (m - 9).toNat ≤ 2 := by omega
    rw [ofParts_of_le month (not_lt.mp sameYear) bound, toDays]
    dsimp only
    rw [if_pos winter, number]
    omega

theorem isValid_ofParts (leap : day = 365 →
    (year + 1) % 4 = 0 ∧ ((year + 1) % 100 ≠ 0 ∨ (year + 1) % 400 = 0)) :
    (ofParts era year day).isValid = true := by
  obtain ⟨m, month⟩ : ∃ m, (5 * day + 2) / 153 = m := ⟨_, rfl⟩
  have some_ : 0 ≤ m := by omega
  have bound : m ≤ 11 := by omega
  have valid : ∀ {y : Int} {number : Nat}, day - (153 * m + 2) / 5 + 1 ≤ daysIn y number →
      isValid ⟨y, number, (day - (153 * m + 2) / 5 + 1).toNat⟩ = true := by
    intro y number short
    have positive : (153 * m + 2) / 5 ≤ day := by omega
    rw [isValid, Bool.and_eq_true, decide_eq_true_eq, decide_eq_true_eq]
    dsimp only
    omega
  by_cases sameYear : m < 10
  · rw [ofParts_of_lt month sameYear some_]
    refine valid ?_
    interval_cases m <;> simp only [Int.reduceAdd, Int.reduceToNat, daysIn] <;> omega
  · rw [ofParts_of_le month (not_lt.mp sameYear) bound]
    refine valid ?_
    interval_cases m
    · simp only [Int.reduceSub, Int.reduceToNat, daysIn]
      omega
    · simp only [Int.reduceSub, Int.reduceToNat, daysIn]
      by_cases full : day = 365
      · have leaps : isLeap (year + era * 400 + 1) = true := by
          obtain ⟨fourth, century⟩ := leap full
          simp only [isLeap, Bool.and_eq_true, Bool.or_eq_true, beq_iff_eq, bne_iff_ne]
          omega
        rw [if_pos leaps]
        omega
      · split <;> omega

end Parts

theorem toDays_ofDays (days : Int) : (ofDays days).toDays = days := by
  have low : 0 ≤ (days + 719468) % 146097 := by omega
  have high : (days + 719468) % 146097 < 146097 := by omega
  obtain ⟨first, last, _⟩ := day_range low high
  obtain ⟨early, late⟩ := yearOf_range low high
  rw [ofDays_eq, toDays_ofParts first last early late]
  omega

theorem isValid_ofDays (days : Int) : (ofDays days).isValid = true := by
  have low : 0 ≤ (days + 719468) % 146097 := by omega
  have high : (days + 719468) % 146097 < 146097 := by omega
  obtain ⟨first, last, leap⟩ := day_range low high
  rw [ofDays_eq]
  exact isValid_ofParts first last leap

end Date

/-- The moment lies in a year that is written in four digits. -/
def HasFourDigits (seconds : Int) : Prop :=
  0 ≤ (Date.ofDays (seconds / secondsPerDay)).year ∧
    (Date.ofDays (seconds / secondsPerDay)).year ≤ 9999

/-- The text of a date whose year has four digits. -/
def dateText (d : Date) : String :=
  Text.digits 4 d.year.toNat ++ "-" ++ Text.digits 2 d.month ++ "-" ++ Text.digits 2 d.day

/-- The text of a time of day. -/
def clockText (clock : Nat) : String :=
  Text.digits 2 (clock / 3600) ++ ":" ++ Text.digits 2 (clock / 60 % 60) ++ ":"
    ++ Text.digits 2 (clock % 60)

theorem text_eq {seconds : Int} (four : HasFourDigits seconds) : text seconds =
    dateText (Date.ofDays (seconds / secondsPerDay)) ++ " "
      ++ clockText (seconds % secondsPerDay).toNat := by
  have shown : hasText (Date.ofDays (seconds / secondsPerDay)).year = true := by
    obtain ⟨early, late⟩ := four
    rw [hasText, Bool.and_eq_true, decide_eq_true_eq, decide_eq_true_eq]
    omega
  simp only [text, if_pos shown, yearText, if_pos (show _ ∧ _ from four), dateText, clockText,
    String.append_assoc]

/-- The text is made of six numbers. -/
theorem text_numerals {seconds : Int} (four : HasFourDigits seconds) : ∃ y m d h i s : String,
    (∀ n ∈ [y, m, d, h, i, s], Text.IsNumeral n.toList) ∧
      text seconds = y ++ "-" ++ m ++ "-" ++ d ++ " " ++ (h ++ ":" ++ i ++ ":" ++ s) := by
  refine ⟨_, _, _, _, _, _, ?_, text_eq four⟩
  simp [Text.isNumeral_digits]

theorem number?_digits {width n : Nat} (positive : 0 < width) (fits : n < 10 ^ width) :
    number? width (Text.digits width n).toList = some n := by
  rw [number?, Text.length_digits positive fits, if_pos le_rfl, Text.decimal?_digits]

theorem notMem_digits {c : Char} (other : c.isDigit = false) (width n : Nat) :
    c ∉ (Text.digits width n).toList :=
  (Text.isNumeral_digits width n).notMem other

theorem Date.short_of_isValid {d : Date} (valid : d.isValid = true) :
    d.month < 100 ∧ d.day < 100 := by
  rw [isValid, Bool.and_eq_true, decide_eq_true_eq, decide_eq_true_eq] at valid
  obtain ⟨first, last⟩ := valid
  unfold daysIn at last
  split at last
  all_goals try split at last
  all_goals omega

theorem readDate?_dateText {d : Date} (early : 0 ≤ d.year) (late : d.year ≤ 9999)
    (valid : d.isValid = true) : readDate? (dateText d).toList = some d := by
  have year : d.year.toNat < 10 ^ 4 := by omega
  obtain ⟨month, day⟩ := Date.short_of_isValid valid
  have pieces : Text.pieces '-' (dateText d).toList = [(Text.digits 4 d.year.toNat).toList,
      (Text.digits 2 d.month).toList, (Text.digits 2 d.day).toList] := by
    have minus := fun width n => Text.pieces_of_notMem (notMem_digits (c := '-') rfl width n)
    have written : (dateText d).toList = (Text.digits 4 d.year.toNat).toList ++ '-' ::
        ((Text.digits 2 d.month).toList ++ '-' :: (Text.digits 2 d.day).toList) := by
      simp [dateText, String.toList_append]
    rw [written, Text.pieces_append_cons, Text.pieces_append_cons, minus, minus, minus]
    rfl
  rw [readDate?, pieces]
  dsimp only
  rw [number?_digits (by decide) year, number?_digits (by decide) month,
    number?_digits (by decide) day]
  simp [max_eq_left early, valid]

theorem readClock?_clockText {clock : Nat} (short : clock < 86400) :
    readClock? (clockText clock).toList = some clock := by
  have hours : clock / 3600 < 24 := by omega
  have minutes : clock / 60 % 60 < 60 := by omega
  have seconds : clock % 60 < 60 := by omega
  have whole : clock / 3600 * 3600 + clock / 60 % 60 * 60 + min (clock % 60) 59 = clock := by
    omega
  have pieces : Text.pieces ':' (clockText clock).toList = [(Text.digits 2 (clock / 3600)).toList,
      (Text.digits 2 (clock / 60 % 60)).toList, (Text.digits 2 (clock % 60)).toList] := by
    have colon := fun width n => Text.pieces_of_notMem (notMem_digits (c := ':') rfl width n)
    have written : (clockText clock).toList = (Text.digits 2 (clock / 3600)).toList ++ ':' ::
        ((Text.digits 2 (clock / 60 % 60)).toList ++ ':' ::
          (Text.digits 2 (clock % 60)).toList) := by
      simp [clockText, String.toList_append]
    rw [written, Text.pieces_append_cons, Text.pieces_append_cons, colon, colon, colon]
    rfl
  rw [readClock?, pieces]
  dsimp only
  rw [number?_digits (by decide) (by omega), number?_digits (by decide) (by omega),
    number?_digits (by decide) (by omega)]
  simp only [Option.bind_eq_bind, Option.bind_some]
  rw [if_pos ⟨hours, minutes, seconds.le⟩, whole]

/-! ### How far a written moment is from the epoch -/

theorem number?_lt {width n : Nat} {cs : List Char} (h : number? width cs = some n) :
    n < 10 ^ width := by
  unfold number? at h
  split at h
  next short =>
    exact lt_of_lt_of_le (Text.lt_of_decimal? h) (Nat.pow_le_pow_right (by decide) short)
  next => cases h

theorem readDate?_range {cs : List Char} {d : Date} (h : readDate? cs = some d) :
    0 ≤ d.year ∧ d.year ≤ 9999 ∧ d.day < 100 := by
  unfold readDate? at h
  split at h
  next y m day _ =>
    obtain ⟨year, readYear, h⟩ := Option.bind_eq_some_iff.mp h
    obtain ⟨month, -, h⟩ := Option.bind_eq_some_iff.mp h
    obtain ⟨number, readDay, h⟩ := Option.bind_eq_some_iff.mp h
    have small := number?_lt readYear
    have short := number?_lt readDay
    dsimp only at h
    split at h
    next =>
      cases h
      dsimp only
      omega
    next => cases h
  next => cases h

theorem readClock?_lt {cs : List Char} {s : Nat} (h : readClock? cs = some s) : s < 86400 := by
  unfold readClock? at h
  split at h
  next =>
    obtain ⟨hours, -, h⟩ := Option.bind_eq_some_iff.mp h
    obtain ⟨minutes, -, h⟩ := Option.bind_eq_some_iff.mp h
    obtain ⟨seconds, -, h⟩ := Option.bind_eq_some_iff.mp h
    split at h
    next =>
      cases h
      omega
    next => cases h
  next => cases h

/-- Midnights of the years that can be written lie within 38 bits. -/
theorem ofDate_range {d : Date} (first : 0 ≤ d.year) (last : d.year ≤ 9999) (day : d.day < 100) :
    -2 ^ 37 ≤ ofDate d ∧ ofDate d < 2 ^ 38 := by
  have days : -720000 ≤ d.toDays ∧ d.toDays ≤ 3000000 := by
    unfold Date.toDays
    extract_lets year era yearOfEra dayOfYear
    have years : -1 ≤ year ∧ year ≤ 9999 := by
      dsimp only [year]
      split <;> omega
    omega
  unfold ofDate secondsPerDay
  omega

/-- Midnight and the time of day make the moment. -/
theorem ofDate_ofDays_add (seconds : Int) :
    ofDate (Date.ofDays (seconds / secondsPerDay)) + ((seconds % secondsPerDay).toNat : Int)
      = seconds := by
  rw [ofDate, Date.toDays_ofDays]
  unfold secondsPerDay
  omega

end PacketQuery.Time
