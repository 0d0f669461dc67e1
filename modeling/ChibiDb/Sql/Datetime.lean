import Mathlib.Data.List.Induction
import Mathlib.Tactic

/-!
# Calendar Dates

A date is stored as the number of days since 1970-01-01. The conversions count
years from March, so that the day a leap year has more is its last, in eras of
400 years, which all have 146097 days.

The arithmetic is that of the integers: it is the source's as long as no product
leaves 64 bits. A string is read by characters; the bytes the source tests are
those of ASCII characters. A stored date has 32 bits, which the number of an accepted
date does not exceed, so the cast that `parse_date` ends with does nothing.

## Main definitions

* `daysFromCivil`, `civilFromDays`: The conversions.
* `parseDate`, `formatDate`: Dates as text.
* `ValidDate`, `nextDay`: The calendar.

## Theorems

* `daysFromCivil_nextDay`: The next day has the next number.
* `civilFromDays_daysFromCivil`: A date is read off its number.
* `exists_date`: Every number is a date's.
* `formatDate_parseDate`: What is accepted is what is shown.
* `calendar_exact`: The main result.
-/

namespace ChibiDb

/-- A signed word cut to 32 bits. -/
def asU32 (n : Int) : Nat := (n % 2 ^ 32).toNat

/-- Whether a year has a 29th of February. -/
def isLeap (y : Int) : Bool := y.tmod 4 = 0 && (y.tmod 100 ≠ 0 || y.tmod 400 = 0)

/-- The days of a month. -/
def daysInMonth (y : Int) : Nat → Nat
  | 1 | 3 | 5 | 7 | 8 | 10 | 12 => 31
  | 4 | 6 | 9 | 11 => 30
  | 2 => if isLeap y then 29 else 28
  | _ => 0

/-- The days from the first of January 1970. -/
def daysFromCivil (y : Int) (m d : Nat) : Int :=
  let y := if m ≤ 2 then y - 1 else y
  let era := (if 0 ≤ y then y else y - 399).tdiv 400
  let yoe := y - era * 400
  let mp := ((m : Int) + 9).tmod 12
  let doy := (153 * mp + 2).tdiv 5 + d - 1
  let doe := yoe * 365 + yoe.tdiv 4 - yoe.tdiv 100 + doy
  era * 146097 + doe - 719468

/-- The date of a day, as year, month and day. -/
def civilFromDays (z : Int) : Int × Nat × Nat :=
  let z := z + 719468
  let era := (if 0 ≤ z then z else z - 146096).tdiv 146097
  let doe := z - era * 146097
  let yoe := (doe - doe.tdiv 1460 + doe.tdiv 36524 - doe.tdiv 146096).tdiv 365
  let y := yoe + era * 400
  let doy := doe - (365 * yoe + yoe.tdiv 4 - yoe.tdiv 100)
  let mp := (5 * doy + 2).tdiv 153
  let d := asU32 (doy - (153 * mp + 2).tdiv 5 + 1)
  let m := asU32 (if mp < 10 then mp + 3 else mp - 9)
  (if m ≤ 2 then y + 1 else y, m, d)

/-- The value of decimal digits. -/
def ofDigits (cs : List Char) : Nat := cs.foldl (fun n c => n * 10 + (c.toNat - 48)) 0

/-- A date in the form YYYY-MM-DD. -/
def parseDate (s : String) : Except String Int :=
  let malformed := "invalid date '" ++ s ++ "', expected YYYY-MM-DD"
  match s.toList with
  | [y₁, y₂, y₃, y₄, '-', m₁, m₂, '-', d₁, d₂] =>
    if [y₁, y₂, y₃, y₄, m₁, m₂, d₁, d₂].all Char.isDigit then
      let year : Int := ofDigits [y₁, y₂, y₃, y₄]
      let month := ofDigits [m₁, m₂]
      let day := ofDigits [d₁, d₂]
      if ¬ (1 ≤ month ∧ month ≤ 12) then .error malformed
      else if day = 0 ∨ daysInMonth year month < day then .error malformed
      else .ok (daysFromCivil year month day)
    else .error malformed
  | _ => .error malformed

/-- A number with zeros in front, up to a width. -/
def padded (width : Nat) (n : Int) : List Char :=
  let digits := Nat.toDigits 10 n.natAbs
  if n < 0 then '-' :: digits.leftpad (width - 1) '0' else digits.leftpad width '0'

/-- A day as the text of its date. -/
def formatDate (days : Int) : String :=
  let (y, m, d) := civilFromDays days
  .ofList (padded 4 y ++ '-' :: padded 2 m ++ '-' :: padded 2 d)

/-- A date of the calendar. -/
def ValidDate (y : Int) (m d : Nat) : Prop := (1 ≤ m ∧ m ≤ 12) ∧ 1 ≤ d ∧ d ≤ daysInMonth y m

instance decidableValidDate (y : Int) (m d : Nat) : Decidable (ValidDate y m d) :=
  inferInstanceAs (Decidable ((1 ≤ m ∧ m ≤ 12) ∧ 1 ≤ d ∧ d ≤ daysInMonth y m))

/-- The day after a date. -/
def nextDay (y : Int) (m d : Nat) : Int × Nat × Nat :=
  if d < daysInMonth y m then (y, m, d + 1)
  else if m < 12 then (y, m + 1, 1)
  else (y + 1, 1, 1)

/-! ### Numbers of days -/

variable {y : Int} {m d : Nat}

/-- The year, counted from March. -/
def marchYear (y : Int) (m : Nat) : Int := if m ≤ 2 then y - 1 else y

/-- The month, counted from March. -/
def marchMonth (m : Nat) : Int := if m ≤ 2 then m + 9 else m - 3

/-- The day, counted from the first of March. -/
def dayOfYear (m d : Nat) : Int := (153 * marchMonth m + 2) / 5 + d - 1

/-- The days of the years before one. -/
def daysBefore (y : Int) : Int := 365 * y + y / 4 - y / 100 + y / 400

/-- The day, counted from the start of the era. -/
def dayOfEra (yoe doy : Int) : Int := 365 * yoe + yoe / 4 - yoe / 100 + doy

/-- Both conversions correct the truncated quotient to the one rounded down. -/
theorem tdiv_corrected (n k : Int) (hk : 0 < k) :
    (if 0 ≤ n then n else n - (k - 1)).tdiv k = n / k := by
  split
  case isTrue h => exact Int.tdiv_eq_ediv_of_nonneg h
  case isFalse h =>
    have hneg : (k - 1 - n) / k = -(n / k) ∧ (k - 1 - n) % k = k - 1 - n % k := by
      have hmod := Int.emod_lt_of_pos n hk
      have hpos := Int.emod_nonneg n (Int.ne_of_gt hk)
      have hsum := Int.emod_add_mul_ediv n k
      rw [Int.ediv_emod_unique hk, Int.mul_neg]
      omega
    have hsign : n - (k - 1) = -(k - 1 - n) := by omega
    rw [hsign, Int.neg_tdiv, Int.tdiv_eq_ediv_of_nonneg (by omega), hneg.1, Int.neg_neg]

/-- Truncated remainders are zero where the others are. -/
theorem isLeap_iff (y : Int) : isLeap y = true ↔ y % 4 = 0 ∧ (y % 100 ≠ 0 ∨ y % 400 = 0) := by
  have htmod : ∀ k : Int, y.tmod k = 0 ↔ y % k = 0 := fun k => by
    rw [← Int.dvd_iff_tmod_eq_zero, ← Int.dvd_iff_emod_eq_zero]
  simp [isLeap, htmod]

/-- A year from March has a leap day if the next year has one. -/
theorem daysBefore_eq (y : Int) :
    daysBefore y = daysBefore (y - 1) + if isLeap y then 366 else 365 := by
  have hleap := isLeap_iff y
  have h4 : (y - 1) / 4 = if y % 4 = 0 then y / 4 - 1 else y / 4 := by split <;> omega
  have h100 : (y - 1) / 100 = if y % 100 = 0 then y / 100 - 1 else y / 100 := by split <;> omega
  have h400 : (y - 1) / 400 = if y % 400 = 0 then y / 400 - 1 else y / 400 := by split <;> omega
  simp only [daysBefore, h4, h100, h400, hleap]
  split_ifs <;> omega

/-- Eras are alike. -/
theorem daysBefore_era (y doy : Int) :
    daysBefore y + doy = y / 400 * 146097 + dayOfEra (y % 400) doy := by
  have h4 : y / 4 = 100 * (y / 400) + y % 400 / 4 := by omega
  have h100 : y / 100 = 4 * (y / 400) + y % 400 / 100 := by omega
  rw [daysBefore, dayOfEra, h4, h100]
  omega

/-- The number of a day, from the years before it and the days of its year. -/
theorem daysFromCivil_eq (hm : 1 ≤ m ∧ m ≤ 12) (y : Int) (d : Nat) :
    daysFromCivil y m d = daysBefore (marchYear y m) + dayOfYear m d - 719468 := by
  have hmp : ((m : Int) + 9).tmod 12 = marchMonth m := by
    rw [Int.tmod_eq_emod_of_nonneg (by omega), marchMonth]
    split <;> omega
  have hyoe : marchYear y m - marchYear y m / 400 * 400 = marchYear y m % 400 := by omega
  have hdays := daysBefore_era (marchYear y m) (dayOfYear m d)
  have hmonth : 0 ≤ marchMonth m := by
    unfold marchMonth
    split <;> omega
  have hera := tdiv_corrected (marchYear y m) 400 (by decide)
  unfold daysFromCivil
  simp only [hmp]
  rw [← marchYear, show (399 : Int) = 400 - 1 from rfl, hera, hyoe,
    Int.tdiv_eq_ediv_of_nonneg (by omega), Int.tdiv_eq_ediv_of_nonneg (by omega),
    Int.tdiv_eq_ediv_of_nonneg (by omega), hdays, dayOfEra, dayOfYear]
  omega

/-- The next day has the next number. -/
theorem daysFromCivil_nextDay (h : ValidDate y m d) :
    ValidDate (nextDay y m d).1 (nextDay y m d).2.1 (nextDay y m d).2.2 ∧
      daysFromCivil (nextDay y m d).1 (nextDay y m d).2.1 (nextDay y m d).2.2 =
        daysFromCivil y m d + 1 := by
  rcases h with ⟨⟨h1, h12⟩, hd, hlast⟩
  unfold nextDay
  split
  case isTrue hday =>
    refine ⟨⟨⟨h1, h12⟩, by simp, hday⟩, ?_⟩
    simp only [daysFromCivil_eq ⟨h1, h12⟩, dayOfYear]
    omega
  case isFalse hday =>
    have hd : d = daysInMonth y m := by omega
    rw [hd, daysFromCivil_eq ⟨h1, h12⟩]
    split
    case isFalse hmonth =>
      have hdec : m = 12 := by omega
      subst hdec
      refine ⟨by simp [ValidDate, daysInMonth], ?_⟩
      rw [daysFromCivil_eq (by simp)]
      simp [marchYear, dayOfYear, marchMonth, daysInMonth]
      omega
    case isTrue hmonth =>
      have hyear := daysBefore_eq y
      dsimp only
      rw [daysFromCivil_eq (by omega : 1 ≤ m + 1 ∧ m + 1 ≤ 12)]
      unfold ValidDate
      by_cases hleap : isLeap y
      · rw [if_pos hleap] at hyear
        interval_cases m <;>
          simp [marchYear, dayOfYear, marchMonth, daysInMonth, hleap, hyear] <;> omega
      · rw [if_neg hleap] at hyear
        interval_cases m <;>
          simp [marchYear, dayOfYear, marchMonth, daysInMonth, hleap, hyear] <;> omega

/-- The day of the year tells the month. Only the leap day is a 366th. -/
theorem dayOfYear_spec (h : ValidDate y m d) :
    0 ≤ dayOfYear m d ∧ (5 * dayOfYear m d + 2) / 153 = marchMonth m ∧
      (dayOfYear m d < 365 ∨ (dayOfYear m d = 365 ∧ m ≤ 2 ∧ isLeap y = true)) := by
  rcases h with ⟨⟨h1, h12⟩, hd, hlast⟩
  unfold dayOfYear marchMonth
  by_cases hleap : isLeap y
  · interval_cases m <;> simp [daysInMonth, hleap] at hlast ⊢ <;> omega
  · interval_cases m <;> simp [daysInMonth, hleap] at hlast ⊢ <;> omega

/-- The year of an era is read off the day of the era. -/
theorem yearOfEra_dayOfEra {yoe doy : Int} (h0 : 0 ≤ yoe) (h1 : yoe < 400) (hd : 0 ≤ doy)
    (hlast : doy < 365 ∨ (doy = 365 ∧ (yoe + 1) % 4 = 0 ∧ ((yoe + 1) % 100 ≠ 0 ∨ yoe = 399))) :
    0 ≤ dayOfEra yoe doy ∧ dayOfEra yoe doy < 146097 ∧
      (dayOfEra yoe doy - dayOfEra yoe doy / 1460 + dayOfEra yoe doy / 36524 -
        dayOfEra yoe doy / 146096) / 365 = yoe := by
  generalize hdoe : dayOfEra yoe doy = doe
  -- the century, the leap cycle in it and the year in that
  have hparts : ∃ c q r : Int, yoe = 100 * c + 4 * q + r ∧ (0 ≤ c ∧ c ≤ 3) ∧
      (0 ≤ q ∧ q ≤ 24) ∧ 0 ≤ r ∧ r ≤ 3 :=
    ⟨yoe / 100, yoe % 100 / 4, yoe % 4, by omega, by omega, by omega, by omega⟩
  rcases hparts with ⟨c, q, r, hy, hc, hq, hr⟩
  have hsum : doe = 36524 * c + 1461 * q + 365 * r + doy := by
    rw [← hdoe, dayOfEra]
    omega
  by_cases hend : doe = 146096
  · omega
  · have hcentury : doe < 36524 * c + 36524 := by omega
    have hb : doe / 36524 = c := by omega
    have he : doe / 146096 = 0 := by omega
    have ha : doe / 1460 = 25 * c + q + (24 * c + q + 365 * r + doy) / 1460 := by omega
    omega

/-- The conversion of a day whose parts are known: the quotients are all rounded down. -/
theorem civilFromDays_eq {z era doe yoe doy mp : Int} (hz : z + 719468 = era * 146097 + doe)
    (hpos : 0 ≤ doe) (hlt : doe < 146097)
    (hyoe : (doe - doe / 1460 + doe / 36524 - doe / 146096) / 365 = yoe)
    (hdoy : doe - (365 * yoe + yoe / 4 - yoe / 100) = doy) (hnn : 0 ≤ doy)
    (hmp : (5 * doy + 2) / 153 = mp) :
    civilFromDays z =
      let m := asU32 (if mp < 10 then mp + 3 else mp - 9)
      (if m ≤ 2 then yoe + era * 400 + 1 else yoe + era * 400, m,
        asU32 (doy - (153 * mp + 2) / 5 + 1)) := by
  have hera : (if 0 ≤ z + 719468 then z + 719468 else z + 719468 - 146096).tdiv 146097 = era :=
    (tdiv_corrected (z + 719468) 146097 (by decide)).trans (by omega)
  have hrest : z + 719468 - era * 146097 = doe := by omega
  have hdown : ∀ {n k : Int}, 0 ≤ n → n.tdiv k = n / k := Int.tdiv_eq_ediv_of_nonneg
  have hyear : 0 ≤ yoe := by omega
  have hmonth : 0 ≤ mp := by omega
  unfold civilFromDays
  simp only [hera, hrest, hdown hpos, hdown (by omega : 0 ≤ doe - doe / 1460 + doe / 36524 -
    doe / 146096), hyoe, hdown hyear, hdoy, hdown (by omega : 0 ≤ 5 * doy + 2), hmp,
    hdown (by omega : 0 ≤ 153 * mp + 2)]

theorem daysInMonth_le (y : Int) (m : Nat) : daysInMonth y m ≤ 31 := by
  unfold daysInMonth
  split <;> try split
  all_goals omega

/-- A date is read off its number. -/
theorem civilFromDays_daysFromCivil (h : ValidDate y m d) :
    civilFromDays (daysFromCivil y m d) = (y, m, d) := by
  rcases dayOfYear_spec h with ⟨hdoy, hmonth, hlast⟩
  rcases h with ⟨hm, hd, hmax⟩
  have hbound := daysInMonth_le y m
  have hyear : marchYear y m = if m ≤ 2 then y - 1 else y := rfl
  have hmp : marchMonth m = if m ≤ 2 then (m : Int) + 9 else m - 3 := rfl
  have hday : dayOfYear m d = (153 * marchMonth m + 2) / 5 + d - 1 := rfl
  have hleap := isLeap_iff y
  have hends : dayOfYear m d < 365 ∨ (dayOfYear m d = 365 ∧ (marchYear y m % 400 + 1) % 4 = 0 ∧
      ((marchYear y m % 400 + 1) % 100 ≠ 0 ∨ marchYear y m % 400 = 399)) := by
    refine hlast.imp_right (fun ⟨hd, hm2, hl⟩ => ⟨hd, ?_⟩)
    rw [if_pos hm2] at hyear
    rw [hleap] at hl
    omega
  rcases yearOfEra_dayOfEra (by omega) (by omega) hdoy hends with ⟨hpos, hlt, hyoe⟩
  have hz : daysFromCivil y m d + 719468 = marchYear y m / 400 * 146097 +
      dayOfEra (marchYear y m % 400) (dayOfYear m d) := by
    rw [daysFromCivil_eq hm, daysBefore_era]
    omega
  rw [civilFromDays_eq hz hpos hlt hyoe (by rw [dayOfEra]; omega) hdoy hmonth]
  have hm' : asU32 (if marchMonth m < 10 then marchMonth m + 3 else marchMonth m - 9) = m := by
    unfold asU32
    split <;> split at hmp <;> omega
  have hd' : asU32 (dayOfYear m d - (153 * marchMonth m + 2) / 5 + 1) = d := by
    unfold asU32
    omega
  simp only [hm', hd', Prod.mk.injEq, and_true]
  split <;> split at hyear <;> omega

/-- Every number is a date's. -/
theorem exists_date (z : Int) : ∃ y m d, ValidDate y m d ∧ daysFromCivil y m d = z := by
  have hup : ∀ n : Nat, ∃ y m d, ValidDate y m d ∧
      daysFromCivil y m d = daysFromCivil (1970 - z.natAbs) 1 1 + n := by
    intro n
    induction n with
    | zero => exact ⟨1970 - z.natAbs, 1, 1, by simp [ValidDate, daysInMonth], by simp⟩
    | succ n ih =>
      rcases ih with ⟨y, m, d, hv, hn⟩
      rcases daysFromCivil_nextDay hv with ⟨hv', hn'⟩
      refine ⟨_, _, _, hv', ?_⟩
      rw [hn', hn]
      omega
  have hlow : daysFromCivil (1970 - z.natAbs) 1 1 ≤ z := by
    rw [daysFromCivil_eq (by decide), daysBefore, dayOfYear, marchYear, marchMonth,
      if_pos (by decide), if_pos (by decide)]
    omega
  rcases hup (z - daysFromCivil (1970 - z.natAbs) 1 1).toNat with ⟨y, m, d, hv, hn⟩
  exact ⟨y, m, d, hv, by omega⟩

/-! ### Dates as text -/

/-- A digit is the character of its value. -/
theorem digitChar_of_isDigit {c : Char} (h : c.isDigit = true) :
    c.toNat - 48 < 10 ∧ (c.toNat - 48).digitChar = c := by
  simp only [Char.isDigit, Bool.and_eq_true, decide_eq_true_eq, ge_iff_le, UInt32.le_iff_toNat_le]
    at h
  have hlow : 48 ≤ c.toNat := h.1
  have hhigh : c.toNat ≤ 57 := h.2
  refine ⟨by omega, Char.toNat_inj.mp ?_⟩
  rw [Nat.toNat_digitChar_of_lt_ten (by omega)]
  omega

theorem padded_natCast (w n : Nat) : padded w n = (Nat.toDigits 10 n).leftpad w '0' := by
  simp [padded]

/-- Digits are shown as they were read. The induction takes the last one off. -/
theorem padded_ofDigits {cs : List Char} {w : Nat} (hw : cs.length = w) (hne : cs ≠ [])
    (h : ∀ c ∈ cs, c.isDigit = true) : padded w (ofDigits cs) = cs := by
  subst hw
  induction cs using List.reverseRecOn with
  | nil => exact absurd rfl hne
  | append_singleton cs c ih =>
    rcases digitChar_of_isDigit (h c (by simp)) with ⟨hlt, hc⟩
    have hlast : ofDigits (cs ++ [c]) = 10 * ofDigits cs + (c.toNat - 48) := by
      simp [ofDigits, Nat.mul_comm]
    have hone : Nat.toDigits 10 (c.toNat - 48) = [c] := by rw [Nat.toDigits_of_lt_base hlt, hc]
    by_cases hnil : cs = []
    · subst hnil
      simp [padded_natCast, hone, ofDigits, List.leftpad]
    · have hcs := ih hnil (fun c hc => h c (by simp [hc]))
      rw [padded_natCast, List.leftpad] at hcs
      rw [padded_natCast, List.leftpad, hlast, List.length_append, List.length_singleton]
      have hlen := List.length_pos_iff.mpr hnil
      by_cases hzero : ofDigits cs = 0
      · -- then all digits so far are zeros
        rw [hzero, show Nat.toDigits 10 0 = List.replicate 1 '0' from rfl, List.length_replicate,
          List.replicate_append_replicate, Nat.sub_add_cancel hlen] at hcs
        simp [hzero, hone, hcs]
      · rw [← Nat.toDigits_append_toDigits (by decide) (by omega) hlt, hone]
        simp [← List.append_assoc, hcs]

/-- What a text that is accepted looks like. -/
theorem parseDate_eq_ok {s : String} {z : Int} (h : parseDate s = .ok z) :
    ∃ ys ms ds : List Char, s.toList = ys ++ '-' :: ms ++ '-' :: ds ∧
      (ys.length = 4 ∧ ms.length = 2 ∧ ds.length = 2) ∧
      (∀ c ∈ ys ++ ms ++ ds, c.isDigit = true) ∧
      ValidDate (ofDigits ys) (ofDigits ms) (ofDigits ds) ∧
      z = daysFromCivil (ofDigits ys) (ofDigits ms) (ofDigits ds) := by
  unfold parseDate at h
  dsimp only at h
  split at h
  case h_2 => cases h
  case h_1 y₁ y₂ y₃ y₄ m₁ m₂ d₁ d₂ hs =>
    split_ifs at h with hdigits hmonth hday
    cases h
    refine ⟨[y₁, y₂, y₃, y₄], [m₁, m₂], [d₁, d₂], hs, ⟨rfl, rfl, rfl⟩, ?_, ?_, rfl⟩
    · exact List.all_eq_true.mp hdigits
    · exact ⟨hmonth, by omega, by omega⟩

theorem ofDigits_lt {cs : List Char} (h : ∀ c ∈ cs, c.isDigit = true) :
    ofDigits cs < 10 ^ cs.length := by
  induction cs using List.reverseRecOn with
  | nil => decide
  | append_singleton cs c ih =>
    have hc := (digitChar_of_isDigit (h c (by simp))).1
    have hcs := ih fun c hc => h c (by simp [hc])
    have hlast : ofDigits (cs ++ [c]) = ofDigits cs * 10 + (c.toNat - 48) := by
      simp [ofDigits]
    rw [hlast, List.length_append, List.length_singleton, Nat.pow_succ]
    omega

/-- What is accepted is what is shown, and its number has 32 bits. -/
theorem formatDate_parseDate {s : String} {z : Int} (h : parseDate s = .ok z) :
    z.bmod (2 ^ 32) = z ∧ formatDate z = s := by
  rcases parseDate_eq_ok h with ⟨ys, ms, ds, hs, ⟨hy, hm, hd⟩, hdigits, hvalid, rfl⟩
  have hdigit : ∀ cs ⊆ ys ++ ms ++ ds, ∀ c ∈ cs, c.isDigit = true :=
    fun cs hsub c hc => hdigits c (hsub hc)
  have hys := hdigit ys (by simp)
  constructor
  · have hyear := ofDigits_lt hys
    rw [hy] at hyear
    have hmonth : marchMonth (ofDigits ms) ≤ 11 ∧ 0 ≤ marchMonth (ofDigits ms) := by
      have := hvalid.1
      unfold marchMonth
      split <;> omega
    have hday : ofDigits ds ≤ 31 := hvalid.2.2.trans (daysInMonth_le _ _)
    rw [daysFromCivil_eq hvalid.1, daysBefore, dayOfYear, marchYear]
    split <;> exact Int.bmod_eq_of_le (by omega) (by omega)
  · rw [formatDate, civilFromDays_daysFromCivil hvalid, ← String.ofList_toList (s := s), hs]
    simp only
    rw [padded_ofDigits hy (by rintro rfl; cases hy) hys,
      padded_ofDigits hm (by rintro rfl; cases hm) (hdigit ms (by simp)),
      padded_ofDigits hd (by rintro rfl; cases hd) (hdigit ds (by simp))]

/-- **Calendar conversion is exact.** The conversions are inverse to each other and follow the
    calendar, and a date that is accepted as text is shown as that text. -/
theorem calendar_exact :
    (∀ z, let c := civilFromDays z
      ValidDate c.1 c.2.1 c.2.2 ∧ daysFromCivil c.1 c.2.1 c.2.2 = z) ∧
    (∀ y m d, ValidDate y m d → civilFromDays (daysFromCivil y m d) = (y, m, d) ∧
      let c := nextDay y m d
      ValidDate c.1 c.2.1 c.2.2 ∧ daysFromCivil c.1 c.2.1 c.2.2 = daysFromCivil y m d + 1) ∧
    ∀ s z, parseDate s = .ok z → z.bmod (2 ^ 32) = z ∧ formatDate z = s := by
  refine ⟨fun z => ?_, fun y m d h => ?_, fun s z h => formatDate_parseDate h⟩
  · rcases exists_date z with ⟨y, m, d, hv, rfl⟩
    rw [civilFromDays_daysFromCivil hv]
    exact ⟨hv, rfl⟩
  · exact ⟨civilFromDays_daysFromCivil h, daysFromCivil_nextDay h⟩

/-- The leap day of 2024, the day behind it, and the day before the first of January of the year 1
    before our era. -/
theorem calendar_exact_leap_day :
    (parseDate "2024-02-29" = .ok 19782 ∧ formatDate 19782 = "2024-02-29") ∧
      daysFromCivil 2024 3 1 = 19783 ∧ civilFromDays (-719529) = (-1, 12, 31) := by
  have hparse : parseDate "2024-02-29" = .ok 19782 := by decide
  have hleap : ValidDate 2024 2 29 := by decide
  have hlast : ValidDate (-1) 12 31 := by decide
  exact ⟨⟨hparse, (calendar_exact.2.2 _ _ hparse).2⟩, (calendar_exact.2.1 _ _ _ hleap).2.2,
    (calendar_exact.2.1 _ _ _ hlast).1⟩

end ChibiDb
