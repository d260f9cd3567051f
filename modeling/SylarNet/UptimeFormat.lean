import SylarNet.DecimalText
import SylarNet.SylarHttp
import SylarNet.SylarStream

/-!
# The uptime as text

`timeDifferenceFormat` of `sylar/timestamp.h`, with which `Procmon::fillOverview` shows for how
long a process has run.
-/
namespace UptimeFormat

open DecimalText SylarHttp
open SylarStream.Stream (toInt)

structure Timestamp where
  microSecondSinceEpoch : Int64
  deriving DecidableEq

def kMicroSecondsPerSecond : ℤ := 1000 * 1000

/-- The microseconds from `low` to `high`. -/
def distance (high low : Timestamp) : ℤ :=
  high.microSecondSinceEpoch.toInt - low.microSecondSinceEpoch.toInt

/-- What `snprintf` is given. -/
structure Parts where
  days : ℤ
  hours : ℤ
  minutes : ℤ
  seconds : ℤ
  deriving DecidableEq, Repr

/-- The difference is an `int64_t`, and wraps around like one. -/
def timeDifferenceParts (high low : Timestamp) : Parts :=
  let diff := (distance high low).bmod (2 ^ 64)
  let total_seconds := diff.tdiv kMicroSecondsPerSecond
  let days := toInt (total_seconds.tdiv (24 * 3600))
  let hours := toInt (total_seconds.tdiv 3600)
  let total_seconds := total_seconds.tmod 3600
  let minutes := toInt (total_seconds.tdiv 60)
  let seconds := toInt (total_seconds.tmod 60)
  ⟨days, hours, minutes, seconds⟩

/-- `%0` and a width; the sign counts as a character. -/
def padded (width : ℕ) (v : ℤ) : List UInt8 :=
  let digits := decimal v.natAbs
  if v < 0 then 45 :: (List.replicate (width - 1 - digits.length) 48 ++ digits)
  else List.replicate (width - digits.length) 48 ++ digits

/-- `%ddays %02d:%02d:%02d`. -/
def Parts.text (p : Parts) : List UInt8 :=
  ofInt p.days ++ bytes "days " ++ padded 2 p.hours ++ bytes ":" ++ padded 2 p.minutes ++
    bytes ":" ++ padded 2 p.seconds

/-- `snprintf` keeps the last of the `size` bytes for the terminator. -/
def snprintf (size : ℕ) (text : List UInt8) : List UInt8 := text.take (size - 1)

def timeDifferenceFormat (high low : Timestamp) : List UInt8 :=
  snprintf 24 (timeDifferenceParts high low).text

/-- The parts are digits of a mixed radix for the seconds, and are shown whole. -/
structure Right (high low : Timestamp) : Prop where
  hours : (timeDifferenceParts high low).hours < 24
  minutes : (timeDifferenceParts high low).minutes < 60
  seconds : (timeDifferenceParts high low).seconds < 60
  total : (timeDifferenceParts high low).days * 86400 +
    (timeDifferenceParts high low).hours * 3600 + (timeDifferenceParts high low).minutes * 60 +
    (timeDifferenceParts high low).seconds = distance high low / kMicroSecondsPerSecond
  whole : distance high low < 10 ^ 6 * (86400 * kMicroSecondsPerSecond) →
    timeDifferenceFormat high low = (timeDifferenceParts high low).text

theorem toInt_spec (v : ℤ) :
    ∃ k, toInt v = v + 4294967296 * k ∧ -2147483648 ≤ toInt v ∧ toInt v < 2147483648 := by
  refine ⟨(toInt v - v) / 4294967296, ?_, Int.le_bmod (by decide), Int.bmod_lt (by decide)⟩
  have hmod : toInt v % 4294967296 = v % 4294967296 := Int.bmod_emod
  omega

theorem length_decimal_le {n : ℕ} (h : n < 100) : (decimal n).length ≤ 2 := by
  by_cases hn : n = 0
  · simp [hn, decimal]
  · have hlen : (Nat.digits 10 n).length ≤ 2 := (Nat.digits_length_le_iff (by decide) n).2 h
    simpa [decimal_of_ne_zero hn] using hlen

theorem length_padded {v : ℤ} (hv : 0 ≤ v) (h : v < 100) : (padded 2 v).length = 2 := by
  have hlen := length_decimal_le (by omega : v.natAbs < 100)
  simp only [padded, Int.not_lt.2 hv, if_false, List.length_append, List.length_replicate]
  omega

/-- Within a day there is a single digit for the days. -/
theorem snprintf_text {p : Parts} (hdays : p.days = 0) (hhours : 0 ≤ p.hours ∧ p.hours < 24)
    (hminutes : 0 ≤ p.minutes ∧ p.minutes < 60) (hseconds : 0 ≤ p.seconds ∧ p.seconds < 60) :
    snprintf 24 p.text = p.text := by
  have hfits : p.text.length ≤ 23 := by
    have hzero : (ofInt 0).length = 1 := rfl
    have hword : (bytes "days ").length = 5 := rfl
    have hcolon : (bytes ":").length = 1 := rfl
    simp only [Parts.text, List.length_append, hdays, hzero, hword, hcolon,
      length_padded hhours.1 (by omega : p.hours < 100),
      length_padded hminutes.1 (by omega : p.minutes < 100),
      length_padded hseconds.1 (by omega : p.seconds < 100)]
    decide
  exact List.take_of_length_le hfits

section Parts

variable {high low : Timestamp}

theorem parts_of_lt (hle : 0 ≤ distance high low) (hlt : distance high low < 2 ^ 63) {t : ℤ}
    (ht : distance high low / kMicroSecondsPerSecond = t) :
    timeDifferenceParts high low =
      ⟨toInt (t / 86400), toInt (t / 3600), toInt (t % 3600 / 60), toInt (t % 3600 % 60)⟩ := by
  have hdiff : (distance high low).bmod (2 ^ 64) = distance high low :=
    Int.bmod_eq_of_le (by omega) (by omega)
  have hnonneg : 0 ≤ t := ht ▸ Int.ediv_nonneg hle (by decide)
  have hseconds : (distance high low).tdiv kMicroSecondsPerSecond = t :=
    (Int.tdiv_eq_ediv_of_nonneg hle).trans ht
  have hrest : 0 ≤ t % 3600 := Int.emod_nonneg t (by decide)
  simp only [timeDifferenceParts, hdiff, hseconds, Int.tdiv_eq_ediv_of_nonneg hnonneg,
    Int.tmod_eq_emod_of_nonneg hnonneg, Int.tdiv_eq_ediv_of_nonneg hrest,
    Int.tmod_eq_emod_of_nonneg hrest]
  rfl

/-- A difference that wraps around is a negative one. -/
theorem parts_of_le (hle : 2 ^ 63 ≤ distance high low) (hlt : distance high low < 2 ^ 64) {t : ℤ}
    (ht : (2 ^ 64 - distance high low) / kMicroSecondsPerSecond = t) :
    timeDifferenceParts high low =
      ⟨toInt (-(t / 86400)), toInt (-(t / 3600)), toInt (-(t % 3600 / 60)),
        toInt (-(t % 3600 % 60))⟩ := by
  have hdiff : (distance high low).bmod (2 ^ 64) = -(2 ^ 64 - distance high low) := by
    simp only [Int.bmod_def]
    omega
  have hpos : 0 ≤ 2 ^ 64 - distance high low := by omega
  have hnonneg : 0 ≤ t := ht ▸ Int.ediv_nonneg hpos (by decide)
  have hseconds : (2 ^ 64 - distance high low).tdiv kMicroSecondsPerSecond = t :=
    (Int.tdiv_eq_ediv_of_nonneg hpos).trans ht
  have hrest : 0 ≤ t % 3600 := Int.emod_nonneg t (by decide)
  simp only [timeDifferenceParts, hdiff, Int.neg_tdiv, Int.neg_tmod, hseconds,
    Int.tdiv_eq_ediv_of_nonneg hnonneg, Int.tmod_eq_emod_of_nonneg hnonneg,
    Int.tdiv_eq_ediv_of_nonneg hrest, Int.tmod_eq_emod_of_nonneg hrest]
  rfl

theorem right_of_lt_day (hle : 0 ≤ distance high low)
    (hday : distance high low < 86400 * kMicroSecondsPerSecond) : Right high low := by
  obtain ⟨t, ht⟩ : ∃ t, distance high low / kMicroSecondsPerSecond = t := ⟨_, rfl⟩
  have hseconds : 0 ≤ t ∧ t < 86400 := by
    simp only [kMicroSecondsPerSecond] at ht hday
    omega
  have hparts := parts_of_lt hle (by simp only [kMicroSecondsPerSecond] at hday; omega) ht
  obtain ⟨d, hd⟩ := toInt_spec (t / 86400)
  obtain ⟨h, hh⟩ := toInt_spec (t / 3600)
  obtain ⟨m, hm⟩ := toInt_spec (t % 3600 / 60)
  obtain ⟨s, hs⟩ := toInt_spec (t % 3600 % 60)
  constructor
  · simp only [hparts]
    omega
  · simp only [hparts]
    omega
  · simp only [hparts]
    omega
  · simp only [hparts, ht]
    omega
  · intro _
    apply snprintf_text <;> simp only [hparts] <;> omega

/-- From one day on the hours are those of the whole difference. -/
theorem not_right_of_day (hlt : distance high low < 2 ^ 64)
    (hday : 86400 * kMicroSecondsPerSecond ≤ distance high low) : ¬Right high low := by
  intro hright
  have hhours := hright.hours
  have htotal := hright.total
  obtain ⟨t, ht⟩ : ∃ t, distance high low / kMicroSecondsPerSecond = t := ⟨_, rfl⟩
  simp only [ht] at htotal
  by_cases hfits : distance high low < 2 ^ 63
  · have hseconds : 86400 ≤ t ∧ t < 9223372036855 := by
      simp only [kMicroSecondsPerSecond] at ht hday
      omega
    have hnonneg : 0 ≤ distance high low := by
      simp only [kMicroSecondsPerSecond] at hday
      omega
    simp only [parts_of_lt hnonneg hfits ht] at hhours htotal
    obtain ⟨d, hd⟩ := toInt_spec (t / 86400)
    obtain ⟨h, hh⟩ := toInt_spec (t / 3600)
    obtain ⟨m, hm⟩ := toInt_spec (t % 3600 / 60)
    obtain ⟨s, hs⟩ := toInt_spec (t % 3600 % 60)
    omega
  · obtain ⟨u, hu⟩ : ∃ u, (2 ^ 64 - distance high low) / kMicroSecondsPerSecond = u := ⟨_, rfl⟩
    have hseconds : 0 ≤ u ∧ u < 9223372036855 ∧ 9223372036854 ≤ t := by
      simp only [kMicroSecondsPerSecond] at ht hu
      omega
    simp only [parts_of_le (not_lt.1 hfits) hlt hu] at hhours htotal
    obtain ⟨d, hd⟩ := toInt_spec (-(u / 86400))
    obtain ⟨h, hh⟩ := toInt_spec (-(u / 3600))
    obtain ⟨m, hm⟩ := toInt_spec (-(u % 3600 / 60))
    obtain ⟨s, hs⟩ := toInt_spec (-(u % 3600 % 60))
    omega

end Parts

/-- The uptime is shown right exactly for less than a day. -/
theorem time_difference_right_iff (high low : Timestamp)
    (h : low.microSecondSinceEpoch ≤ high.microSecondSinceEpoch) :
    Right high low ↔ distance high low < 86400 * kMicroSecondsPerSecond := by
  have hle : 0 ≤ distance high low := Int.sub_nonneg.2 (Int64.le_iff_toInt_le.1 h)
  have hlt : distance high low < 2 ^ 64 := by
    have hhigh := high.microSecondSinceEpoch.toInt_lt
    have hlow := low.microSecondSinceEpoch.le_toInt
    simp only [distance]
    omega
  constructor
  · intro hright
    by_contra hday
    exact not_right_of_day hlt (not_lt.1 hday) hright
  · exact right_of_lt_day hle

/-- A minute after the epoch. -/
theorem time_difference_right_of_minute : Right ⟨60000000⟩ ⟨0⟩ :=
  (time_difference_right_iff ⟨60000000⟩ ⟨0⟩ (by decide)).2 (by decide)

/-- The hours of the last day only would have been none. -/
theorem day_and_second : ¬Right ⟨86401000000⟩ ⟨0⟩ ∧
    timeDifferenceFormat ⟨86401000000⟩ ⟨0⟩ = bytes "1days 24:00:01" := by
  constructor
  · intro hright
    have hhours := hright.hours
    revert hhours
    decide
  · decide

theorem lt_length_decimal {n k : ℕ} (h : 10 ^ k ≤ n) : k < (decimal n).length := by
  have hn : n ≠ 0 := by
    have hpos : 0 < 10 ^ k := Nat.pow_pos (by decide)
    omega
  have hdigits : ¬(Nat.digits 10 n).length ≤ k := fun hle =>
    absurd ((Nat.digits_length_le_iff (by decide) n).1 hle) (Nat.not_lt.2 h)
  simpa [decimal_of_ne_zero hn] using hdigits

theorem length_decimal_le_padded (v : ℤ) :
    2 ≤ (padded 2 v).length ∧ (decimal v.natAbs).length ≤ (padded 2 v).length := by
  have hnil := List.length_pos_iff.2 (decimal_ne_nil v.natAbs)
  by_cases hv : v < 0
  · simp only [padded, hv, if_true, List.length_cons, List.length_append, List.length_replicate]
    omega
  · simp only [padded, hv, if_false, List.length_append, List.length_replicate]
    omega

/-- The hours then take seven digits, and the last digit of the seconds is lost. -/
theorem truncated_of_hundred_thousand_days {high low : Timestamp}
    (hle : 10 ^ 5 * (86400 * kMicroSecondsPerSecond) ≤ distance high low)
    (hlt : distance high low < 10 ^ 6 * (86400 * kMicroSecondsPerSecond)) :
    timeDifferenceFormat high low ≠ (timeDifferenceParts high low).text := by
  obtain ⟨t, ht⟩ : ∃ t, distance high low / kMicroSecondsPerSecond = t := ⟨_, rfl⟩
  simp only [kMicroSecondsPerSecond] at hle hlt
  have hseconds : 8640000000 ≤ t ∧ t < 86400000000 := by
    simp only [kMicroSecondsPerSecond] at ht
    omega
  have hparts := parts_of_lt (by omega) (by omega) ht
  obtain ⟨d, hd⟩ := toInt_spec (t / 86400)
  obtain ⟨h, hh⟩ := toInt_spec (t / 3600)
  have hdays := lt_length_decimal (by omega : 10 ^ 5 ≤ (toInt (t / 86400)).natAbs)
  have hhours := lt_length_decimal (by omega : 10 ^ 6 ≤ (toInt (t / 3600)).natAbs)
  have hpadded := length_decimal_le_padded (toInt (t / 3600))
  have hminutes := length_decimal_le_padded (toInt (t % 3600 / 60))
  have hrest := length_decimal_le_padded (toInt (t % 3600 % 60))
  have hsign : ofInt (toInt (t / 86400)) = decimal (toInt (t / 86400)).natAbs :=
    if_neg (by omega)
  intro heq
  have hlength := congrArg List.length heq
  have hword : (bytes "days ").length = 5 := rfl
  have hcolon : (bytes ":").length = 1 := rfl
  simp only [timeDifferenceFormat, snprintf, List.length_take, Parts.text, hparts,
    List.length_append, hsign, hword, hcolon] at hlength
  omega

end UptimeFormat
