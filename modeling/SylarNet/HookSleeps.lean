import SylarNet.IOManagerTimeout

/-!
# Hooked sleeps

Each of the three functions makes a number of milliseconds of its argument, in an integer type
of its own, and gives it to `addTimer` with a callback that schedules the fiber again.
-/
namespace HookSleeps

open TimerStore TimerStore.TimerManager
open IOManagerTimeout (toNat_ofInt toNat_ofInt_neg)

/-- A `timespec` that `nanosleep` may be given. -/
structure Timespec where
  sec : ℕ
  nsec : ℕ
  sec_lt : sec < 2 ^ 63
  nsec_lt : nsec < 10 ^ 9

inductive Sleep where
  | sleep (seconds : UInt32)
  | usleep (usec : UInt32)
  | nanosleep (req : Timespec)

/-- `req->tv_sec * 1000 + req->tv_nsec / 1000 / 1000` -/
def Timespec.ms (req : Timespec) : ℕ := req.sec * 1000 + req.nsec / 1000 / 1000

namespace Sleep

/-- The argument of `addTimer`. A `long` that overflows has no meaning, one that is too large
for an `int` loses its upper half, and a negative `int` becomes a large `uint64_t`. -/
def timeout : Sleep → Option UInt64
  | sleep seconds => some (seconds * 1000).toUInt64
  | usleep usec => some (usec / 1000).toUInt64
  | nanosleep req =>
    if req.ms < 2 ^ 63 then some (UInt64.ofInt ((req.ms : ℤ).bmod (2 ^ 32))) else none

/-- The call with the hook enabled, up to the point where the fiber yields. -/
def hooked {Cb : Type} (s : Sleep) (m : TimerManager Cb) (a : ℕ) (now : UInt64) (resume : Cb) :
    Option (TimerManager Cb) :=
  s.timeout.map fun ms => (m.addTimer a now ms (some resume) false).2

/-- What is asked for, in nanoseconds. -/
def duration : Sleep → ℕ
  | sleep seconds => seconds.toNat * 10 ^ 9
  | usleep usec => usec.toNat * 10 ^ 3
  | nanosleep req => req.sec * 10 ^ 9 + req.nsec

/-- A whole number of milliseconds that fits the types it goes through, up to the deadline. A
`nanosleep` whose milliseconds become a negative `int` ends late enough only in the first weeks
of the clock. -/
def Fits (now : UInt64) : Sleep → Prop
  | sleep seconds => seconds.toNat * 1000 < 2 ^ 32 ∧ now.toNat + seconds.toNat * 1000 < 2 ^ 64
  | usleep usec => usec.toNat % 1000 = 0 ∧ now.toNat + usec.toNat / 1000 < 2 ^ 64
  | nanosleep req =>
    (req.nsec % 10 ^ 6 = 0 ∧ req.ms < 2 ^ 31 ∧ now.toNat + req.ms < 2 ^ 64) ∨
      (req.ms < 2 ^ 63 ∧ 2 ^ 31 ≤ req.ms % 2 ^ 32 ∧ now.toNat + req.ms % 2 ^ 32 < 2 ^ 32)

end Sleep

/-- The deadline of the timer is not before the end of what is asked for. -/
def NotShortened (now : UInt64) (s : Sleep) (deadline : UInt64) : Prop :=
  now.toNat * 10 ^ 6 + s.duration ≤ deadline.toNat * 10 ^ 6

instance (now : UInt64) (s : Sleep) (deadline : UInt64) : Decidable (NotShortened now s deadline) :=
  inferInstanceAs (Decidable (_ ≤ _))

section Deadline

variable {Cb : Type} {now ms : UInt64} {s : Sleep}

theorem next_addTimer (m : TimerManager Cb) (a : ℕ) (now ms : UInt64) (cb : Option Cb)
    (recurring : Bool) : ((m.addTimer a now ms cb recurring).2.object a).next = now + ms := by
  have hobject : (m.addTimer a now ms cb recurring).2.object =
      Function.update m.object a ⟨recurring, ms, now + ms, cb⟩ := by
    simp only [addTimer, addTimerLocked]
    split <;> rfl
  simp [hobject]

/-- A deadline that wraps around is before the reading. -/
theorem notShortened_iff : NotShortened now s (now + ms) ↔
    now.toNat + ms.toNat < 2 ^ 64 ∧ s.duration ≤ ms.toNat * 10 ^ 6 := by
  have hnow := now.toNat_lt
  have hms := ms.toNat_lt
  unfold NotShortened
  rw [UInt64.toNat_add]
  rcases Nat.lt_or_ge (now.toNat + ms.toNat) (2 ^ 64) with hfits | hwraps
  · rw [Nat.mod_eq_of_lt hfits]
    omega
  · have hmod : (now.toNat + ms.toNat) % 2 ^ 64 = now.toNat + ms.toNat - 2 ^ 64 := by omega
    rw [hmod]
    omega

theorem hooked_notShortened (m : TimerManager Cb) (a : ℕ) (resume : Cb)
    (h : s.timeout = some ms) :
    (∃ t, s.hooked m a now resume = some t ∧ NotShortened now s (t.object a).next) ↔
      now.toNat + ms.toNat < 2 ^ 64 ∧ s.duration ≤ ms.toNat * 10 ^ 6 := by
  simp only [Sleep.hooked, h, Option.map_some, Option.some.injEq, exists_eq_left',
    next_addTimer, notShortened_iff]

theorem toNat_sleep (seconds : UInt32) :
    (seconds * 1000).toUInt64.toNat = seconds.toNat * 1000 % 2 ^ 32 := by
  simp

theorem toNat_usleep (usec : UInt32) : (usec / 1000).toUInt64.toNat = usec.toNat / 1000 := by
  simp

/-- A lower half with its first bit clear stays a number of milliseconds, any other wraps. -/
theorem toNat_nanosleep (ms : ℕ) :
    (UInt64.ofInt ((ms : ℤ).bmod (2 ^ 32))).toNat =
      if ms % 2 ^ 32 < 2 ^ 31 then ms % 2 ^ 32 else ms % 2 ^ 32 + (2 ^ 64 - 2 ^ 32) := by
  have hmod : (ms : ℤ).bmod (2 ^ 32) =
      if ms % 2 ^ 32 < 2 ^ 31 then ((ms % 2 ^ 32 : ℕ) : ℤ) else (ms % 2 ^ 32 : ℕ) - 2 ^ 32 := by
    rw [Int.bmod_def]
    split_ifs <;> omega
  rw [hmod]
  split_ifs with hlow
  · rw [toNat_ofInt] <;> omega
  · have hneg := @toNat_ofInt_neg ((ms % 2 ^ 32 : ℕ) - 2 ^ 32) (by omega) (by omega)
    omega

end Deadline

/-- A hooked sleep is not shortened if and only if its milliseconds fit. -/
theorem sleep_not_shortened_iff {Cb : Type} (s : Sleep) (m : TimerManager Cb) (a : ℕ)
    (now : UInt64) (resume : Cb) :
    (∃ t, s.hooked m a now resume = some t ∧ NotShortened now s (t.object a).next) ↔
      s.Fits now := by
  cases s with
  | sleep seconds =>
    rw [hooked_notShortened m a resume rfl, toNat_sleep]
    simp only [Sleep.duration, Sleep.Fits]
    omega
  | usleep usec =>
    rw [hooked_notShortened m a resume rfl, toNat_usleep]
    simp only [Sleep.duration, Sleep.Fits]
    omega
  | nanosleep req =>
    have hduration : (Sleep.nanosleep req).duration = req.ms * 10 ^ 6 + req.nsec % 10 ^ 6 := by
      simp only [Sleep.duration, Timespec.ms]
      omega
    by_cases hfits : req.ms < 2 ^ 63
    · have htimeout : (Sleep.nanosleep req).timeout = some _ := if_pos hfits
      rw [hooked_notShortened m a resume htimeout, toNat_nanosleep, hduration]
      simp only [Sleep.Fits]
      generalize req.ms = ms at *
      split_ifs with hlow
      · omega
      · omega
    · have hnone : (Sleep.nanosleep req).timeout = none := if_neg hfits
      simp only [Sleep.hooked, hnone, Option.map_none, Sleep.Fits]
      constructor
      · rintro ⟨t, ht, -⟩
        cases ht
      · omega

/-- Of 4294968 seconds 704 milliseconds are left. -/
theorem long_sleep_shortened :
    ¬ ∀ (s : Sleep) (m : TimerManager ℕ) (a : ℕ) (now : UInt64) (resume : ℕ),
      ∃ t, s.hooked m a now resume = some t ∧ NotShortened now s (t.object a).next := by
  intro h
  obtain ⟨t, ht, hend⟩ := h (.sleep 4294968) (.construct 0) 1 0 7
  cases ht
  rw [next_addTimer] at hend
  exact absurd hend (by decide)

end HookSleeps
