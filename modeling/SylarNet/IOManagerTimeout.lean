import Mathlib.Algebra.Group.Int.Defs
import Mathlib.Algebra.Order.Group.Nat
import SylarNet.TimerStore

/-!
# How long `idle` waits

`IOManager::idle` takes the time left until the first timer, narrows it to an `int`, takes the
minimum with `MAX_TIMEOUT` and stores that in a `uint64_t` again, anew in front of each
`epoll_wait` until one is not interrupted.
-/
namespace IOManagerTimeout

open TimerStore TimerStore.TimerManager

variable {Cb : Type}

def MAX_TIMEOUT : ℤ := 3000

/-- `(int)next_timeout` -/
def asInt (v : UInt64) : ℤ := (v.toNat : ℤ).bmod (2 ^ 32)

/-- What the loop makes of `next_timeout` in front of a call of `epoll_wait`. -/
def clampTimeout (nextTimeout : UInt64) : UInt64 :=
  if nextTimeout ≠ ~~~0 then UInt64.ofInt (min (asInt nextTimeout) MAX_TIMEOUT)
  else UInt64.ofInt MAX_TIMEOUT

/-- The timeouts that `epoll_wait` is called with when it is interrupted so many times. -/
def waits (nextTimeout : UInt64) : ℕ → List ℤ
  | 0 => [asInt (clampTimeout nextTimeout)]
  | interrupted + 1 =>
    asInt (clampTimeout nextTimeout) :: waits (clampTimeout nextTimeout) interrupted

/-- `IOManager::stopping`, with what `Scheduler::stopping` says. -/
def stopping (timeout : UInt64) (pendingEventCount : ℕ) (schedulerStopping : Bool) : Bool :=
  timeout == ~~~0 && pendingEventCount == 0 && schedulerStopping

/-- The waiting of one pass of the loop of `idle`. -/
def idleWaits (m : TimerManager Cb) (now : UInt64) (pendingEventCount : ℕ)
    (schedulerStopping : Bool) (interrupted : ℕ) : List ℤ :=
  let nextTimeout := (m.getNextTimer now).1
  if stopping nextTimeout pendingEventCount schedulerStopping then []
  else waits nextTimeout interrupted

/-- A timeout that neither blocks for good nor beyond the first timer. -/
def InTime (remaining : UInt64) (timeout : ℤ) : Prop :=
  0 ≤ timeout ∧ timeout ≤ MAX_TIMEOUT ∧ timeout ≤ remaining.toNat

/-- The time left is still a number of milliseconds when it is an `int`. -/
def Narrows (remaining : UInt64) : Prop :=
  remaining = ~~~0 ∨ remaining.toNat % 2 ^ 32 < 2 ^ 31

instance (remaining : UInt64) : Decidable (Narrows remaining) :=
  inferInstanceAs (Decidable (_ ∨ _))

theorem asInt_of_lt {v : UInt64} (h : v.toNat % 2 ^ 32 < 2 ^ 31) :
    asInt v = (v.toNat % 2 ^ 32 : ℕ) := by
  have hlow : (v.toNat : ℤ) % (2 ^ 32 : ℕ) < ((2 ^ 32 : ℕ) + 1) / 2 := by omega
  change (v.toNat : ℤ).bmod (2 ^ 32) = _
  rw [Int.bmod_def, if_pos hlow]
  exact (Int.natCast_emod _ _).symm

theorem asInt_of_le {v : UInt64} (h : 2 ^ 31 ≤ v.toNat % 2 ^ 32) :
    asInt v = (v.toNat % 2 ^ 32 : ℕ) - 2 ^ 32 := by
  have hhigh : ¬ (v.toNat : ℤ) % (2 ^ 32 : ℕ) < ((2 ^ 32 : ℕ) + 1) / 2 := by omega
  change (v.toNat : ℤ).bmod (2 ^ 32) = _
  rw [Int.bmod_def, if_neg hhigh, Int.natCast_emod]
  rfl

theorem toNat_ofInt {i : ℤ} (h0 : 0 ≤ i) (h : i < 2 ^ 64) :
    (UInt64.ofInt i).toNat = i.toNat := by
  have hmod : i % 2 ^ 64 = i := Int.emod_eq_of_lt h0 h
  rw [UInt64.ofInt, hmod, UInt64.toNat_ofNat']
  omega

theorem toNat_ofInt_neg {i : ℤ} (h0 : i < 0) (h : -2 ^ 63 ≤ i) :
    ((UInt64.ofInt i).toNat : ℤ) = i + 2 ^ 64 := by
  have hmod : i % 2 ^ 64 = i + 2 ^ 64 := by omega
  rw [UInt64.ofInt, hmod, UInt64.toNat_ofNat']
  omega

/-- A timeout between 0 and `MAX_TIMEOUT` comes back from both conversions. -/
theorem asInt_ofInt {i : ℤ} (h0 : 0 ≤ i) (h : i ≤ MAX_TIMEOUT) : asInt (UInt64.ofInt i) = i := by
  have hmax : i ≤ 3000 := h
  have hnat : (UInt64.ofInt i).toNat = i.toNat := toNat_ofInt h0 (by omega)
  rw [asInt_of_lt (by omega), hnat]
  omega

/-- A negative one stays negative. -/
theorem asInt_ofInt_neg {i : ℤ} (h0 : i < 0) (h : -2 ^ 31 ≤ i) : asInt (UInt64.ofInt i) < 0 := by
  have hnat := toNat_ofInt_neg h0 (by omega)
  rw [asInt_of_le (by omega)]
  omega

section Clamp

variable {v : UInt64}

/-- The timeout of the first try. -/
theorem clampTimeout_of_narrows (h : Narrows v) :
    ∃ i, clampTimeout v = UInt64.ofInt i ∧ InTime v i := by
  by_cases hmax : v = ~~~0
  · refine ⟨MAX_TIMEOUT, by rw [clampTimeout, if_neg fun hne => hne hmax], ?_⟩
    subst hmax
    exact ⟨by decide, Int.le_refl _, by decide⟩
  · have hlow := h.resolve_left hmax
    refine ⟨min (asInt v) MAX_TIMEOUT, by rw [clampTimeout, if_pos hmax], ?_⟩
    rw [asInt_of_lt hlow]
    have hle := Nat.mod_le v.toNat (2 ^ 32)
    unfold InTime MAX_TIMEOUT
    omega

/-- Another try waits as long as the one before. -/
theorem clampTimeout_again {i : ℤ} (h0 : 0 ≤ i) (h : i ≤ MAX_TIMEOUT) :
    clampTimeout (UInt64.ofInt i) = UInt64.ofInt i := by
  have hmax : i ≤ 3000 := h
  have hne : UInt64.ofInt i ≠ ~~~0 := by
    intro heq
    have hnat := congrArg UInt64.toNat heq
    rw [toNat_ofInt h0 (by omega), show (~~~0 : UInt64).toNat = 2 ^ 64 - 1 from rfl] at hnat
    omega
  rw [clampTimeout, if_pos hne, asInt_ofInt h0 h, Int.min_eq_left h]

theorem waits_again {i : ℤ} (h0 : 0 ≤ i) (h : i ≤ MAX_TIMEOUT) (interrupted : ℕ) :
    ∀ t ∈ waits (UInt64.ofInt i) interrupted, t = i := by
  induction interrupted with
  | zero =>
    intro t ht
    rw [waits, clampTimeout_again h0 h, asInt_ofInt h0 h] at ht
    exact List.mem_singleton.1 ht
  | succ interrupted ih =>
    intro t ht
    rw [waits, clampTimeout_again h0 h, asInt_ofInt h0 h] at ht
    rcases List.mem_cons.1 ht with rfl | ht
    · rfl
    · exact ih t ht

theorem waits_inTime (h : Narrows v) (interrupted : ℕ) : ∀ t ∈ waits v interrupted, InTime v t := by
  obtain ⟨i, hclamp, hin⟩ := clampTimeout_of_narrows h
  obtain ⟨h0, hmax, hleft⟩ := hin
  intro t ht
  have hi : t = i := by
    cases interrupted with
    | zero =>
      rw [waits, hclamp, asInt_ofInt h0 hmax] at ht
      exact List.mem_singleton.1 ht
    | succ interrupted =>
      rw [waits, hclamp, asInt_ofInt h0 hmax] at ht
      rcases List.mem_cons.1 ht with rfl | ht
      · rfl
      · exact waits_again h0 hmax interrupted t ht
  rw [hi]
  exact ⟨h0, hmax, hleft⟩

/-- Already the first try blocks until something happens. -/
theorem waits_negative (h : ¬ Narrows v) : ∃ t ∈ waits v 0, t < 0 := by
  obtain ⟨hne, hhigh⟩ := not_or.1 h
  refine ⟨_, List.mem_singleton.2 rfl, ?_⟩
  have hneg : asInt v < 0 ∧ -2 ^ 31 ≤ asInt v := by
    rw [asInt_of_le (Nat.not_lt.1 hhigh)]
    omega
  have hmin : min (asInt v) MAX_TIMEOUT = asInt v := by
    apply Int.min_eq_left
    unfold MAX_TIMEOUT
    omega
  rw [clampTimeout, if_pos hne, hmin]
  exact asInt_ofInt_neg hneg.1 hneg.2

end Clamp

/-- `idle` waits in time, at the first try and at every further one, if and only if the time left
narrows. -/
theorem idle_waits_iff (m : TimerManager Cb) (now : UInt64) :
    (∀ pendingEventCount schedulerStopping interrupted,
      ∀ t ∈ idleWaits m now pendingEventCount schedulerStopping interrupted,
        InTime (m.getNextTimer now).1 t) ↔ Narrows (m.getNextTimer now).1 := by
  constructor
  · intro h
    by_contra hwide
    obtain ⟨t, ht, hneg⟩ := waits_negative hwide
    have hin := h 1 false 0 t (by
      rw [idleWaits, stopping, Bool.and_false, if_neg Bool.false_ne_true]
      exact ht)
    exact absurd hin.1 (Int.not_le.2 hneg)
  · intro h pendingEventCount schedulerStopping interrupted t ht
    unfold idleWaits at ht
    dsimp only at ht
    split at ht
    · cases ht
    · exact waits_inTime h interrupted t ht

/-- Every value of the time left occurs, already with one timer. -/
theorem getNextTimer_any (cb : Cb) (v : UInt64) : ∃ (rs : List (Answer Cb)) (m : TimerManager Cb),
    StepRuns.run step (construct 0) [.addTimer 0 0 v cb false] = some (rs, m) ∧
      (m.getNextTimer 0).1 = v := by
  refine ⟨_, _, rfl, ?_⟩
  let armed : TimerManager Cb := ((construct 0).addTimer 0 0 v (some cb) false).2
  change (if 0 + v ≤ 0 then (0, { armed with tickled := false })
    else (0 + v - 0, { armed with tickled := false })).1 = v
  rw [UInt64.zero_add, UInt64.sub_zero]
  split
  next hle => exact (UInt64.le_zero_iff.1 hle).symm
  next => rfl

/-- A timer in a little less than 25 days. -/
theorem far_timer_waits_for_good :
    ¬ ∀ (m : TimerManager ℕ) (now : UInt64) (pendingEventCount : ℕ) (schedulerStopping : Bool)
        (interrupted : ℕ), ∀ t ∈ idleWaits m now pendingEventCount schedulerStopping interrupted,
      InTime (m.getNextTimer now).1 t := by
  intro h
  have hin := h ((construct 0).addTimer 8 0 2147483648 (some 1) false).2 0 0 false 0 (-2147483648)
    (by decide)
  exact absurd hin.1 (by decide)

end IOManagerTimeout
