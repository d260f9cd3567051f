import Mathlib.Algebra.Order.Group.Nat
import Mathlib.Tactic.Common

/-!
# The semaphore of the fibers

`FiberSemaphore` of `mutex.cc`. Every function is one section under its spinlock; what a fiber
does when it does not get a permit, and how a waiter is scheduled, is up to the caller here.
-/
namespace FiberSemaphores

/-- `m_concurrency` is a `size_t`. -/
structure FiberSemaphore (W : Type) where
  concurrency : UInt64
  waiters : List W
  deriving DecidableEq, Repr

variable {W : Type}

namespace FiberSemaphore

def construct (initialConcurrency : UInt64) : FiberSemaphore W := ⟨initialConcurrency, []⟩

def tryWait (s : FiberSemaphore W) : Bool × FiberSemaphore W :=
  if 0 < s.concurrency then (true, { s with concurrency := s.concurrency - 1 }) else (false, s)

/-- Without a permit the caller is among the waiters and yields next. -/
def wait (s : FiberSemaphore W) (w : W) : Bool × FiberSemaphore W :=
  if 0 < s.concurrency then (true, { s with concurrency := s.concurrency - 1 })
  else (false, { s with waiters := s.waiters ++ [w] })

/-- The waiter that is to be scheduled. -/
def notify (s : FiberSemaphore W) : Option W × FiberSemaphore W :=
  match s.waiters with
  | w :: ws => (some w, { s with waiters := ws })
  | [] => (none, { s with concurrency := s.concurrency + 1 })

@[simp] theorem waiters_tryWait (s : FiberSemaphore W) : s.tryWait.2.waiters = s.waiters := by
  unfold tryWait
  split <;> rfl

theorem wait_cases (s : FiberSemaphore W) (w : W) :
    (s.wait w).1 = true ∧ (s.wait w).2.waiters = s.waiters ∨
    (s.wait w).1 = false ∧ (s.wait w).2.waiters = s.waiters ++ [w] := by
  unfold wait
  split
  · exact .inl ⟨rfl, rfl⟩
  · exact .inr ⟨rfl, rfl⟩

theorem notify_some {s : FiberSemaphore W} {w : W} (h : s.notify.1 = some w) :
    s.waiters = w :: s.notify.2.waiters := by
  obtain ⟨concurrency, waiters⟩ := s
  cases waiters <;> cases h
  rfl

theorem notify_none {s : FiberSemaphore W} (h : s.notify.1 = none) :
    s.notify.2.waiters = s.waiters := by
  obtain ⟨concurrency, waiters⟩ := s
  cases waiters <;> cases h
  rfl

end FiberSemaphore

/-- What happened to a semaphore: the calls of `notify`, with those that found the counter at
its greatest value and nobody waiting; the permits that were taken at once; the callers that
were put among the waiters, and those that were taken from them. -/
structure History (W : Type) where
  notified : ℕ
  overflowed : ℕ
  passed : ℕ
  parked : List W
  released : List W
  deriving DecidableEq, Repr

namespace History

def start : History W := ⟨0, 0, 0, [], []⟩

def tryWait (h : History W) (s : FiberSemaphore W) : History W :=
  if s.tryWait.1 then { h with passed := h.passed + 1 } else h

def wait (h : History W) (s : FiberSemaphore W) (w : W) : History W :=
  if (s.wait w).1 then { h with passed := h.passed + 1 } else { h with parked := h.parked ++ [w] }

def notify (h : History W) (s : FiberSemaphore W) : History W :=
  match s.notify.1 with
  | some w => { h with notified := h.notified + 1, released := h.released ++ [w] }
  | none =>
    { h with
      notified := h.notified + 1
      overflowed := h.overflowed + if s.concurrency.toNat + 1 = 2 ^ 64 then 1 else 0 }

end History

/-- Permits are neither made nor lost, and waiters leave in their order. -/
structure Conserves (initialConcurrency : UInt64) (s : FiberSemaphore W) (h : History W) :
    Prop where
  exclusive : 0 < s.concurrency → s.waiters = []
  balance : initialConcurrency.toNat + h.notified =
    s.concurrency.toNat + h.passed + h.released.length + 2 ^ 64 * h.overflowed
  fifo : h.parked = h.released ++ s.waiters

variable {initialConcurrency : UInt64} {s : FiberSemaphore W} {h : History W}

theorem conserves_construct :
    Conserves initialConcurrency (.construct initialConcurrency : FiberSemaphore W) .start :=
  ⟨fun _ => rfl, rfl, rfl⟩

theorem toNat_sub_one {c : UInt64} (h : 0 < c) : (c - 1).toNat + 1 = c.toNat := by
  have hpos : 0 < c.toNat := h
  have hle : (1 : UInt64) ≤ c := UInt64.le_iff_toNat_le.2 hpos
  rw [UInt64.toNat_sub_of_le _ _ hle]
  exact Nat.sub_add_cancel hpos

theorem toNat_add_one (c : UInt64) :
    (c + 1).toNat + 2 ^ 64 * (if c.toNat + 1 = 2 ^ 64 then 1 else 0) = c.toNat + 1 := by
  have hlt := c.toNat_lt
  have hone : (1 : UInt64).toNat = 1 := rfl
  rw [UInt64.toNat_add, hone]
  split
  · rename_i h
    rw [h, Nat.mod_self, Nat.mul_one, Nat.zero_add]
  · rename_i h
    rw [Nat.mod_eq_of_lt (Nat.lt_of_le_of_ne hlt h), Nat.mul_zero, Nat.add_zero]

/-- A permit that is there is taken from the counter. -/
theorem Conserves.pass (hc : Conserves initialConcurrency s h) (hpos : 0 < s.concurrency) :
    Conserves initialConcurrency { s with concurrency := s.concurrency - 1 }
      { h with passed := h.passed + 1 } := by
  have hsub := toNat_sub_one hpos
  refine ⟨fun _ => hc.exclusive hpos, ?_, hc.fifo⟩
  have hbalance := hc.balance
  dsimp only
  rw [hbalance, ← hsub]
  ac_rfl

theorem Conserves.tryWait (hc : Conserves initialConcurrency s h) :
    Conserves initialConcurrency s.tryWait.2 (h.tryWait s) := by
  by_cases hpos : 0 < s.concurrency
  · simp only [FiberSemaphore.tryWait, History.tryWait, if_pos hpos, if_true]
    exact hc.pass hpos
  · simp only [FiberSemaphore.tryWait, History.tryWait, if_neg hpos, Bool.false_eq_true, if_false]
    exact hc

theorem Conserves.wait (hc : Conserves initialConcurrency s h) (w : W) :
    Conserves initialConcurrency (s.wait w).2 (h.wait s w) := by
  by_cases hpos : 0 < s.concurrency
  · simp only [FiberSemaphore.wait, History.wait, if_pos hpos, if_true]
    exact hc.pass hpos
  · simp only [FiberSemaphore.wait, History.wait, if_neg hpos, Bool.false_eq_true, if_false]
    refine ⟨fun h => absurd h hpos, hc.balance, ?_⟩
    dsimp only
    rw [hc.fifo, List.append_assoc]

/-- A permit goes to the first waiter, and only without one to the counter. -/
theorem Conserves.notify (hc : Conserves initialConcurrency s h) :
    Conserves initialConcurrency s.notify.2 (h.notify s) := by
  obtain ⟨concurrency, waiters⟩ := s
  have hbalance := hc.balance
  cases waiters with
  | cons w ws =>
    have hzero : ¬ 0 < concurrency := fun hpos => List.cons_ne_nil w ws (hc.exclusive hpos)
    refine ⟨fun hpos => absurd hpos hzero, ?_, ?_⟩
    · simp only [FiberSemaphore.notify, History.notify, List.length_append, List.length_singleton]
      rw [← Nat.add_assoc, hbalance]
      ac_rfl
    · simp only [FiberSemaphore.notify, History.notify, hc.fifo, List.append_assoc,
        List.singleton_append]
  | nil =>
    refine ⟨fun _ => rfl, ?_, hc.fifo⟩
    simp only [FiberSemaphore.notify, History.notify]
    have hadd := toNat_add_one concurrency
    rw [Nat.mul_add]
    generalize 2 ^ 64 * (if concurrency.toNat + 1 = 2 ^ 64 then 1 else 0) = carry at hadd ⊢
    dsimp only at hbalance
    omega

end FiberSemaphores
