import SylarNet.FiberSemaphore
import SylarNet.StepRuns
import Mathlib.Algebra.Order.Group.Nat
import Mathlib.Data.List.Basic

/-!
# The permits of a worker group

`WorkerGroup` of `worker.cc`. A caller of `schedule` takes a permit of `m_fiberSem` for its task
and `doWork` gives it back, so the permits the group starts with bound the tasks in flight.
-/
namespace WorkerGroups

open FiberSemaphores StepRuns

variable {C : Type}

/-- What a caller has left to do when it gets the permit that it waits for. -/
inductive Caller (C : Type) where
  | schedule (cb : C)
  /-- Of `waitAll`, with the passes of its loop behind the present one. -/
  | waitAll (left : ℕ)
  deriving DecidableEq, Repr

/-- `resumed` are the callers that `notify` has given a permit; `inFlight` are the tasks handed to
the scheduler that have not ended. -/
structure WorkerGroup (C : Type) where
  batchSize : UInt32
  finish : Bool
  fiberSem : FiberSemaphore (Caller C)
  resumed : List (Caller C)
  inFlight : List C
  deriving DecidableEq, Repr

namespace WorkerGroup

/-- `m_fiberSem` is not among the initializers: its argument has the default `0`. -/
def construct (batchSize : UInt32) : WorkerGroup C := ⟨batchSize, false, .construct 0, [], []⟩

/-- `schedule` behind its `wait`. -/
def submit (g : WorkerGroup C) (cb : C) : WorkerGroup C :=
  { g with inFlight := g.inFlight ++ [cb] }

def schedule (g : WorkerGroup C) (cb : C) : WorkerGroup C :=
  let h := { g with fiberSem := (g.fiberSem.wait (.schedule cb)).2 }
  if (g.fiberSem.wait (.schedule cb)).1 then h.submit cb else h

def waitLoop : ℕ → WorkerGroup C → WorkerGroup C
  | 0, g => g
  | left + 1, g =>
    let h := { g with fiberSem := (g.fiberSem.wait (.waitAll left)).2 }
    if (g.fiberSem.wait (.waitAll left)).1 then waitLoop left h else h

def waitAll (g : WorkerGroup C) : WorkerGroup C :=
  if g.finish then g
  else waitLoop g.batchSize.toNat { g with finish := true }

def notify (g : WorkerGroup C) : WorkerGroup C :=
  { g with
    fiberSem := g.fiberSem.notify.2
    resumed := g.resumed ++ g.fiberSem.notify.1.toList }

def resume (g : WorkerGroup C) : Caller C → WorkerGroup C
  | .schedule cb => g.submit cb
  | .waitAll left => waitLoop left g

end WorkerGroup

/-- `ends k` is the end of the task at position `k`, which an exception ends without `notify`;
`resume k` lets a caller go on that was given its permit. -/
inductive Event (C : Type) where
  | schedule (cb : C)
  | ends (k : ℕ) (returns : Bool)
  | resume (k : ℕ)
  | waitAll
  deriving DecidableEq, Repr

def step (g : WorkerGroup C) : Event C → Option (Unit × WorkerGroup C)
  | .schedule cb => some ((), g.schedule cb)
  | .ends k returns =>
    if k < g.inFlight.length then
      let h := { g with inFlight := g.inFlight.eraseIdx k }
      some ((), if returns then h.notify else h)
    else none
  | .resume k =>
    match g.resumed[k]? with
    | some caller => some ((), { g with resumed := g.resumed.eraseIdx k }.resume caller)
    | none => none
  | .waitAll => some ((), g.waitAll)

/-- The permits in the group: free, handed to a caller, or with a task. -/
def permits (g : WorkerGroup C) : ℕ :=
  g.fiberSem.concurrency.toNat + g.resumed.length + g.inFlight.length

variable {g h : WorkerGroup C}

theorem concurrency_wait (s : FiberSemaphore (Caller C)) (w : Caller C) :
    (s.wait w).2.concurrency.toNat + (if (s.wait w).1 then 1 else 0) = s.concurrency.toNat := by
  unfold FiberSemaphore.wait
  split
  · exact toNat_sub_one ‹_›
  · rfl

theorem concurrency_notify (s : FiberSemaphore (Caller C)) :
    s.notify.2.concurrency.toNat + s.notify.1.toList.length ≤ s.concurrency.toNat + 1 := by
  obtain ⟨concurrency, waiters⟩ := s
  cases waiters with
  | nil =>
    have hadd := toNat_add_one concurrency
    simp only [FiberSemaphore.notify, Option.toList_none, List.length_nil]
    omega
  | cons w ws => exact le_refl _

theorem permits_schedule (g : WorkerGroup C) (cb : C) : permits (g.schedule cb) = permits g := by
  have hwait := concurrency_wait g.fiberSem (.schedule cb)
  unfold WorkerGroup.schedule permits
  dsimp only
  split at hwait
  · rename_i hpass
    rw [if_pos hpass]
    simp only [WorkerGroup.submit, List.length_append, List.length_singleton]
    omega
  · rename_i hpark
    rw [if_neg hpark]
    dsimp only
    omega

theorem permits_waitLoop (left : ℕ) (g : WorkerGroup C) :
    permits (WorkerGroup.waitLoop left g) ≤ permits g := by
  induction left generalizing g with
  | zero => exact le_refl _
  | succ left ih =>
    have hwait := concurrency_wait g.fiberSem (.waitAll left)
    have hrest :
        permits { g with fiberSem := (g.fiberSem.wait (.waitAll left)).2 } ≤ permits g := by
      dsimp only [permits]
      omega
    unfold WorkerGroup.waitLoop
    dsimp only
    split
    · exact (ih _).trans hrest
    · exact hrest

theorem permits_waitAll (g : WorkerGroup C) : permits g.waitAll ≤ permits g := by
  unfold WorkerGroup.waitAll
  split
  · exact le_refl _
  · exact permits_waitLoop _ _

/-- No step makes a permit. -/
theorem permits_step {e : Event C} {o : Unit} (hstep : step g e = some (o, h)) :
    permits h ≤ permits g := by
  cases e with
  | schedule cb =>
    cases hstep
    exact (permits_schedule g cb).le
  | ends k returns =>
    simp only [step] at hstep
    split at hstep
    · rename_i hk
      cases hstep
      have herase := List.length_eraseIdx_add_one hk
      have hnotify := concurrency_notify g.fiberSem
      cases returns <;> simp only [permits, WorkerGroup.notify, List.length_append,
        Bool.false_eq_true, if_false, if_true] <;> omega
    · cases hstep
  | resume k =>
    simp only [step] at hstep
    split at hstep
    · rename_i caller hcaller
      cases hstep
      have hk := (List.getElem?_eq_some_iff.1 hcaller).1
      have herase := List.length_eraseIdx_add_one hk
      cases caller with
      | schedule cb =>
        simp only [WorkerGroup.resume, WorkerGroup.submit, permits, List.length_append,
          List.length_singleton]
        omega
      | waitAll left =>
        refine (permits_waitLoop _ _).trans ?_
        simp only [permits]
        omega
    · cases hstep
  | waitAll =>
    cases hstep
    exact permits_waitAll g

/-- The free permits and the tasks in flight are as many as the group was made for. -/
def Bound (g : WorkerGroup C) : Prop :=
  g.fiberSem.concurrency.toNat + g.inFlight.length = g.batchSize.toNat

@[simp] theorem batchSize_schedule (g : WorkerGroup C) (cb : C) :
    (g.schedule cb).batchSize = g.batchSize := by
  unfold WorkerGroup.schedule
  dsimp only
  split <;> rfl

@[simp] theorem batchSize_waitLoop (left : ℕ) (g : WorkerGroup C) :
    (WorkerGroup.waitLoop left g).batchSize = g.batchSize := by
  induction left generalizing g with
  | zero => rfl
  | succ left ih =>
    unfold WorkerGroup.waitLoop
    dsimp only
    split
    · exact ih _
    · rfl

theorem batchSize_step {e : Event C} {o : Unit} (hstep : step g e = some (o, h)) :
    h.batchSize = g.batchSize := by
  cases e with
  | schedule cb =>
    cases hstep
    exact batchSize_schedule g cb
  | ends k returns =>
    simp only [step] at hstep
    split at hstep <;> cases hstep
    cases returns <;> rfl
  | resume k =>
    simp only [step] at hstep
    split at hstep <;> cases hstep
    rename_i caller hcaller
    cases caller with
    | schedule cb => rfl
    | waitAll left => exact batchSize_waitLoop left _
  | waitAll =>
    cases hstep
    unfold WorkerGroup.waitAll
    split
    · rfl
    · exact batchSize_waitLoop _ _

/-- The group starts without a permit, so that no task of it ever runs. -/
theorem bound_never_holds {batchSize : UInt32} (hb : 0 < batchSize) (events : List (Event C))
    (h : ∃ os, run step (.construct batchSize) events = some (os, g)) :
    ¬Bound g ∧ g.inFlight = [] := by
  obtain ⟨os, hrun⟩ := h
  have hkeep : g.batchSize = batchSize ∧ permits g = 0 := by
    refine run_invariant (P := fun g : WorkerGroup C => g.batchSize = batchSize ∧ permits g = 0)
      ?_ ⟨rfl, rfl⟩ (guarded_true _ _) hrun
    intro g e o h hg _ hstep
    exact ⟨(batchSize_step hstep).trans hg.1,
      Nat.le_zero.1 ((permits_step hstep).trans hg.2.le)⟩
  obtain ⟨hsize, hzero⟩ := hkeep
  have hflight : g.inFlight.length = 0 := by
    rw [permits] at hzero
    omega
  refine ⟨?_, List.length_eq_zero_iff.1 hflight⟩
  intro hbound
  have hpos : 0 < batchSize.toNat := hb
  rw [Bound, hsize] at hbound
  rw [permits] at hzero
  omega

theorem bound_never_holds_one : ∃ os g,
    run step (.construct 1) [.schedule 5, .waitAll] = some (os, g) ∧
    g.fiberSem.waiters = [.schedule 5, .waitAll 0] ∧ ¬Bound g ∧ g.inFlight = [] :=
  ⟨_, _, rfl, rfl, bound_never_holds (C := ℕ) (by decide) [.schedule 5, .waitAll] ⟨_, rfl⟩⟩

/-- The first caller of `schedule` parks with nothing in flight. -/
theorem first_schedule_parks : ¬ ∀ (batchSize : UInt32) (events : List (Event ℕ)) os g,
    0 < batchSize → run step (.construct batchSize) events = some (os, g) →
      Bound g ∧ (g.fiberSem.waiters ≠ [] → g.inFlight.length = batchSize.toNat) := by
  intro h
  exact absurd ((h 1 [.schedule 5] _ _ (by decide) rfl).2 (List.cons_ne_nil _ _)) (by decide)

end WorkerGroups
