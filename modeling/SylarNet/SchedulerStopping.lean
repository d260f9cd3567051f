import Mathlib.Algebra.BigOperators.Fin
import Mathlib.Algebra.Order.BigOperators.Group.Finset
import SylarNet.SylarScheduler

/-!
# The shutdown test

`stopping` reads the queue and `m_activeThreadCount`. The counter is the number of workers
that have taken an entry and not yet counted themselves out; they do so before they put a
fiber that yielded `READY` back into the queue.
-/
namespace SchedulerStopping

open SylarScheduler

variable {F C : Type} {n : ℕ}

/-- Between `++m_activeThreadCount` and `--m_activeThreadCount`. -/
def counted : Pc F C → Bool
  | .took _ | .startCb _ | .enter _ _ | .inside _ _ | .leaving _ _ | .left _ _ | .drop => true
  | .top | .settle _ _ | .putBack _ _ | .hold _ _ | .recycle _ | .idling | .ended => false

def activeWorkers (s : State n F C) : ℕ := ∑ i, (counted (s.workers i).pc).toNat

/-- A worker that is in the code of a task. -/
def ExecutingTask (s : State n F C) (i : Fin n) : Prop :=
  ∃ job f, (s.workers i).pc = .inside job f ∨ (s.workers i).pc = .leaving job f

/-- A worker with an entry that it has not yet switched to. -/
def TaskToRun (s : State n F C) (i : Fin n) : Prop :=
  (∃ ft, (s.workers i).pc = .took ft) ∨ (∃ c, (s.workers i).pc = .startCb c) ∨
    ∃ job f, (s.workers i).pc = .enter job f

/-- A worker with a fiber that has yielded `READY` and is not in the queue again. -/
def TaskToPutBack (s : State n F C) (i : Fin n) : Prop :=
  ∃ job f, (s.workers i).pc = .putBack job f ∨
    ((s.workers i).pc = .left job f ∨ (s.workers i).pc = .settle job f) ∧
      (s.object f).state = .READY

/-- Nothing is queued, and no worker has a task. -/
def Quiet (s : State n F C) : Prop :=
  s.queue = [] ∧ ∀ i, ¬ ExecutingTask s i ∧ ¬ TaskToRun s i ∧ ¬ TaskToPutBack s i

/-- The worker has counted itself out and not yet put back its fiber. -/
def BeforePutBack (s : State n F C) (i : Fin n) : Prop :=
  ∃ job f, (s.workers i).pc = .putBack job f ∨
    (s.workers i).pc = .settle job f ∧ (s.object f).state = .READY

/-- Some worker stands there. -/
def PutBackPending (s : State n F C) : Prop := ∃ i, BeforePutBack s i

/-- `IOManager::stopping`, with what `getNextTimer` and `m_pendingEventCount` gave before. -/
def ioManagerStopping (timeout : UInt64) (pendingEventCount : ℕ) (s : State n F C) : Bool :=
  timeout == ~~~0 && pendingEventCount == 0 && s.isStopping

/-- The test, of the scheduler or of an `IOManager`, says that everything is done. -/
def SaysStopping (s : State n F C) : Prop :=
  s.isStopping = true ∨ ∃ timeout pending, ioManagerStopping timeout pending s = true

/-- With `stop` called and the queue empty, the last active worker counts itself out only
when no fiber is on its way back into the queue, its own included, and the flags of `stop`
are not completed in a moment in which such a fiber is all that is left. -/
def NothingOnItsWay (s : State n F C) : Label n F C → Prop
  | .worker i =>
    s.autoStop = true → s.stopping = true → s.queue = [] → s.activeThreadCount = 1 →
      (∀ job f, (s.workers i).pc = .left job f →
        (s.object f).state ≠ .READY ∧ ¬ PutBackPending s) ∧
      ((s.workers i).pc = .drop → ¬ PutBackPending s)
  | .autoStop =>
    s.stopping = true → s.queue = [] → s.activeThreadCount = 0 → ¬ PutBackPending s
  | .stop => s.autoStop = true → s.queue = [] → s.activeThreadCount = 0 → ¬ PutBackPending s
  | _ => True

variable {tid : Fin n → ℤ} {s t : State n F C}

/-- Moving one worker changes the number by that worker. -/
theorem activeWorkers_update {i : Fin n} (hother : ∀ j, j ≠ i → t.workers j = s.workers j) :
    activeWorkers t + (counted (s.workers i).pc).toNat =
      activeWorkers s + (counted (t.workers i).pc).toNat := by
  have hrest : ∑ j ∈ Finset.univ.erase i, (counted (t.workers j).pc).toNat =
      ∑ j ∈ Finset.univ.erase i, (counted (s.workers j).pc).toNat := by
    apply Finset.sum_congr rfl
    intro j hj
    rw [hother j (Finset.ne_of_mem_erase hj)]
  have ht := Finset.add_sum_erase Finset.univ (fun j => (counted (t.workers j).pc).toNat)
    (Finset.mem_univ i)
  have hs := Finset.add_sum_erase Finset.univ (fun j => (counted (s.workers j).pc).toNat)
    (Finset.mem_univ i)
  unfold activeWorkers
  omega

def Counts (s : State n F C) : Prop := s.activeThreadCount = activeWorkers s

theorem counts_initial : Counts (initial : State n F C) := by
  simp [Counts, initial, activeWorkers, counted]

theorem Counts.same (h : Counts s) (hw : t.workers = s.workers)
    (ha : t.activeThreadCount = s.activeThreadCount) : Counts t := by
  rw [Counts, activeWorkers, hw, ha]
  exact h

theorem Counts.keep (h : Counts s) {i : Fin n}
    (hother : ∀ j, j ≠ i → t.workers j = s.workers j)
    (ha : t.activeThreadCount = s.activeThreadCount)
    (hself : counted (t.workers i).pc = counted (s.workers i).pc) : Counts t := by
  have hsum := activeWorkers_update hother
  rw [hself] at hsum
  unfold Counts at h ⊢
  omega

theorem Counts.enter (h : Counts s) {i : Fin n}
    (hother : ∀ j, j ≠ i → t.workers j = s.workers j)
    (ha : t.activeThreadCount = s.activeThreadCount + 1)
    (hs : counted (s.workers i).pc = false) (ht : counted (t.workers i).pc = true) :
    Counts t := by
  have hsum := activeWorkers_update hother
  simp only [hs, ht, Bool.toNat_false, Bool.toNat_true] at hsum
  unfold Counts at h ⊢
  omega

/-- The counter is positive when a worker counts itself out. -/
theorem Counts.leave (h : Counts s) {i : Fin n}
    (hother : ∀ j, j ≠ i → t.workers j = s.workers j)
    (ha : t.activeThreadCount = s.activeThreadCount - 1)
    (hs : counted (s.workers i).pc = true) (ht : counted (t.workers i).pc = false) :
    Counts t := by
  have hsum := activeWorkers_update hother
  simp only [hs, ht, Bool.toNat_false, Bool.toNat_true] at hsum
  unfold Counts at h ⊢
  omega

theorem counted_choose [DecidableEq F] (ft : FiberAndThread F C) :
    counted (s.choose ft) = true := by
  unfold State.choose
  split <;> (try split) <;> rfl

theorem counted_settle [DecidableEq F] (job : Job C) (f : F) :
    counted (s.settle job f) = false := by
  unfold State.settle
  split <;> rfl

theorem counts_move [DecidableEq F] {l : Label n F C} (h : Counts s) (hm : Move tid s l t) :
    Counts t := by
  have hother : ∀ i, l.actor = some i → ∀ j, j ≠ i → t.workers j = s.workers j :=
    fun i => hm.others
  cases hm with
  | schedule =>
    obtain ⟨q, r, hq⟩ := s.scheduleNoLock_frame (.ofTask _ _)
    rw [hq]
    exact h.same rfl rfl
  | scheduleAll =>
    obtain ⟨q, r, hq⟩ := scheduleAll_frame s _
    rw [hq]
    exact h.same rfl rfl
  | create | start | autoStop | stop => exact h.same rfl rfl
  | null | reuseFails | swapInFails | actFails | recycleFails => exact h.same rfl rfl
  | take at_pc => exact h.enter (hother _ rfl) rfl (by rw [at_pc]; rfl) (by simp [counted])
  | uncount at_pc | drop at_pc =>
    exact h.leave (hother _ rfl) rfl (by rw [at_pc]; rfl) (by simp [counted])
  | rest at_pc =>
    refine h.keep (hother _ rfl) rfl ?_
    rw [State.goto_self, at_pc]
    dsimp only
    split <;> rfl
  | choose at_pc =>
    refine h.keep (hother _ rfl) rfl ?_
    rw [State.goto_self, at_pc]
    exact counted_choose _
  | settle at_pc =>
    refine h.keep (hother _ rfl) rfl ?_
    rw [State.goto_self, at_pc]
    exact counted_settle _ _
  | putBack at_pc =>
    obtain ⟨q, r, hq⟩ := s.scheduleNoLock_frame (.ofTask (.fiber (some _)) (-1))
    refine h.keep (hother _ rfl) ?_ (by simp [at_pc, counted])
    rw [hq]
    rfl
  | reuse at_pc | allocate at_pc | swapIn at_pc | act at_pc | swapOut at_pc | hold at_pc
  | recycle at_pc | idle at_pc =>
    exact h.keep (hother _ rfl) rfl (by simp [at_pc, counted])

/-- In every reachable state the counter is the number of workers that have a task. -/
theorem counts_reachable [DecidableEq F] (h : Reachable tid s) : Counts s :=
  reachable_invariant counts_initial (fun _ _ _ hs hm => counts_move hs hm) h

theorem isStopping_iff :
    s.isStopping = true ↔
      s.autoStop = true ∧ s.stopping = true ∧ s.queue = [] ∧ s.activeThreadCount = 0 := by
  simp only [State.isStopping, Bool.and_eq_true, List.isEmpty_iff, beq_iff_eq, and_assoc]

theorem saysStopping_iff : SaysStopping s ↔ s.isStopping = true := by
  refine ⟨?_, Or.inl⟩
  rintro (h | ⟨timeout, pending, h⟩)
  · exact h
  · simp only [ioManagerStopping, Bool.and_eq_true] at h
    exact h.2

theorem not_counted_of_zero (h : Counts s) (hzero : s.activeThreadCount = 0) (i : Fin n) :
    counted (s.workers i).pc = false := by
  have hsum : ∑ i, (counted (s.workers i).pc).toNat = 0 := h.symm.trans hzero
  have hi := Finset.sum_eq_zero_iff.1 hsum i (Finset.mem_univ i)
  simpa using hi

theorem counted_of_isStopping (h : Counts s) (hstop : s.isStopping = true) (i : Fin n) :
    counted (s.workers i).pc = false :=
  not_counted_of_zero h (isStopping_iff.1 hstop).2.2.2 i

/-- When the test says yes, the counter accounts for every worker with a task except those
that stand before `schedule(fiber)`. -/
theorem quiet_iff (h : Counts s) (hstop : s.isStopping = true) :
    Quiet s ↔ ¬ PutBackPending s := by
  constructor
  · rintro ⟨-, hquiet⟩ ⟨i, job, f, hpc | ⟨hpc, hready⟩⟩
    · exact (hquiet i).2.2 ⟨job, f, .inl hpc⟩
    · exact (hquiet i).2.2 ⟨job, f, .inr ⟨.inr hpc, hready⟩⟩
  · intro hnone
    refine ⟨(isStopping_iff.1 hstop).2.2.1, ?_⟩
    intro i
    have hi := counted_of_isStopping h hstop i
    refine ⟨?_, ?_, ?_⟩
    · rintro ⟨job, f, hpc | hpc⟩ <;> simp [hpc, counted] at hi
    · rintro (⟨ft, hpc⟩ | ⟨c, hpc⟩ | ⟨job, f, hpc⟩) <;> simp [hpc, counted] at hi
    · rintro ⟨job, f, hpc | ⟨hpc | hpc, hready⟩⟩
      · exact hnone ⟨i, job, f, .inl hpc⟩
      · simp [hpc, counted] at hi
      · exact hnone ⟨i, job, f, .inr ⟨hpc, hready⟩⟩

/-- The property as a step has to keep it. -/
def Honest (s : State n F C) : Prop := s.isStopping = true → ¬ PutBackPending s

/-- A worker that is counted after the step makes the test say no. -/
theorem honest_of_counted (h : Counts t) {i : Fin n} (hi : counted (t.workers i).pc = true) :
    Honest t := by
  intro hstop
  rw [counted_of_isStopping h hstop i] at hi
  cases hi

/-- A step after which the test says no more than before, with no new fiber on its way. -/
theorem Honest.mono (h : Honest s) (hstop : t.isStopping = true → s.isStopping = true)
    (hput : PutBackPending t → PutBackPending s) : Honest t :=
  fun ht hp => h (hstop ht) (hput hp)

/-- The other workers' fibers keep their state unless it is set to one that is not `READY`. -/
theorem pending_of_goto {i : Fin n} (hother : ∀ j, j ≠ i → t.workers j = s.workers j)
    (hready : ∀ f, (t.object f).state = .READY → (s.object f).state = .READY)
    (hi : BeforePutBack t i → PutBackPending s) (h : PutBackPending t) : PutBackPending s := by
  obtain ⟨j, hj⟩ := h
  by_cases hji : j = i
  · exact hi (hji ▸ hj)
  · obtain ⟨job, f, hpc⟩ := hj
    rw [hother j hji] at hpc
    exact ⟨j, job, f, hpc.imp id (fun h => ⟨h.1, hready f h.2⟩)⟩

theorem ready_of_setFiber [DecidableEq F] {g : F} {o : Fiber} (ho : o.state ≠ .READY) (f : F)
    (h : ((s.setFiber g o).object f).state = .READY) : (s.object f).state = .READY := by
  by_cases hf : f = g
  · subst hf
    simp [State.setFiber, ho] at h
  · simpa [State.setFiber, hf] using h

/-- Only counting itself out can be the wrong step of a worker. -/
theorem nothingOnItsWay_of_pc {i : Fin n} {pc : Pc F C} (at_pc : (s.workers i).pc = pc)
    (hleft : ∀ job f, pc ≠ .left job f) (hdrop : pc ≠ .drop) :
    NothingOnItsWay s (.worker i) := by
  intro _ _ _ _
  refine ⟨fun job f hpc => ?_, fun hpc => ?_⟩
  · exact absurd (at_pc.symm.trans hpc) (hleft job f)
  · exact absurd (at_pc.symm.trans hpc) hdrop

theorem one_le_of_counted (h : Counts s) {i : Fin n} (hi : counted (s.workers i).pc = true) :
    1 ≤ s.activeThreadCount := by
  by_contra hzero
  rw [not_counted_of_zero h (Nat.lt_one_iff.1 (not_le.1 hzero)) i] at hi
  cases hi

/-- The step of a worker that counts itself out, with `P` for its own fiber being one to
put back. -/
theorem honest_of_uncount {i : Fin n} {P : Prop}
    (hother : ∀ j, j ≠ i → t.workers j = s.workers j) (hpos : 1 ≤ s.activeThreadCount)
    (hs : ¬ BeforePutBack s i) (ht : BeforePutBack t i ↔ P)
    (heq : t = { s with activeThreadCount := s.activeThreadCount - 1, workers := t.workers }) :
    Honest t ↔ (s.autoStop = true → s.stopping = true → s.queue = [] →
      s.activeThreadCount = 1 → ¬ P ∧ ¬ PutBackPending s) := by
  have hobject : t.object = s.object := by rw [heq]
  have hback : ∀ j, j ≠ i → (BeforePutBack t j ↔ BeforePutBack s j) := by
    intro j hj
    rw [BeforePutBack, BeforePutBack, hother j hj, hobject]
  have hpending : PutBackPending t ↔ P ∨ PutBackPending s := by
    constructor
    · rintro ⟨j, hj⟩
      by_cases hji : j = i
      · exact .inl (ht.1 (hji ▸ hj))
      · exact .inr ⟨j, (hback j hji).1 hj⟩
    · rintro (hP | ⟨j, hj⟩)
      · exact ⟨i, ht.2 hP⟩
      · have hji : j ≠ i := fun heq => hs (heq ▸ hj)
        exact ⟨j, (hback j hji).2 hj⟩
  have hstop : t.isStopping = true ↔ s.autoStop = true ∧ s.stopping = true ∧ s.queue = [] ∧
      s.activeThreadCount = 1 := by
    rw [isStopping_iff, heq]
    dsimp only
    refine and_congr_right fun _ => and_congr_right fun _ => and_congr_right fun _ => ?_
    omega
  rw [Honest, hstop, hpending, not_or]
  tauto

theorem scheduleNoLock_of_queue (ft : FiberAndThread F C)
    (h : (s.scheduleNoLock ft).queue = []) : s.scheduleNoLock ft = s := by
  unfold State.scheduleNoLock at h ⊢
  split at h
  · simp at h
  · rename_i hnull
    rw [if_neg hnull]

theorem scheduleAll_of_queue (ts : List (Task F C)) (h : (scheduleAll s ts).2.queue = []) :
    (scheduleAll s ts).2 = s := by
  unfold scheduleAll at h ⊢
  dsimp only at h ⊢
  induction ts generalizing s with
  | nil => rfl
  | cons t ts ih =>
    rw [List.foldl_cons] at h ⊢
    have htail := ih h
    rw [htail] at h ⊢
    exact scheduleNoLock_of_queue _ h

/-- If the queue is empty after a call of `schedule`, nothing was put into it. -/
theorem Honest.schedule (h : Honest s) (hq : t.queue = [] → t = s) : Honest t := by
  intro hstop
  have hts := hq (isStopping_iff.1 hstop).2.2.1
  rw [hts] at hstop ⊢
  exact h hstop

theorem honest_move [DecidableEq F] {l : Label n F C} (hc : Counts s) (h : Honest s)
    (hm : Move tid s l t) : Honest t ↔ NothingOnItsWay s l := by
  have hct := counts_move hc hm
  have hother : ∀ i, l.actor = some i → ∀ j, j ≠ i → t.workers j = s.workers j :=
    fun i => hm.others
  cases hm with
  | schedule =>
    exact iff_of_true (h.schedule fun hq => scheduleNoLock_of_queue _ hq) trivial
  | scheduleAll =>
    exact iff_of_true (h.schedule fun hq => scheduleAll_of_queue _ hq) trivial
  | create fresh =>
    refine iff_of_true (h.mono id ?_) trivial
    rintro ⟨j, job, f, hpc⟩
    exact ⟨j, job, f, hpc.imp id fun h => ⟨h.1, ready_of_setFiber (by decide) f h.2⟩⟩
  | start =>
    refine iff_of_true ?_ trivial
    intro hstop
    exact absurd (isStopping_iff.1 hstop).2.1 (by simp)
  | autoStop =>
    constructor
    · intro ht hstop hq ha
      exact ht (isStopping_iff.2 ⟨rfl, hstop, hq, ha⟩)
    · intro hway hstop
      obtain ⟨-, hs, hq, ha⟩ := isStopping_iff.1 hstop
      exact hway hs hq ha
  | stop =>
    constructor
    · intro ht hauto hq ha
      exact ht (isStopping_iff.2 ⟨hauto, rfl, hq, ha⟩)
    · intro hway hstop
      obtain ⟨hauto, -, hq, ha⟩ := isStopping_iff.1 hstop
      exact hway hauto hq ha
  | null at_pc | reuseFails at_pc | swapInFails at_pc | recycleFails at_pc =>
    exact iff_of_true h (nothingOnItsWay_of_pc at_pc (by simp) (by simp))
  | actFails => exact iff_of_true h trivial
  | @allocate i | @act i =>
    exact iff_of_true (honest_of_counted hct (i := i) (by simp [counted])) trivial
  | @take i _ _ at_pc | @reuse i _ _ _ at_pc | @swapIn i _ _ _ at_pc | @swapOut i _ _ at_pc =>
    exact iff_of_true (honest_of_counted hct (i := i) (by simp [counted]))
      (nothingOnItsWay_of_pc at_pc (by simp) (by simp))
  | @choose i ft at_pc =>
    refine iff_of_true (honest_of_counted hct (i := i) ?_)
      (nothingOnItsWay_of_pc at_pc (by simp) (by simp))
    rw [State.goto_self]
    exact counted_choose _
  | putBack at_pc =>
    refine iff_of_true ?_ (nothingOnItsWay_of_pc at_pc (by simp) (by simp))
    intro hstop
    have hq := (isStopping_iff.1 hstop).2.2.1
    simp [State.setWorker, State.scheduleNoLock, FiberAndThread.NonNull,
      FiberAndThread.ofTask] at hq
  | rest at_pc =>
    refine iff_of_true (h.mono id (pending_of_goto (hother _ rfl) (fun _ => id) ?_))
      (nothingOnItsWay_of_pc at_pc (by simp) (by simp))
    rintro ⟨job, f, hpc | ⟨hpc, -⟩⟩
    · rw [State.goto_self] at hpc
      dsimp only at hpc
      split at hpc <;> cases hpc
    · rw [State.goto_self] at hpc
      dsimp only at hpc
      split at hpc <;> cases hpc
  | idle at_pc =>
    refine iff_of_true (h.mono id (pending_of_goto (hother _ rfl) (fun _ => id) ?_))
      (nothingOnItsWay_of_pc at_pc (by simp) (by simp))
    rintro ⟨job, f, hpc | ⟨hpc, -⟩⟩ <;> simp at hpc
  | hold at_pc =>
    refine iff_of_true (h.mono id (pending_of_goto (hother _ rfl)
      (ready_of_setFiber (by simp)) ?_)) (nothingOnItsWay_of_pc at_pc (by simp) (by simp))
    rintro ⟨job, f, hpc | ⟨hpc, -⟩⟩ <;> simp at hpc
  | recycle at_pc ok =>
    have hinit := (Fiber.reset_ok ok).2
    refine iff_of_true (h.mono id (pending_of_goto (hother _ rfl)
      (ready_of_setFiber (by rw [hinit]; decide)) ?_))
      (nothingOnItsWay_of_pc at_pc (by simp) (by simp))
    rintro ⟨job, f, hpc | ⟨hpc, -⟩⟩ <;> simp at hpc
  | @settle i job f at_pc =>
    refine iff_of_true (h.mono id (pending_of_goto (hother _ rfl) (fun _ => id) ?_))
      (nothingOnItsWay_of_pc at_pc (by simp) (by simp))
    rintro ⟨job', f', hpc⟩
    rw [State.goto_self] at hpc
    rcases s.settle_cases job f with ⟨hready, -⟩ | ⟨-, ⟨-, hset⟩ | ⟨-, hset⟩⟩ | ⟨-, -, hset⟩
    · exact ⟨i, job, f, .inr ⟨at_pc, hready⟩⟩
    all_goals simp [hset] at hpc
  | @uncount i job f at_pc =>
    rw [honest_of_uncount (hother i rfl) (one_le_of_counted hc (i := i) (by rw [at_pc]; rfl))
      (P := (s.object f).state = .READY) ?_ ?_ rfl]
    · simp [NothingOnItsWay, at_pc]
    · rintro ⟨job', f', hpc | ⟨hpc, -⟩⟩ <;> simp [at_pc] at hpc
    · simp [BeforePutBack, State.goto, State.setWorker]
  | @drop i at_pc =>
    rw [honest_of_uncount (hother i rfl) (one_le_of_counted hc (i := i) (by rw [at_pc]; rfl))
      (P := False) ?_ ?_ rfl]
    · simp [NothingOnItsWay, at_pc]
    · rintro ⟨job', f', hpc | ⟨hpc, -⟩⟩ <;> simp [at_pc] at hpc
    · simp [BeforePutBack]

/-- The answers of the test are right throughout a run exactly when no step lets it overlook
a fiber between `--m_activeThreadCount` and `schedule`. -/
theorem stopping_sound_iff [DecidableEq F] {ls : List (Label n F C)}
    {os : List (List (Task F C))} {u : State n F C}
    (h : StepRuns.run (step tid) initial ls = some (os, u)) :
    (∀ k os s, StepRuns.run (step tid) initial (ls.take k) = some (os, s) →
      SaysStopping s → Quiet s) ↔
    StepRuns.Guarded NothingOnItsWay (step tid) initial ls := by
  have hhonest : ∀ s : State n F C, Counts s → ((SaysStopping s → Quiet s) ↔ Honest s) := by
    intro s hs
    rw [saysStopping_iff]
    exact forall_congr' fun hstop => quiet_iff hs hstop
  refine StepRuns.forall_prefix_iff_guarded (I := Counts) ?_ ?_ counts_initial ?_
    (StepRuns.guarded_of_run h)
  · intro s l hs hok
    obtain ⟨⟨o, t⟩, hstep⟩ := Option.isSome_iff_exists.1 hok
    exact ⟨o, t, hstep, counts_move hs (move_of_step hstep).2⟩
  · intro s l o t hs hP _ hstep
    have hm := (move_of_step hstep).2
    rw [hhonest t (counts_move hs hm)]
    exact honest_move hs ((hhonest s hs).1 hP) hm
  · rw [hhonest _ counts_initial]
    intro hstop
    exact absurd (isStopping_iff.1 hstop).1 (by simp [initial])

/-- `stop` is called, and the only worker runs a callback to its end. -/
def oneCallback : List (Label 1 ℕ ℕ) :=
  [.schedule (.cb (some 5)) (-1), .autoStop, .worker 0, .worker 0, .allocate 0 0, .worker 0,
    .body 0 (.finish .returns), .worker 0, .worker 0]

theorem stopping_sound_after_callback :
    ∃ os s, StepRuns.run (step fun _ => 3) initial oneCallback = some (os, s) ∧
      s.isStopping = true ∧
      ((∀ k os s, StepRuns.run (step fun _ => 3) initial (oneCallback.take k) = some (os, s) →
          SaysStopping s → Quiet s) ↔
        StepRuns.Guarded NothingOnItsWay (step fun _ => 3) initial oneCallback) :=
  ⟨_, _, rfl, rfl, stopping_sound_iff rfl⟩

/-- Worker `0` has counted itself out with a fiber that yielded `READY`. -/
theorem stopping_before_put_back :
    ¬ ∀ (ls : List (Label 2 ℕ ℕ)) os s,
      StepRuns.run (step fun i => 3 + i.val) initial ls = some (os, s) →
        s.isStopping = true → Quiet s := by
  intro h
  have hquiet := h [.create 7, .schedule (.fiber (some 7)) (-1), .autoStop, .worker 0, .worker 0,
    .worker 0, .body 0 .yieldToReady, .worker 0, .worker 0] _ _ rfl rfl
  exact (hquiet.2 0).2.2 ⟨.fiber, 7, .inr ⟨.inr rfl, rfl⟩⟩

end SchedulerStopping
