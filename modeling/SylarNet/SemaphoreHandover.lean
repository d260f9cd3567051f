import SylarNet.FiberSemaphore
import SylarNet.ParkedFibers

/-!
# A permit handed to a parked fiber

A `FiberSemaphore` that the fibers of several schedulers share. A fiber without a permit is among
the waiters before it has yielded, so `notify` may schedule it while its thread still runs it;
the scan of the workers passes over the new entry until the thread has switched the fiber out.
-/
namespace SemaphoreHandover

open FiberSemaphores ParkedFibers SylarScheduler SchedulerDelivery SchedulerExclusion StepRuns
open TicketQueue

variable {S F C : Type} {n : S → ℕ}

/-- `yielding` are the threads between the section of `wait` and its `YieldToHold`. The last two
fields only record: with each waiter that was released the place that its entry has among all
entries ever made for its scheduler. -/
structure System (S : Type) (n : S → ℕ) (F C : Type) where
  semaphore : FiberSemaphore (S × F)
  schedulers : ∀ σ, State (n σ) F C
  yielding : ∀ σ, Fin (n σ) → Bool
  history : History (S × F)
  entries : List ((S × F) × ℕ)

/-- `scheduler` is any step of a scheduler, its workers and its callers. -/
inductive Call (S : Type) (n : S → ℕ) (F C : Type) where
  | scheduler (σ : S) (l : Label (n σ) F C)
  | wait (σ : S) (i : Fin (n σ))
  | tryWait (σ : S) (i : Fin (n σ))
  | notify

namespace System

def construct (initialConcurrency : UInt64) : System S n F C where
  semaphore := .construct initialConcurrency
  schedulers _ := initial
  yielding _ _ := false
  history := .start
  entries := []

/-- The fiber whose code the thread executes. -/
def running (s : System S n F C) (σ : S) (i : Fin (n σ)) : Option F :=
  match ((s.schedulers σ).workers i).pc with
  | .inside _ f => if s.yielding σ i then none else some f
  | _ => none

variable [DecidableEq S]

/-- `Scheduler::schedule` of a waiter. -/
def schedule (s : System S n F C) (w : S × F) : System S n F C :=
  { s with
    schedulers := Function.update s.schedulers w.1
      ((s.schedulers w.1).scheduleNoLock (.ofTask (.fiber (some w.2)) (-1)))
    entries := s.entries ++ [(w, (s.schedulers w.1).scheduled.length)] }

end System

variable [DecidableEq S] [DecidableEq F]

/-- A step, with whether a permit was taken or handed over. Inside `wait`, a fiber that got no
permit can do nothing but yield. -/
def step (tid : ∀ σ, Fin (n σ) → ℤ) (s : System S n F C) :
    Call S n F C → Option (Bool × System S n F C)
  | .scheduler σ l =>
    if Yields (s.yielding σ) l then
      (SylarScheduler.step (tid σ) (s.schedulers σ) l).map fun o =>
        (false, { s with
          schedulers := Function.update s.schedulers σ o.2
          yielding := Function.update s.yielding σ (cleared (s.yielding σ) l) })
    else none
  | .wait σ i =>
    (s.running σ i).map fun f =>
      ((s.semaphore.wait (σ, f)).1, { s with
        semaphore := (s.semaphore.wait (σ, f)).2
        history := s.history.wait s.semaphore (σ, f)
        yielding := Function.update s.yielding σ
          (Function.update (s.yielding σ) i !(s.semaphore.wait (σ, f)).1) })
  | .tryWait σ i =>
    (s.running σ i).map fun _ =>
      (s.semaphore.tryWait.1, { s with
        semaphore := s.semaphore.tryWait.2
        history := s.history.tryWait s.semaphore })
  | .notify =>
    let t := { s with
      semaphore := s.semaphore.notify.2
      history := s.history.notify s.semaphore }
    match s.semaphore.notify.1 with
    | some w => some (true, t.schedule w)
    | none => some (false, t)

/-- An entry of the queue of a scheduler. -/
def entryOf (f : F) : FiberAndThread F C := ⟨some f, none, -1⟩

/-- Every waiter that was released has one entry of its own, which is in the queue or was taken
by a worker. No worker takes an entry as long as its fiber is in `EXEC`. -/
structure Handover (tid : ∀ σ, Fin (n σ) → ℤ) (s : System S n F C) : Prop where
  entries : s.entries.map Prod.fst = s.history.released
  own : (s.entries.map fun e => (e.1.1, e.2)).Nodup
  scheduled : ∀ e ∈ s.entries, (s.schedulers e.1.1).scheduled[e.2]? = some (entryOf e.1.2)
  kept : ∀ e ∈ s.entries, (e.2, entryOf e.1.2) ∈ (s.schedulers e.1.1).queue ++
    (s.schedulers e.1.1).taken.map Prod.snd
  once : ∀ σ, (((s.schedulers σ).queue ++
    (s.schedulers σ).taken.map Prod.snd).map Prod.fst).Nodup
  skipped : ∀ σ i x rest,
    scan (tid σ i) (s.schedulers σ).Executing (s.schedulers σ).queue = .ok (some (x, rest)) →
      ∀ f, x.2.fiber = some f → ¬ (s.schedulers σ).Executing f

section Records

variable {m : ℕ} {q t : State m F C}

omit [DecidableEq F] in
theorem scheduled_scheduleNoLock (q : State m F C) (ft : FiberAndThread F C) :
    q.scheduled <+: (q.scheduleNoLock ft).scheduled := by
  unfold State.scheduleNoLock
  split
  · exact List.prefix_append _ _
  · exact List.prefix_refl _

omit [DecidableEq F] in
theorem scheduled_scheduleAll (q : State m F C) (ts : List (Task F C)) :
    q.scheduled <+: (scheduleAll q ts).2.scheduled := by
  unfold scheduleAll
  dsimp only
  induction ts generalizing q with
  | nil => exact List.prefix_refl _
  | cons t ts ih => exact (scheduled_scheduleNoLock q _).trans (ih _)

/-- The record of what was scheduled only grows. -/
theorem scheduled_move {tid : Fin m → ℤ} {l : Label m F C} (h : Move tid q l t) :
    q.scheduled <+: t.scheduled := by
  cases h with
  | schedule => exact scheduled_scheduleNoLock q _
  | scheduleAll => exact scheduled_scheduleAll q _
  | putBack => exact scheduled_scheduleNoLock q _
  | _ => exact List.prefix_refl _

end Records

/-- What every step of the system keeps. -/
structure Keeps (tid : ∀ σ, Fin (n σ) → ℤ) (initialConcurrency : UInt64) (s : System S n F C) :
    Prop where
  conserves : Conserves initialConcurrency s.semaphore s.history
  delivery : ∀ σ, Delivery (tid σ) (s.schedulers σ)
  entries : s.entries.map Prod.fst = s.history.released
  own : (s.entries.map fun e => (e.1.1, e.2)).Nodup
  scheduled : ∀ e ∈ s.entries, (s.schedulers e.1.1).scheduled[e.2]? = some (entryOf e.1.2)

variable {tid : ∀ σ, Fin (n σ) → ℤ} {c : UInt64} {s t : System S n F C}

omit [DecidableEq S] [DecidableEq F] in
theorem keeps_construct : Keeps tid c (.construct c : System S n F C) :=
  ⟨conserves_construct, fun _ => delivery_initial, rfl, List.nodup_nil, by simp [System.construct]⟩

omit [DecidableEq F] in
/-- A scheduler whose record grows keeps the entries where they are. -/
theorem getElem?_update {q : ∀ σ, State (n σ) F C} {σ τ : S} {r : State (n σ) F C}
    {k : ℕ} {ft : FiberAndThread F C} (hr : (q σ).scheduled <+: r.scheduled)
    (h : (q τ).scheduled[k]? = some ft) :
    (Function.update q σ r τ).scheduled[k]? = some ft := by
  by_cases heq : τ = σ
  · subst heq
    rw [Function.update_self]
    obtain ⟨more, hmore⟩ := hr
    rw [← hmore, List.getElem?_append_left (List.getElem?_eq_some_iff.1 h).1]
    exact h
  · rw [Function.update_of_ne heq]
    exact h

omit [DecidableEq F] in
theorem Keeps.schedule (h : Keeps tid c s) {w : S × F} {sem : FiberSemaphore (S × F)}
    {past : History (S × F)} (hc : Conserves c sem past)
    (hreleased : past.released = s.history.released ++ [w]) :
    Keeps tid c ({ s with semaphore := sem, history := past }.schedule w) := by
  have hprefix := scheduled_scheduleNoLock (s.schedulers w.1) (entryOf w.2)
  refine ⟨hc, ?_, ?_, ?_, ?_⟩
  · apply (Function.forall_update_iff _ fun σ q => Delivery (tid σ) q).2
    exact ⟨(h.delivery _).scheduleNoLock _ _, fun σ _ => h.delivery σ⟩
  · simp only [System.schedule, List.map_append, h.entries, hreleased, List.map_cons, List.map_nil]
  · -- the new entry is behind all that its scheduler ever got
    simp only [System.schedule, List.map_append, List.map_cons, List.map_nil]
    rw [List.nodup_append]
    refine ⟨h.own, List.nodup_singleton _, ?_⟩
    rintro a ha b hb rfl
    rw [List.mem_singleton] at hb
    obtain ⟨e, he, heq⟩ := List.mem_map.1 ha
    rw [hb, Prod.mk.injEq] at heq
    have hlt := (List.getElem?_eq_some_iff.1 (h.scheduled e he)).1
    rw [heq.1, heq.2] at hlt
    exact absurd hlt (Nat.lt_irrefl _)
  · intro e he
    rcases List.mem_append.1 he with he | he
    · exact getElem?_update hprefix (h.scheduled e he)
    · rw [List.mem_singleton.1 he]
      simp only [System.schedule, Function.update_self]
      simp [State.scheduleNoLock, FiberAndThread.ofTask, FiberAndThread.NonNull, entryOf]

theorem Keeps.scheduler (h : Keeps tid c s) {σ : S} {l : Label (n σ) F C} {r : State (n σ) F C}
    {y : ∀ σ, Fin (n σ) → Bool} (hm : Move (tid σ) (s.schedulers σ) l r) :
    Keeps tid c { s with schedulers := Function.update s.schedulers σ r, yielding := y } := by
  refine ⟨h.conserves, ?_, h.entries, h.own, ?_⟩
  · apply (Function.forall_update_iff _ fun σ q => Delivery (tid σ) q).2
    exact ⟨delivery_move (h.delivery _) hm, fun τ _ => h.delivery τ⟩
  · intro e he
    exact getElem?_update (scheduled_move hm) (h.scheduled e he)

/-- The ways a step can go, each with its guard. -/
inductive Moves (tid : ∀ σ, Fin (n σ) → ℤ) (s : System S n F C) :
    Call S n F C → System S n F C → Prop where
  | scheduler {σ : S} {l : Label (n σ) F C} {r : State (n σ) F C}
      (allowed : Yields (s.yielding σ) l)
    (running : (s.schedulers σ).aborted = none) (move : Move (tid σ) (s.schedulers σ) l r) :
    Moves tid s (.scheduler σ l) { s with
      schedulers := Function.update s.schedulers σ r
      yielding := Function.update s.yielding σ (cleared (s.yielding σ) l) }
  | wait {σ : S} {i : Fin (n σ)} {f : F} (runs : s.running σ i = some f) :
    Moves tid s (.wait σ i) { s with
      semaphore := (s.semaphore.wait (σ, f)).2
      history := s.history.wait s.semaphore (σ, f)
      yielding := Function.update s.yielding σ
        (Function.update (s.yielding σ) i !(s.semaphore.wait (σ, f)).1) }
  | tryWait {σ : S} {i : Fin (n σ)} :
    Moves tid s (.tryWait σ i) { s with
      semaphore := s.semaphore.tryWait.2
      history := s.history.tryWait s.semaphore }
  | release {w : S × F} (waits : s.semaphore.notify.1 = some w) :
    Moves tid s .notify ({ s with
      semaphore := s.semaphore.notify.2
      history := s.history.notify s.semaphore }.schedule w)
  | count (nobody : s.semaphore.notify.1 = none) :
    Moves tid s .notify { s with
      semaphore := s.semaphore.notify.2
      history := s.history.notify s.semaphore }

theorem moves_of_step {e : Call S n F C} {o : Bool} (h : step tid s e = some (o, t)) :
    Moves tid s e t := by
  cases e with
  | scheduler σ l =>
    dsimp only [step] at h
    split at h
    · rename_i hallowed
      obtain ⟨⟨tasks, r⟩, hstep, heq⟩ := Option.map_eq_some_iff.1 h
      cases heq
      obtain ⟨hrunning, hm⟩ := move_of_step hstep
      exact .scheduler hallowed hrunning hm
    · cases h
  | wait σ i =>
    obtain ⟨f, hf, heq⟩ := Option.map_eq_some_iff.1 h
    cases heq
    exact .wait hf
  | tryWait σ i =>
    obtain ⟨f, -, heq⟩ := Option.map_eq_some_iff.1 h
    cases heq
    exact .tryWait
  | notify =>
    dsimp only [step] at h
    split at h
    · rename_i hw
      cases h
      exact .release hw
    · rename_i hw
      cases h
      exact .count hw

omit [DecidableEq S] [DecidableEq F] in
/-- Steps that neither schedule nor release anything. -/
theorem Keeps.same (h : Keeps tid c s) {sem : FiberSemaphore (S × F)} {past : History (S × F)}
    {y : ∀ σ, Fin (n σ) → Bool} (hc : Conserves c sem past)
    (hreleased : past.released = s.history.released) :
    Keeps tid c { s with semaphore := sem, history := past, yielding := y } :=
  ⟨hc, h.delivery, h.entries.trans hreleased.symm, h.own, h.scheduled⟩

theorem Keeps.move (h : Keeps tid c s) {e : Call S n F C} (hm : Moves tid s e t) :
    Keeps tid c t := by
  cases hm with
  | scheduler allowed running move => exact h.scheduler move
  | wait runs =>
    refine h.same (h.conserves.wait _) ?_
    unfold History.wait
    split <;> rfl
  | tryWait =>
    refine h.same (h.conserves.tryWait) ?_
    unfold History.tryWait
    split <;> rfl
  | release waits =>
    refine h.schedule h.conserves.notify ?_
    simp only [History.notify, waits]
  | count nobody =>
    refine h.same h.conserves.notify ?_
    simp only [History.notify, nobody]

omit [DecidableEq S] [DecidableEq F] in
theorem Keeps.handover (h : Keeps tid c s) : Handover tid s := by
  refine ⟨h.entries, h.own, h.scheduled, ?_, fun σ => (h.delivery σ).ledger.nodup, ?_⟩
  · intro e he
    exact List.mem_append.2 ((h.delivery _).ledger.queued_or_taken (h.scheduled e he))
  · intro σ i x rest hscan f hf hexec
    obtain ⟨pre, post, -, -, heligible, -⟩ := scan_some hscan
    exact heligible.2 ⟨f, hf, hexec⟩

/-- The waiters of one scheduler. -/
def waitingOn (σ : S) (ws : List (S × F)) : List F :=
  ws.filterMap fun w => if w.1 = σ then some w.2 else none

/-- Apart from the semaphore, `schedule` is called only with fibers that nobody has and that do
not wait. -/
def SparesParked (s : System S n F C) : Call S n F C → Prop
  | .scheduler σ l => SparesWaiting (s.schedulers σ) (waitingOn σ s.semaphore.waiters) l
  | _ => True

def AllSole (s : System S n F C) : Prop :=
  ∀ σ, Sole (s.schedulers σ) (waitingOn σ s.semaphore.waiters) (s.yielding σ)

omit [DecidableEq F] in
theorem waitingOn_append (σ : S) (ws : List (S × F)) (w : S × F) :
    waitingOn σ (ws ++ [w]) = waitingOn σ ws ++ if w.1 = σ then [w.2] else [] := by
  rw [waitingOn, waitingOn, List.filterMap_append]
  split <;> simp [*]

omit [DecidableEq F] in
theorem waitingOn_cons (σ : S) (w : S × F) (ws : List (S × F)) :
    waitingOn σ (w :: ws) = (if w.1 = σ then [w.2] else []) ++ waitingOn σ ws := by
  rw [waitingOn, waitingOn, List.filterMap_cons]
  split <;> simp_all

omit [DecidableEq S] [DecidableEq F] in
theorem running_some {σ : S} {i : Fin (n σ)} {f : F} (h : s.running σ i = some f) :
    s.yielding σ i = false ∧ ∃ job, ((s.schedulers σ).workers i).pc = .inside job f := by
  unfold System.running at h
  split at h
  · rename_i job g hpc
    split at h <;> cases h
    exact ⟨Bool.eq_false_iff.2 ‹¬_›, job, hpc⟩
  · cases h

theorem AllSole.move (h : AllSole s) {e : Call S n F C} (spares : SparesParked s e)
    (hm : Moves tid s e t) : AllSole t := by
  cases hm with
  | @scheduler σ l r allowed running move =>
    intro τ
    by_cases hτ : τ = σ
    · subst hτ
      simp only [Function.update_self]
      exact sole_move (h τ) spares allowed move
    · simp only [Function.update_of_ne hτ]
      exact h τ
  | @wait σ i f runs =>
    obtain ⟨hyield, job, hpc⟩ := running_some runs
    intro τ
    have hτ := h τ
    rcases s.semaphore.wait_cases (σ, f) with ⟨hpass, hwaiters⟩ | ⟨hpass, hwaiters⟩
    · have hsame : Function.update (s.yielding σ) i false = s.yielding σ := by
        rw [← hyield, Function.update_eq_self]
      simp only [hpass, hwaiters, Bool.not_true, hsame, Function.update_eq_self]
      exact hτ
    · simp only [hpass, hwaiters, Bool.not_false, waitingOn_append]
      by_cases hστ : σ = τ
      · subst hστ
        rw [if_pos rfl, Function.update_self]
        exact hτ.park hpc hyield
      · rw [if_neg hστ, List.append_nil, Function.update_of_ne (Ne.symm hστ)]
        exact hτ
  | tryWait =>
    intro τ
    simp only [FiberSemaphore.waiters_tryWait]
    exact h τ
  | @release w waits =>
    intro τ
    have hτ := h τ
    rw [FiberSemaphore.notify_some waits, waitingOn_cons] at hτ
    simp only [System.schedule]
    by_cases hwτ : w.1 = τ
    · subst hwτ
      rw [if_pos rfl, List.singleton_append] at hτ
      rw [Function.update_self]
      exact hτ.wake
    · rw [if_neg hwτ, List.nil_append] at hτ
      rw [Function.update_of_ne (Ne.symm hwτ)]
      exact hτ
  | count nobody =>
    intro τ
    simp only [FiberSemaphore.notify_none nobody]
    exact h τ

/-- No assertion of `swapIn` has failed. -/
def NoDoubleSwap (s : System S n F C) : Prop :=
  ∀ σ, (s.schedulers σ).aborted ≠ some .swapInExec

theorem NoDoubleSwap.move (h : NoDoubleSwap s) (hs : AllSole s) {e : Call S n F C}
    (hm : Moves tid s e t) : NoDoubleSwap t := by
  cases hm with
  | @scheduler σ l r allowed running move =>
    apply (Function.forall_update_iff _ fun σ (q : State (n σ) F C) =>
      q.aborted ≠ some .swapInExec).2
    exact ⟨aborted_move (hs σ).base running move, fun τ _ => h τ⟩
  | @release w waits =>
    obtain ⟨q, r, hframe⟩ :=
      (s.schedulers w.1).scheduleNoLock_frame (.ofTask (.fiber (some w.2)) (-1))
    apply (Function.forall_update_iff _ fun σ (q : State (n σ) F C) =>
      q.aborted ≠ some .swapInExec).2
    refine ⟨?_, fun τ _ => h τ⟩
    rw [hframe]
    exact h w.1
  | wait | tryWait | count => exact h

/-- No fiber is on two threads, and a worker switches to the fiber of every entry it has taken;
it has not found it in `EXEC`. -/
structure SwitchedOnce (s : System S n F C) : Prop where
  exclusive : ∀ σ, Exclusive (s.schedulers σ)
  enters : ∀ σ i ft f, ((s.schedulers σ).workers i).pc = .took ft → ft.fiber = some f →
    ¬ (s.schedulers σ).Executing f ∧ (s.schedulers σ).choose ft = .enter .fiber f

/-- In every run of the fibers, their schedulers and the callers of `notify`. -/
theorem permits_conserved (tid : ∀ σ, Fin (n σ) → ℤ) (initialConcurrency : UInt64)
    (calls : List (Call S n F C))
    (h : ∃ os, run (step tid) (.construct initialConcurrency) calls = some (os, s)) :
    Conserves initialConcurrency s.semaphore s.history ∧ Handover tid s ∧
    (Guarded SparesParked (step tid) (.construct initialConcurrency) calls → SwitchedOnce s) := by
  obtain ⟨os, hrun⟩ := h
  have hkeeps : Keeps tid initialConcurrency s :=
    run_invariant (fun _ _ _ _ hs _ he => hs.move (moves_of_step he)) keeps_construct
      (guarded_true _ _) hrun
  refine ⟨hkeeps.conserves, hkeeps.handover, fun hguarded => ?_⟩
  have hall : AllSole s ∧ NoDoubleSwap s := by
    refine run_invariant (P := fun s => AllSole s ∧ NoDoubleSwap s) ?_ ?_ hguarded hrun
    · intro s e o t hs hspares he
      have hm := moves_of_step he
      exact ⟨hs.1.move hspares hm, hs.2.move hs.1 hm⟩
    · exact ⟨fun _ => sole_initial, fun _ => by simp [System.construct, initial]⟩
  refine ⟨fun σ => ⟨fun i j f hij => (hall.1 σ).base.not_both hij, hall.2 σ⟩, ?_⟩
  intro σ i ft f hpc hf
  exact (hall.1 σ).enters hpc hf

/-- Two workers of one scheduler. -/
abbrev twoThreads (_ : Unit) (i : Fin 2) : ℤ := 3 + i.val

/-- The fiber `7` waits and is released before it yields. The other worker passes over its
entry, and takes it after the fiber has been put on hold. -/
def earlyRelease (first second : Fin 2) : List (Call Unit (fun _ => 2) ℕ ℕ) :=
  [.scheduler () (.create 7), .scheduler () (.schedule (.fiber (some 7)) (-1)),
    .scheduler () (.worker first), .scheduler () (.worker first), .scheduler () (.worker first),
    .wait () first, .notify, .scheduler () (.worker second), .scheduler () (.worker second),
    .scheduler () (.body first .yieldToHold), .scheduler () (.worker first),
    .scheduler () (.worker first), .scheduler () (.worker first), .scheduler () (.worker first),
    .scheduler () (.worker second)]

theorem sparesParked_earlyRelease :
    Guarded SparesParked (step twoThreads) (.construct 0) (earlyRelease 0 1) := by
  refine ⟨trivial, ?_⟩
  rintro o t ⟨⟩
  refine ⟨⟨List.not_mem_nil, ?_, by decide⟩, ?_⟩
  · rintro i (hi | hi) <;> cases hi
  iterate 13
    rintro o t ⟨⟩
    refine ⟨trivial, ?_⟩
  rintro o t ⟨⟩
  trivial

theorem permits_conserved_early_release : ∃ os s,
    run (step twoThreads) (.construct 0) (earlyRelease 0 1) = some (os, s) ∧
    s.entries = [(((), 7), 1)] ∧ ((s.schedulers ()).workers 1).pc = .took ⟨some 7, none, -1⟩ ∧
    Conserves 0 s.semaphore s.history ∧ Handover twoThreads s ∧ SwitchedOnce s := by
  obtain ⟨hconserves, hhandover, hswitched⟩ :=
    permits_conserved twoThreads 0 (earlyRelease 0 1) ⟨_, rfl⟩
  exact ⟨_, _, rfl, rfl, rfl, hconserves, hhandover, hswitched sparesParked_earlyRelease⟩

/-- A `notify` that finds the counter at its greatest value sets it to zero. -/
theorem permit_lost_by_overflow : ¬ ∀ (initialConcurrency : UInt64)
    (calls : List (Call Unit (fun _ => 2) ℕ ℕ)) os s,
    run (step twoThreads) (.construct initialConcurrency) calls = some (os, s) →
      initialConcurrency.toNat + s.history.notified =
        s.semaphore.concurrency.toNat + s.history.passed + s.history.released.length := by
  intro h
  have heq := h (-1) [.notify] _ _ rfl
  exact absurd heq (by decide)

end SemaphoreHandover
