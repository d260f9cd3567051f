import SylarNet.SchedulerExclusion

/-!
# The life cycle of a fiber

`run` decides from the state of a fiber alone whether it has ended, wants to run again or
waits. `MainFunc` sets that state when the entry function returns or throws a
`std::exception`, and leaves `EXEC` behind when it throws anything else.
-/
namespace FiberLifeCycle

open SylarScheduler SchedulerDelivery SchedulerExclusion

variable {F C : Type} {n : ℕ}

/-- The `cb_fiber` of a worker between two callbacks. -/
def Home (s : State n F C) (w : Worker F C) : Prop :=
  ∀ g, w.cbFiber = some g → (s.object g).state = .INIT

/-- A worker that runs a fiber of the queue leaves its own one alone. -/
def Apart (s : State n F C) (w : Worker F C) (job : Job C) (f : F) : Prop :=
  job = .fiber → Home s w ∧ w.cbFiber ≠ some f

/-- Neither a fiber that another worker has, nor the worker's own `cb_fiber`. -/
def TakesUnowned [DecidableEq F] (tid : Fin n → ℤ) (s : State n F C) : Label n F C → Prop
  | .worker i => (s.workers i).pc = .top → ∀ x rest,
      scan (tid i) s.Executing s.queue = .ok (some (x, rest)) →
        ∀ f, x.2.fiber = some f → ¬ HeldElsewhere s i f ∧ (s.workers i).cbFiber ≠ some f
  | _ => True

/-- What a worker knows about the state of its fiber. -/
def Knows (s : State n F C) (w : Worker F C) : Prop :=
  match w.pc with
  | .took ft => Home s w ∧ ∀ f, ft.fiber = some f → w.cbFiber ≠ some f
  | .enter job f => Apart s w job f
  | .inside job f => s.object f = ⟨.EXEC, .started⟩ ∧ Apart s w job f
  | .leaving job f | .left job f | .settle job f =>
    ((s.object f).state ≠ .INIT ∧ (s.object f).state ≠ .HOLD) ∧ Apart s w job f
  | .putBack job f => (s.object f).state = .READY ∧ Apart s w job f
  | .hold job f => (s.object f).state = .EXEC ∧ Apart s w job f
  | .recycle f => ¬ s.Runnable f
  | .top | .startCb _ | .drop | .idling | .ended => Home s w

/-- The property: an entry function that has finished leaves `TERM` or `EXCEPT` behind, its
fiber is neither put on hold nor back into the queue, a fiber that is not in the middle of
its entry function can be destroyed, and no assertion has failed. -/
structure LifeCycle (s : State n F C) : Prop where
  finished : ∀ f, (s.object f).entry = .finished →
    (s.object f).state = .TERM ∨ (s.object f).state = .EXCEPT
  settled : ∀ i job f, (s.workers i).pc = .hold job f ∨ (s.workers i).pc = .putBack job f →
    (s.object f).entry ≠ .finished
  destructible : ∀ f, (s.object f).entry ≠ .started → (s.object f).AtRest
  assertions : s.aborted = none

/-- No entry function throws anything but a `std::exception`. -/
def ThrowsOnlyStd : Label n F C → Prop
  | .body _ (.finish .throwsOther) => False
  | _ => True

structure Sound [DecidableEq F] (tid : Fin n → ℤ) (s : State n F C) : Prop where
  exclusive : Invariant s
  delivery : Delivery tid s
  knows : ∀ i, Knows s (s.workers i)

variable [DecidableEq F] {tid : Fin n → ℤ} {s t : State n F C}

theorem TakesUnowned.free {l : Label n F C} (h : TakesUnowned tid s l) : TakesFree tid s l := by
  cases l with
  | worker i =>
    intro at_pc x rest found f hf
    exact (h at_pc x rest found f hf).1
  | _ => trivial

theorem sound_initial : Sound tid (initial : State n F C) :=
  ⟨invariant_initial, delivery_initial, fun _ g hg => by cases hg⟩

omit [DecidableEq F] in
theorem Home.congr {w w' : Worker F C} (h : Home s w) (hcb : w'.cbFiber = w.cbFiber)
    (hobject : ∀ g, w.cbFiber = some g → t.object g = s.object g) : Home t w' := by
  intro g hg
  rw [hcb] at hg
  rw [hobject g hg]
  exact h g hg

omit [DecidableEq F] in
theorem Apart.congr {w w' : Worker F C} {job : Job C} {f : F} (h : Apart s w job f)
    (hcb : w'.cbFiber = w.cbFiber) (hobject : ∀ g, w.cbFiber = some g → g ≠ f →
      t.object g = s.object g) : Apart t w' job f := by
  intro hjob
  obtain ⟨hhome, hne⟩ := h hjob
  refine ⟨hhome.congr hcb fun g hg => hobject g hg ?_, by rw [hcb]; exact hne⟩
  rintro rfl
  exact hne hg

omit [DecidableEq F] in
theorem Apart.release {w : Worker F C} {job : Job C} {f : F} (h : Apart s w job f)
    (hobject : ∀ g, w.cbFiber = some g → g ≠ f → t.object g = s.object g) :
    Knows t { w.release job with pc := .top } := by
  cases job with
  | fiber => exact ((h.congr rfl hobject : Apart t w .fiber f) rfl).1
  | cb c =>
    intro g hg
    cases hg

omit [DecidableEq F] in
theorem Knows.congr {w : Worker F C} (h : Knows s w)
    (hobject : ∀ f, Has w f → t.object f = s.object f) : Knows t w := by
  have hcb : ∀ g, w.cbFiber = some g → t.object g = s.object g := fun g hg => hobject g (.inr hg)
  have hpc : ∀ f, inHand w.pc = some f → t.object f = s.object f := fun f hf => hobject f (.inl hf)
  have hapart : ∀ {job f}, Apart s w job f → Apart t w job f :=
    fun h => h.congr rfl fun g hg _ => hcb g hg
  unfold Knows at h ⊢
  cases heq : w.pc with
  | took ft =>
    rw [heq] at h
    exact ⟨h.1.congr rfl hcb, h.2⟩
  | enter job f =>
    rw [heq] at h
    exact hapart h
  | inside job f | leaving job f | left job f | settle job f | putBack job f | hold job f =>
    rw [heq] at h hpc
    dsimp only at h ⊢
    rw [hpc f rfl]
    exact ⟨h.1, hapart h.2⟩
  | recycle f =>
    rw [heq] at h hpc
    dsimp only at h ⊢
    rw [State.Runnable, hpc f rfl]
    exact h
  | top | startCb | drop | idling | ended =>
    rw [heq] at h
    exact h.congr rfl hcb

/-- The object of another fiber after a change. -/
theorem setFiber_object_ne {f g : F} (o : Fiber) (h : g ≠ f) :
    (s.setFiber f o).object g = s.object g :=
  Function.update_of_ne h _ _

theorem setFiber_object_self (f : F) (o : Fiber) : (s.setFiber f o).object f = o :=
  Function.update_self _ _ _

/-- A fiber that its own code has left is neither new nor on hold. -/
theorem act_state {o f : Fiber} {act : Act} (h : act.apply f = .ok o) (hf : f.state = .EXEC) :
    o.state ≠ .INIT ∧ o.state ≠ .HOLD := by
  cases act with
  | yieldToReady =>
    simp only [Act.apply, Fiber.yieldToReady, hf, if_true, Except.ok.injEq] at h
    simp [← h]
  | yieldToHold =>
    simp only [Act.apply, Fiber.yieldToHold, hf, if_true, Except.ok.injEq] at h
    simp [← h, hf]
  | finish out => cases out <;> cases h <;> simp [Fiber.mainFunc, hf]

omit [DecidableEq F] in
theorem Knows.settle {i : Fin n} {job : Job C} {f : F} (h : Knows s (s.workers i))
    (at_pc : (s.workers i).pc = .settle job f) :
    Knows (s.goto i (s.settle job f)) ((s.goto i (s.settle job f)).workers i) := by
  rw [Knows, at_pc] at h
  rw [State.goto_self]
  rcases s.settle_cases job f with ⟨hready, hset⟩ | ⟨hend, ⟨hjob, hset⟩ | ⟨-, hset⟩⟩ |
    ⟨hready, hrun, hset⟩
  · rw [hset]
    exact ⟨hready, h.2⟩
  · rw [hset]
    exact (h.2 hjob).1
  · rw [hset]
    exact hend
  · rw [hset]
    refine ⟨?_, h.2⟩
    obtain ⟨hinit, hhold⟩ := h.1
    obtain ⟨hterm, hexcept⟩ := hrun
    change (s.object f).state = .EXEC
    cases hstate : (s.object f).state <;> simp_all

/-- What the worker that makes the step knows after it. -/
theorem knows_actor {l : Label n F C} (h : Sound tid s) (unowned : TakesUnowned tid s l)
    (hm : Move tid s l t) {i : Fin n} (hi : l.actor = some i) : Knows t (t.workers i) := by
  have hk := h.knows i
  cases hm with
  | create | schedule | scheduleAll | start | autoStop | stop => cases hi
  | null | reuseFails | swapInFails | actFails | recycleFails => exact hk
  | @take j x rest at_pc found =>
    cases hi
    rw [Knows, at_pc] at hk
    rw [State.goto_self]
    exact ⟨hk, fun f hf => (unowned at_pc x rest found f hf).2⟩
  | rest at_pc =>
    cases hi
    rw [Knows, at_pc] at hk
    rw [State.goto_self]
    cases (s.workers i).idleTerm <;> exact hk
  | @choose j ft at_pc =>
    cases hi
    rw [Knows, at_pc] at hk
    rw [State.goto_self]
    rcases s.choose_cases ft with ⟨f, hft, -, hchoose⟩ | ⟨c, -, hchoose⟩ | hchoose
    · rw [hchoose]
      exact fun _ => ⟨hk.1, hk.2 f hft⟩
    · rw [hchoose]
      exact hk.1
    · rw [hchoose]
      exact hk.1
  | reuse => cases hi; rw [State.goto_self]; exact fun hjob => by cases hjob
  | allocate => cases hi; rw [State.setWorker_self]; exact fun hjob => by cases hjob
  | @swapIn j job f o at_pc ok =>
    cases hi
    rw [Knows, at_pc] at hk
    rw [(Fiber.swapIn_ok ok).2.2, State.goto_self]
    exact ⟨setFiber_object_self f _, hk.congr rfl fun g _ hg => setFiber_object_ne _ hg⟩
  | @act j job f o act at_pc ok =>
    cases hi
    rw [Knows, at_pc] at hk
    rw [State.goto_self]
    refine ⟨?_, hk.2.congr rfl fun g _ hg => setFiber_object_ne _ hg⟩
    change ((s.setFiber f o).object f).state ≠ .INIT ∧ ((s.setFiber f o).object f).state ≠ .HOLD
    rw [setFiber_object_self]
    exact act_state ok (by rw [hk.1])
  | swapOut at_pc | uncount at_pc =>
    cases hi
    rw [Knows, at_pc] at hk
    rw [State.goto_self]
    exact hk
  | settle at_pc => cases hi; exact hk.settle at_pc
  | @putBack j job f at_pc =>
    cases hi
    rw [Knows, at_pc] at hk
    obtain ⟨q, r, hq⟩ := s.scheduleNoLock_frame (.ofTask (.fiber (some f)) (-1))
    rw [State.setWorker_self]
    exact hk.2.release fun g _ _ => by rw [hq]; rfl
  | @hold j job f at_pc =>
    cases hi
    rw [Knows, at_pc] at hk
    rw [State.setWorker_self]
    exact hk.2.release fun g _ hg => setFiber_object_ne _ hg
  | @recycle j f o at_pc ok =>
    cases hi
    have hown := h.exclusive.pcs i
    rw [PcOk, at_pc] at hown
    rw [State.goto_self]
    intro g hg
    cases hown.symm.trans hg
    rw [(Fiber.reset_ok ok).2]
    change ((s.setFiber f .construct).object f).state = .INIT
    rw [setFiber_object_self]
    rfl
  | drop at_pc =>
    cases hi
    rw [Knows, at_pc] at hk
    rw [State.goto_self]
    exact hk
  | idle at_pc =>
    cases hi
    rw [Knows, at_pc] at hk
    rw [State.setWorker_self]
    exact hk

theorem sound_move {l : Label n F C} (h : Sound tid s) (unowned : TakesUnowned tid s l)
    (hm : Move tid s l t) : Sound tid t := by
  refine ⟨invariant_move h.exclusive unowned.free hm, delivery_move h.delivery hm, ?_⟩
  intro i
  by_cases hi : l.actor = some i
  · exact knows_actor h unowned hm hi
  · rw [hm.frame hi]
    exact (h.knows i).congr fun f hf => h.exclusive.object_frame hm hi hf

/-- The part of the property that is about one fiber. -/
def Tidy (o : Fiber) : Prop :=
  (o.entry = .finished → o.state = .TERM ∨ o.state = .EXCEPT) ∧ (o.entry ≠ .started → o.AtRest)

theorem tidy_construct : Tidy .construct := by
  simp [Tidy, Fiber.construct, Fiber.AtRest]

theorem tidy_of_started {o : Fiber} (h : o.entry = .started) : Tidy o := by
  simp [Tidy, h]

/-- A tidy fiber in `EXEC` is in the middle of its entry function. -/
theorem Tidy.started {o : Fiber} (h : Tidy o) (hexec : o.state = .EXEC) : o.entry = .started := by
  by_contra hne
  have := h.2 hne
  simp [Fiber.AtRest, hexec] at this

theorem tidy_act {f o : Fiber} {act : Act} (h : act.apply f = .ok o) (hf : f = ⟨.EXEC, .started⟩)
    (hstd : act ≠ .finish .throwsOther) : Tidy o := by
  subst hf
  cases act with
  | yieldToReady => cases h; exact tidy_of_started rfl
  | yieldToHold => cases h; exact tidy_of_started rfl
  | finish out =>
    cases out with
    | returns => cases h; simp [Tidy, Fiber.mainFunc, Fiber.AtRest]
    | throwsStdException => cases h; simp [Tidy, Fiber.mainFunc, Fiber.AtRest]
    | throwsOther => exact absurd rfl hstd

theorem tidy_setFiber (h : ∀ f, Tidy (s.object f)) {g : F} {o : Fiber} (ho : Tidy o) (f : F) :
    Tidy ((s.setFiber g o).object f) := by
  by_cases hfg : f = g
  · rw [hfg, setFiber_object_self]
    exact ho
  · rw [setFiber_object_ne o hfg]
    exact h f

theorem tidy_move {l : Label n F C} (h : Sound tid s) (ht : ∀ f, Tidy (s.object f))
    (hstd : ThrowsOnlyStd l) (hm : Move tid s l t) (f : F) : Tidy (t.object f) := by
  cases hm with
  | schedule =>
    obtain ⟨q, r, hq⟩ := s.scheduleNoLock_frame (.ofTask _ _)
    rw [hq]
    exact ht f
  | scheduleAll =>
    obtain ⟨q, r, hq⟩ := scheduleAll_frame s _
    rw [hq]
    exact ht f
  | @putBack i job g =>
    obtain ⟨q, r, hq⟩ := s.scheduleNoLock_frame (.ofTask (.fiber (some g)) (-1))
    rw [hq]
    exact ht f
  | create | allocate => exact tidy_setFiber ht tidy_construct f
  | reuse at_pc own ok | recycle at_pc ok =>
    rw [(Fiber.reset_ok ok).2]
    exact tidy_setFiber ht tidy_construct f
  | swapIn at_pc ok =>
    rw [(Fiber.swapIn_ok ok).2.2]
    exact tidy_setFiber ht (tidy_of_started rfl) f
  | @act i job g o act at_pc ok =>
    have hk := h.knows i
    rw [Knows, at_pc] at hk
    refine tidy_setFiber ht (tidy_act ok hk.1 ?_) f
    rintro rfl
    exact hstd
  | @hold i job g at_pc =>
    have hk := h.knows i
    rw [Knows, at_pc] at hk
    have hstarted : ({ s.object g with state := .HOLD } : Fiber).entry = .started :=
      (ht g).started hk.1
    exact tidy_setFiber ht (tidy_of_started hstarted) f
  | _ => exact ht f

/-- None of the assertions fails: each is about a fiber whose state the worker knows. -/
theorem aborted_none {l : Label n F C} (h : Sound tid s) (ht : ∀ f, Tidy (s.object f))
    (hs : s.aborted = none) (hm : Move tid s l t) : t.aborted = none := by
  cases hm with
  | schedule =>
    obtain ⟨q, r, hq⟩ := s.scheduleNoLock_frame (.ofTask _ _)
    rwa [hq]
  | scheduleAll =>
    obtain ⟨q, r, hq⟩ := scheduleAll_frame s _
    rwa [hq]
  | @putBack i job g =>
    obtain ⟨q, r, hq⟩ := s.scheduleNoLock_frame (.ofTask (.fiber (some g)) (-1))
    rw [hq]
    exact hs
  | null at_pc found =>
    obtain ⟨-, y, hy, hnull⟩ := scan_error found
    exact absurd (h.delivery.single_of_mem (List.mem_append_left _ hy)).1 hnull
  | @reuseFails i c f a at_pc own fails =>
    have hk := h.knows i
    rw [Knows, at_pc] at hk
    have hrest : (s.object f).AtRest := .inr (.inr (hk f own))
    simp [Fiber.reset, hrest] at fails
  | @recycleFails i f a at_pc fails =>
    have hk := h.knows i
    rw [Knows, at_pc] at hk
    have hrest : (s.object f).AtRest := by
      unfold State.Runnable at hk
      unfold Fiber.AtRest
      tauto
    simp [Fiber.reset, hrest] at fails
  | @swapInFails i job f a at_pc fails =>
    have hpc := h.exclusive.pcs i
    rw [PcOk, at_pc] at hpc
    rcases Fiber.swapIn_error fails with ⟨hexec, -⟩ | ⟨hfin, -⟩
    · exact absurd hexec hpc.2.1
    · rcases (ht f).1 hfin with hend | hend
      · exact absurd hend hpc.1.1
      · exact absurd hend hpc.1.2
  | @actFails i job f a act at_pc fails =>
    have hk := h.knows i
    rw [Knows, at_pc] at hk
    exact absurd (by rw [hk.1]) (Act.apply_error fails).1
  | _ => exact hs

theorem lifeCycle_of_tidy (h : Sound tid s) (ht : ∀ f, Tidy (s.object f))
    (hs : s.aborted = none) : LifeCycle s := by
  refine ⟨fun f => (ht f).1, ?_, fun f => (ht f).2, hs⟩
  intro i job f hpc hfin
  have hk := h.knows i
  have hend := (ht f).1 hfin
  rcases hpc with hpc | hpc
  · rw [Knows, hpc] at hk
    simp [hk.1] at hend
  · rw [Knows, hpc] at hk
    simp [hk.1] at hend

omit [DecidableEq F] in
theorem LifeCycle.tidy (h : LifeCycle s) (f : F) : Tidy (s.object f) :=
  ⟨h.finished f, h.destructible f⟩

/-- A step keeps the property exactly when it is not the end of an entry function by an
exception that is not a `std::exception`. -/
theorem lifeCycle_move {l : Label n F C} (h : Sound tid s) (unowned : TakesUnowned tid s l)
    (hl : LifeCycle s) (hm : Move tid s l t) : LifeCycle t ↔ ThrowsOnlyStd l := by
  constructor
  · intro ht
    cases hm with
    | @act i job f o act at_pc ok =>
      cases act with
      | finish out =>
        cases out with
        | throwsOther =>
          have hk := h.knows i
          rw [Knows, at_pc] at hk
          cases ok
          have hfin := ht.finished f
          change ((s.setFiber f _).object f).entry = .finished →
            ((s.setFiber f _).object f).state = .TERM ∨
              ((s.setFiber f _).object f).state = .EXCEPT at hfin
          rw [setFiber_object_self, hk.1] at hfin
          simp [Fiber.mainFunc] at hfin
        | returns => trivial
        | throwsStdException => trivial
      | yieldToReady => trivial
      | yieldToHold => trivial
    | @actFails i job f a act at_pc fails =>
      cases act with
      | finish out => cases fails
      | yieldToReady => trivial
      | yieldToHold => trivial
    | _ => trivial
  · intro hstd
    exact lifeCycle_of_tidy (sound_move h unowned hm) (tidy_move h hl.tidy hstd hm)
      (aborted_none h hl.tidy hl.assertions hm)

/-- In every run in which no worker takes a fiber that a worker still has, the life cycle is
kept throughout exactly when no entry function throws anything but a `std::exception`. -/
theorem lifeCycle_iff {ls : List (Label n F C)} {os : List (List (Task F C))} {u : State n F C}
    (unowned : StepRuns.Guarded (TakesUnowned tid) (step tid) initial ls)
    (h : StepRuns.run (step tid) initial ls = some (os, u)) :
    (∀ k os s, StepRuns.run (step tid) initial (ls.take k) = some (os, s) → LifeCycle s) ↔
      ∀ i, .body i (.finish .throwsOther) ∉ ls := by
  have hiff : (∀ l ∈ ls, ThrowsOnlyStd l) ↔ ∀ i, .body i (.finish .throwsOther) ∉ ls := by
    constructor
    · intro hall i hi
      exact hall _ hi
    · intro hnone l hl
      unfold ThrowsOnlyStd
      split
      · exact hnone _ hl
      · trivial
  rw [← hiff, ← StepRuns.guarded_iff_forall h]
  refine StepRuns.forall_prefix_iff_guarded (I := Sound tid) ?_ ?_ sound_initial ?_
    (StepRuns.guarded_and unowned (StepRuns.guarded_of_run h))
  · rintro s l hs ⟨hun, hok⟩
    obtain ⟨⟨o, t⟩, hstep⟩ := Option.isSome_iff_exists.1 hok
    exact ⟨o, t, hstep, sound_move hs hun (move_of_step hstep).2⟩
  · rintro s l o t hs hl ⟨hun, -⟩ hstep
    exact lifeCycle_move hs hun hl (move_of_step hstep).2
  · exact lifeCycle_of_tidy (sound_initial : Sound tid _) (fun _ => tidy_construct) rfl

/-- A fiber whose entry function throws a `std::exception`. -/
def throwing : List (Label 3 ℕ ℕ) :=
  [.create 7, .schedule (.fiber (some 7)) (-1), .worker 0, .worker 0, .worker 0,
    .body 0 (.finish .throwsStdException)]

theorem takesUnowned_throwing :
    StepRuns.Guarded (TakesUnowned fun _ => 3) (step fun _ => 3) initial throwing := by
  refine ⟨trivial, ?_⟩
  rintro o t ⟨⟩
  refine ⟨trivial, ?_⟩
  rintro o t ⟨⟩
  constructor
  · intro _ x rest _ f _
    refine ⟨?_, fun hcb => by cases hcb⟩
    rintro ⟨j, -, hj | ⟨-, hj⟩⟩ <;> cases hj
  rintro o t ⟨⟩
  refine ⟨fun hpc => (by cases hpc), ?_⟩
  rintro o t ⟨⟩
  refine ⟨fun hpc => (by cases hpc), ?_⟩
  rintro o t ⟨⟩
  refine ⟨trivial, ?_⟩
  rintro o t ⟨⟩
  trivial

theorem lifeCycle_throwing :
    ∃ os s, StepRuns.run (step fun _ => 3) initial throwing = some (os, s) ∧
      s.object 7 = ⟨.EXCEPT, .finished⟩ ∧ LifeCycle s :=
  ⟨_, _, rfl, rfl, (lifeCycle_iff takesUnowned_throwing rfl).2 (by decide) 6 _ _ rfl⟩

/-- An entry function that throws an `int`: its fiber is put on hold, and scheduled again it
runs past the end of `MainFunc`. -/
theorem lifeCycle_throwsOther :
    ¬ ∀ (ls : List (Label 1 ℕ ℕ)) os s,
      StepRuns.run (step fun _ => 3) initial ls = some (os, s) → LifeCycle s := by
  intro h
  have hhold := h [.create 7, .schedule (.fiber (some 7)) (-1), .worker 0, .worker 0, .worker 0,
    .body 0 (.finish .throwsOther), .worker 0, .worker 0, .worker 0, .worker 0,
    .schedule (.fiber (some 7)) (-1), .worker 0, .worker 0, .worker 0] _ _ rfl
  have habort : some Assertion.neverReach = none := hhold.assertions
  cases habort

end FiberLifeCycle
