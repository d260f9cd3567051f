import Mathlib.Data.Int.Notation
import Mathlib.Logic.Function.Basic
import SylarNet.StepRuns

/-!
# Fibers and the scheduler's worker loop

`n` threads execute `Scheduler::run`; every section under `m_mutex`, every access to a
fiber's state and every change of `m_activeThreadCount` is one step, and the steps of the
threads interleave. What a task does between two switches is left to the environment, and
so is every other caller of `schedule`. `tickle` and `m_idleThreadCount` wake sleeping
threads and are left out: a worker may always look at the queue again.
-/
namespace SylarScheduler

inductive FiberState where
  | INIT | HOLD | EXEC | TERM | READY | EXCEPT
  deriving DecidableEq, Repr

/-- How far the entry function of a fiber has come: the part of `m_ctx` that matters. -/
inductive Entry where
  | notStarted | started | finished
  deriving DecidableEq, Repr

/-- The assertions of `fiber.cc` and `scheduler.cc` that a run can meet. -/
inductive Assertion where
  | fiberOrCb
  | swapInExec
  | resetState
  | yieldExec
  | neverReach
  deriving DecidableEq, Repr

/-- How an entry function ends. -/
inductive Outcome where
  | returns
  | throwsStdException
  | throwsOther
  deriving DecidableEq, Repr

structure Fiber where
  state : FiberState
  entry : Entry
  deriving DecidableEq, Repr

namespace Fiber

def construct : Fiber := ⟨.INIT, .notStarted⟩

/-- The states in which a fiber may be reset or destroyed. -/
def AtRest (f : Fiber) : Prop := f.state = .TERM ∨ f.state = .EXCEPT ∨ f.state = .INIT

instance (f : Fiber) : Decidable f.AtRest := inferInstanceAs (Decidable (_ ∨ _ ∨ _))

def reset (f : Fiber) : Except Assertion Fiber :=
  if f.AtRest then .ok ⟨.INIT, .notStarted⟩ else .error .resetState

theorem reset_ok {f o : Fiber} (h : f.reset = .ok o) : f.AtRest ∧ o = construct := by
  unfold reset at h
  split at h
  · rename_i hrest
    cases h
    exact ⟨hrest, rfl⟩
  · cases h

theorem reset_error {f : Fiber} {a : Assertion} (h : f.reset = .error a) : a = .resetState := by
  unfold reset at h
  split at h <;> cases h
  rfl

/-- A finished context continues behind its last `swapOut`. -/
def swapIn (f : Fiber) : Except Assertion Fiber :=
  if f.state = .EXEC then .error .swapInExec
  else if f.entry = .finished then .error .neverReach
  else .ok ⟨.EXEC, .started⟩

theorem swapIn_ok {f o : Fiber} (h : f.swapIn = .ok o) :
    f.state ≠ .EXEC ∧ f.entry ≠ .finished ∧ o = ⟨.EXEC, .started⟩ := by
  unfold swapIn at h
  split at h
  · cases h
  · rename_i hexec
    split at h
    · cases h
    · rename_i hentry
      cases h
      exact ⟨hexec, hentry, rfl⟩

theorem swapIn_error {f : Fiber} {a : Assertion} (h : f.swapIn = .error a) :
    f.state = .EXEC ∧ a = .swapInExec ∨ f.entry = .finished ∧ a = .neverReach := by
  unfold swapIn at h
  split at h
  · rename_i hexec
    cases h
    exact .inl ⟨hexec, rfl⟩
  · split at h <;> cases h
    exact .inr ⟨by assumption, rfl⟩

def yieldToReady (f : Fiber) : Except Assertion Fiber :=
  if f.state = .EXEC then .ok { f with state := .READY } else .error .yieldExec

/-- The state is left to the scheduler. -/
def yieldToHold (f : Fiber) : Except Assertion Fiber :=
  if f.state = .EXEC then .ok f else .error .yieldExec

/-- `MainFunc` after the entry function; `catch (...)` only writes a log line. -/
def mainFunc (f : Fiber) : Outcome → Fiber
  | .returns => ⟨.TERM, .finished⟩
  | .throwsStdException => ⟨.EXCEPT, .finished⟩
  | .throwsOther => { f with entry := .finished }

end Fiber

/-- What the code that a fiber executes does next with the fiber. -/
inductive Act where
  | yieldToReady
  | yieldToHold
  | finish (o : Outcome)
  deriving DecidableEq, Repr

def Act.apply (f : Fiber) : Act → Except Assertion Fiber
  | .yieldToReady => f.yieldToReady
  | .yieldToHold => f.yieldToHold
  | .finish o => .ok (f.mainFunc o)

theorem Act.apply_error {f : Fiber} {act : Act} {a : Assertion} (h : act.apply f = .error a) :
    f.state ≠ .EXEC ∧ a = .yieldExec := by
  cases act with
  | yieldToReady =>
    dsimp only [Act.apply, Fiber.yieldToReady] at h
    split at h <;> cases h
    exact ⟨by assumption, rfl⟩
  | yieldToHold =>
    dsimp only [Act.apply, Fiber.yieldToHold] at h
    split at h <;> cases h
    exact ⟨by assumption, rfl⟩
  | finish o => cases h

/-- The argument of `schedule`, a fiber pointer or a function; both may be null. -/
inductive Task (F C : Type) where
  | fiber (f : Option F)
  | cb (c : Option C)
  deriving DecidableEq, Repr

structure FiberAndThread (F C : Type) where
  fiber : Option F
  cb : Option C
  thread : ℤ
  deriving DecidableEq, Repr

variable {F C : Type}

namespace FiberAndThread

def ofTask : Task F C → ℤ → FiberAndThread F C
  | .fiber f, thr => ⟨f, none, thr⟩
  | .cb c, thr => ⟨none, c, thr⟩

/-- The constructors that take a pointer swap the caller's value with a null one. -/
def ofPointer : Task F C → ℤ → FiberAndThread F C × Task F C
  | .fiber f, thr => (⟨f, none, thr⟩, .fiber none)
  | .cb c, thr => (⟨none, c, thr⟩, .cb none)

def NonNull (ft : FiberAndThread F C) : Prop := ft.fiber.isSome ∨ ft.cb.isSome

instance (ft : FiberAndThread F C) : Decidable ft.NonNull :=
  inferInstanceAs (Decidable (_ ∨ _))

/-- The first test of the scan. -/
def ForThread (ft : FiberAndThread F C) (thread : ℤ) : Prop :=
  ft.thread = -1 ∨ ft.thread = thread

instance (ft : FiberAndThread F C) (thread : ℤ) : Decidable (ft.ForThread thread) :=
  inferInstanceAs (Decidable (_ ∨ _))

end FiberAndThread

/-- A worker runs a fiber of the queue, or a callback in its own `cb_fiber`. -/
inductive Job (C : Type) where
  | fiber
  | cb (c : C)
  deriving DecidableEq, Repr

/-- The record of entering a job. -/
def Job.begins {ι : Type} (i : ι) : Job C → List (ι × C)
  | .fiber => []
  | .cb c => [(i, c)]

/-- Where a worker stands in the loop of `run`. -/
inductive Pc (F C : Type) where
  | top
  | took (ft : FiberAndThread F C)
  | startCb (c : C)
  | enter (job : Job C) (f : F)
  | inside (job : Job C) (f : F)
  | leaving (job : Job C) (f : F)
  | left (job : Job C) (f : F)
  | settle (job : Job C) (f : F)
  | putBack (job : Job C) (f : F)
  | hold (job : Job C) (f : F)
  | recycle (f : F)
  | drop
  | idling
  | ended
  deriving DecidableEq, Repr

structure Worker (F C : Type) where
  cbFiber : Option F
  idleTerm : Bool
  pc : Pc F C
  deriving DecidableEq, Repr

/-- `cb_fiber.reset()` on the pointer, where the loop gives its own fiber away. -/
def Worker.release (w : Worker F C) : Job C → Worker F C
  | .fiber => w
  | .cb _ => { w with cbFiber := none }

/-- A queue entry with the number of its `schedule`. -/
abbrev Ticket (F C : Type) := ℕ × FiberAndThread F C

/-- `queue` is `m_fibers`. The tickets and the last three fields only record what happened:
every entry ever put into the queue, who took which, and which callbacks were entered. -/
structure State (n : ℕ) (F C : Type) where
  object : F → Fiber
  made : List F
  workers : Fin n → Worker F C
  queue : List (Ticket F C)
  activeThreadCount : ℕ
  stopping : Bool
  autoStop : Bool
  aborted : Option Assertion
  scheduled : List (FiberAndThread F C)
  taken : List (Fin n × Ticket F C)
  begun : List (Fin n × C)

inductive Label (n : ℕ) (F C : Type) where
  | create (f : F)
  | schedule (t : Task F C) (thread : ℤ)
  | scheduleAll (ts : List (Task F C))
  | worker (i : Fin n)
  | allocate (i : Fin n) (f : F)
  | body (i : Fin n) (act : Act)
  | start
  | autoStop
  | stop
  deriving DecidableEq, Repr

/-- The scan under the lock: the entry taken, with what stays in the queue. -/
def scan (thread : ℤ) (executing : F → Prop) [DecidablePred executing] :
    List (Ticket F C) → Except Assertion (Option (Ticket F C × List (Ticket F C)))
  | [] => .ok none
  | x :: xs =>
    if ¬ x.2.ForThread thread then
      (scan thread executing xs).map fun r => r.map fun p => (p.1, x :: p.2)
    else if ¬ x.2.NonNull then .error .fiberOrCb
    else if ∃ f ∈ x.2.fiber, executing f then
      (scan thread executing xs).map fun r => r.map fun p => (p.1, x :: p.2)
    else .ok (some (x, xs))

def initial : State n F C where
  object _ := Fiber.construct
  made := []
  workers _ := ⟨none, false, .top⟩
  queue := []
  activeThreadCount := 0
  stopping := true
  autoStop := false
  aborted := none
  scheduled := []
  taken := []
  begun := []

namespace State

variable {n : ℕ}

def setWorker (s : State n F C) (i : Fin n) (w : Worker F C) : State n F C :=
  { s with workers := Function.update s.workers i w }

def goto (s : State n F C) (i : Fin n) (pc : Pc F C) : State n F C :=
  s.setWorker i { s.workers i with pc := pc }

section Workers

variable (s : State n F C) (i : Fin n)

@[simp] theorem setWorker_self (w : Worker F C) : (s.setWorker i w).workers i = w := by
  simp [setWorker]

@[simp] theorem setWorker_of_ne (w : Worker F C) {j : Fin n} (h : j ≠ i) :
    (s.setWorker i w).workers j = s.workers j := by
  simp [setWorker, h]

@[simp] theorem goto_self (pc : Pc F C) :
    (s.goto i pc).workers i = { s.workers i with pc := pc } := by
  simp [goto]

@[simp] theorem goto_of_ne (pc : Pc F C) {j : Fin n} (h : j ≠ i) :
    (s.goto i pc).workers j = s.workers j := by
  simp [goto, h]

end Workers

def abort (s : State n F C) (a : Assertion) : State n F C := { s with aborted := some a }

def Executing (s : State n F C) (f : F) : Prop := (s.object f).state = .EXEC

instance (s : State n F C) : DecidablePred s.Executing :=
  fun _ => inferInstanceAs (Decidable (_ = _))

def scheduleNoLock (s : State n F C) (ft : FiberAndThread F C) : State n F C :=
  if ft.NonNull then
    { s with queue := s.queue ++ [(s.scheduled.length, ft)], scheduled := s.scheduled ++ [ft] }
  else s

/-- Scheduling changes only the queue and the record of it. -/
theorem scheduleNoLock_frame (s : State n F C) (ft : FiberAndThread F C) :
    ∃ q r, s.scheduleNoLock ft = { s with queue := q, scheduled := r } := by
  unfold scheduleNoLock
  split
  · exact ⟨_, _, rfl⟩
  · exact ⟨s.queue, s.scheduled, rfl⟩

/-- `Scheduler::stopping`, under the lock. -/
def isStopping (s : State n F C) : Bool :=
  s.autoStop && s.stopping && s.queue.isEmpty && s.activeThreadCount == 0

/-- A fiber pointer that the caller of `schedule` can have. -/
def Known (s : State n F C) : Task F C → Prop
  | .fiber (some f) => f ∈ s.made
  | .fiber none | .cb _ => True

/-- Neither `TERM` nor `EXCEPT`: the scheduler switches to the fiber. -/
def Runnable (s : State n F C) (f : F) : Prop :=
  (s.object f).state ≠ .TERM ∧ (s.object f).state ≠ .EXCEPT

instance (s : State n F C) (f : F) : Decidable (s.Runnable f) :=
  inferInstanceAs (Decidable (_ ∧ _))

/-- Where the loop goes with the entry it has taken. -/
def choose (s : State n F C) (ft : FiberAndThread F C) : Pc F C :=
  match ft.fiber, ft.cb with
  | some f, some c => if s.Runnable f then .enter .fiber f else .startCb c
  | some f, none => if s.Runnable f then .enter .fiber f else .drop
  | none, some c => .startCb c
  | none, none => .drop

theorem choose_cases (s : State n F C) (ft : FiberAndThread F C) :
    (∃ f, ft.fiber = some f ∧ s.Runnable f ∧ s.choose ft = .enter .fiber f) ∨
    (∃ c, ft.cb = some c ∧ s.choose ft = .startCb c) ∨ s.choose ft = .drop := by
  obtain ⟨fiber, cb, thread⟩ := ft
  unfold choose
  cases fiber with
  | none => cases cb <;> simp
  | some f => cases cb <;> by_cases h : s.Runnable f <;> simp [h]

/-- Where the loop goes with a fiber that has been switched out. -/
def settle (s : State n F C) (job : Job C) (f : F) : Pc F C :=
  match (s.object f).state, job with
  | .READY, job => .putBack job f
  | .TERM, .fiber | .EXCEPT, .fiber => .top
  | .TERM, .cb _ | .EXCEPT, .cb _ => .recycle f
  | _, job => .hold job f

theorem settle_cases (s : State n F C) (job : Job C) (f : F) :
    (s.object f).state = .READY ∧ s.settle job f = .putBack job f ∨
    ¬ s.Runnable f ∧ (job = .fiber ∧ s.settle job f = .top ∨
      (∃ c, job = .cb c) ∧ s.settle job f = .recycle f) ∨
    (s.object f).state ≠ .READY ∧ s.Runnable f ∧ s.settle job f = .hold job f := by
  unfold settle Runnable
  cases (s.object f).state <;> cases job <;> simp

variable [DecidableEq F]

def setFiber (s : State n F C) (f : F) (o : Fiber) : State n F C :=
  { s with object := Function.update s.object f o }

@[simp] theorem setFiber_workers (s : State n F C) (f : F) (o : Fiber) :
    (s.setFiber f o).workers = s.workers := rfl

instance (s : State n F C) (t : Task F C) : Decidable (s.Known t) :=
  match t with
  | .fiber (some _) => inferInstanceAs (Decidable (_ ∈ _))
  | .fiber none => isTrue trivial
  | .cb _ => isTrue trivial

/-- `swapIn` of a fiber; `begun` notes the callback that a worker enters. -/
def enter (s : State n F C) (i : Fin n) (job : Job C) (f : F) : State n F C :=
  match (s.object f).swapIn with
  | .error a => s.abort a
  | .ok o =>
    { (s.setFiber f o).goto i (.inside job f) with begun := s.begun ++ job.begins i }

end State

variable [DecidableEq F] {n : ℕ}

/-- One step of the thread `i` outside its fibers. -/
def workerStep (tid : Fin n → ℤ) (s : State n F C) (i : Fin n) : Option (State n F C) :=
  match (s.workers i).pc with
  | .top =>
    match scan (tid i) s.Executing s.queue with
    | .error a => some (s.abort a)
    | .ok none => some (s.goto i (if (s.workers i).idleTerm then .ended else .idling))
    | .ok (some (x, rest)) =>
      some ({ s with
        queue := rest
        activeThreadCount := s.activeThreadCount + 1
        taken := s.taken ++ [(i, x)] }.goto i (.took x.2))
  | .took ft => some (s.goto i (s.choose ft))
  | .startCb c =>
    match (s.workers i).cbFiber with
    | none => none
    | some f =>
      match (s.object f).reset with
      | .error a => some (s.abort a)
      | .ok o => some ((s.setFiber f o).goto i (.enter (.cb c) f))
  | .enter job f => some (s.enter i job f)
  | .inside _ _ => none
  | .leaving job f => some (s.goto i (.left job f))
  | .left job f =>
    some ({ s with activeThreadCount := s.activeThreadCount - 1 }.goto i (.settle job f))
  | .settle job f => some (s.goto i (s.settle job f))
  | .putBack job f =>
    some ((s.scheduleNoLock (.ofTask (.fiber (some f)) (-1))).setWorker i
      { (s.workers i).release job with pc := .top })
  | .hold job f =>
    some ((s.setFiber f { s.object f with state := .HOLD }).setWorker i
      { (s.workers i).release job with pc := .top })
  | .recycle f =>
    match (s.object f).reset with
    | .error a => some (s.abort a)
    | .ok o => some ((s.setFiber f o).goto i .top)
  | .drop => some ({ s with activeThreadCount := s.activeThreadCount - 1 }.goto i .top)
  | .idling =>
    some (s.setWorker i
      { s.workers i with idleTerm := (s.workers i).idleTerm || s.isStopping, pc := .top })
  | .ended => none

/-- `new Fiber(ft.cb)`, where the worker has no `cb_fiber` to use again. -/
def allocateStep (s : State n F C) (i : Fin n) (f : F) : Option (State n F C) :=
  match (s.workers i).pc, (s.workers i).cbFiber with
  | .startCb c, none =>
    if f ∈ s.made then none
    else
      some ({ s.setFiber f .construct with made := f :: s.made }.setWorker i
        { s.workers i with cbFiber := some f, pc := .enter (.cb c) f })
  | _, _ => none

/-- The code inside the fiber of thread `i` switches out, or ends. -/
def bodyStep (s : State n F C) (i : Fin n) (act : Act) : Option (State n F C) :=
  match (s.workers i).pc with
  | .inside job f =>
    match act.apply (s.object f) with
    | .error a => some (s.abort a)
    | .ok o => some ((s.setFiber f o).goto i (.leaving job f))
  | _ => none

/-- The batch `schedule`, with the caller's vector after it. -/
def scheduleAll (s : State n F C) (ts : List (Task F C)) : List (Task F C) × State n F C :=
  (ts.map fun t => (FiberAndThread.ofPointer t (-1)).2,
    ts.foldl (fun s t => s.scheduleNoLock (FiberAndThread.ofPointer t (-1)).1) s)

omit [DecidableEq F] in
theorem scheduleAll_frame (s : State n F C) (ts : List (Task F C)) :
    ∃ q r, (scheduleAll s ts).2 = { s with queue := q, scheduled := r } := by
  unfold scheduleAll
  dsimp only
  induction ts generalizing s with
  | nil => exact ⟨s.queue, s.scheduled, rfl⟩
  | cons t ts ih =>
    obtain ⟨q, r, hhead⟩ := s.scheduleNoLock_frame (FiberAndThread.ofPointer t (-1)).1
    obtain ⟨q', r', htail⟩ := ih { s with queue := q, scheduled := r }
    exact ⟨q', r', by rw [List.foldl_cons, hhead, htail]⟩

/-- Nothing happens any more once an assertion has failed. -/
def step (tid : Fin n → ℤ) (s : State n F C) (l : Label n F C) :
    Option (List (Task F C) × State n F C) :=
  if s.aborted.isSome then none
  else
    match l with
    | .create f =>
      if f ∈ s.made then none
      else some ([], { s.setFiber f .construct with made := f :: s.made })
    | .schedule t thread =>
      if s.Known t then some ([], s.scheduleNoLock (.ofTask t thread)) else none
    | .scheduleAll ts => if ∀ t ∈ ts, s.Known t then some (scheduleAll s ts) else none
    | .worker i => (workerStep tid s i).map ([], ·)
    | .allocate i f => (allocateStep s i f).map ([], ·)
    | .body i act => (bodyStep s i act).map ([], ·)
    | .start => some ([], { s with stopping := false })
    | .autoStop => some ([], { s with autoStop := true })
    | .stop => some ([], { s with stopping := true })

/-- The ways a step can go, each with its guard. -/
inductive Move (tid : Fin n → ℤ) (s : State n F C) : Label n F C → State n F C → Prop where
  | create {f : F} (fresh : f ∉ s.made) :
    Move tid s (.create f) { s.setFiber f .construct with made := f :: s.made }
  | schedule {t : Task F C} {thread : ℤ} (known : s.Known t) :
    Move tid s (.schedule t thread) (s.scheduleNoLock (.ofTask t thread))
  | scheduleAll {ts : List (Task F C)} (known : ∀ t ∈ ts, s.Known t) :
    Move tid s (.scheduleAll ts) (scheduleAll s ts).2
  | take {i : Fin n} {x : Ticket F C} {rest : List (Ticket F C)}
    (at_pc : (s.workers i).pc = .top)
    (found : scan (tid i) s.Executing s.queue = .ok (some (x, rest))) :
    Move tid s (.worker i)
      ({ s with
        queue := rest
        activeThreadCount := s.activeThreadCount + 1
        taken := s.taken ++ [(i, x)] }.goto i (.took x.2))
  | rest {i : Fin n} (at_pc : (s.workers i).pc = .top)
    (found : scan (tid i) s.Executing s.queue = .ok none) :
    Move tid s (.worker i) (s.goto i (if (s.workers i).idleTerm then .ended else .idling))
  | null {i : Fin n} {a : Assertion} (at_pc : (s.workers i).pc = .top)
    (found : scan (tid i) s.Executing s.queue = .error a) :
    Move tid s (.worker i) (s.abort a)
  | choose {i : Fin n} {ft : FiberAndThread F C} (at_pc : (s.workers i).pc = .took ft) :
    Move tid s (.worker i) (s.goto i (s.choose ft))
  | reuse {i : Fin n} {c : C} {f : F} {o : Fiber} (at_pc : (s.workers i).pc = .startCb c)
    (own : (s.workers i).cbFiber = some f) (ok : (s.object f).reset = .ok o) :
    Move tid s (.worker i) ((s.setFiber f o).goto i (.enter (.cb c) f))
  | reuseFails {i : Fin n} {c : C} {f : F} {a : Assertion}
    (at_pc : (s.workers i).pc = .startCb c) (own : (s.workers i).cbFiber = some f)
    (fails : (s.object f).reset = .error a) : Move tid s (.worker i) (s.abort a)
  | allocate {i : Fin n} {c : C} {f : F} (at_pc : (s.workers i).pc = .startCb c)
    (own : (s.workers i).cbFiber = none) (fresh : f ∉ s.made) :
    Move tid s (.allocate i f)
      ({ s.setFiber f .construct with made := f :: s.made }.setWorker i
        { s.workers i with cbFiber := some f, pc := .enter (.cb c) f })
  | swapIn {i : Fin n} {job : Job C} {f : F} {o : Fiber}
    (at_pc : (s.workers i).pc = .enter job f) (ok : (s.object f).swapIn = .ok o) :
    Move tid s (.worker i)
      { (s.setFiber f o).goto i (.inside job f) with begun := s.begun ++ job.begins i }
  | swapInFails {i : Fin n} {job : Job C} {f : F} {a : Assertion}
    (at_pc : (s.workers i).pc = .enter job f) (fails : (s.object f).swapIn = .error a) :
    Move tid s (.worker i) (s.abort a)
  | act {i : Fin n} {job : Job C} {f : F} {o : Fiber} {act : Act}
    (at_pc : (s.workers i).pc = .inside job f) (ok : act.apply (s.object f) = .ok o) :
    Move tid s (.body i act) ((s.setFiber f o).goto i (.leaving job f))
  | actFails {i : Fin n} {job : Job C} {f : F} {a : Assertion} {act : Act}
    (at_pc : (s.workers i).pc = .inside job f) (fails : act.apply (s.object f) = .error a) :
    Move tid s (.body i act) (s.abort a)
  | swapOut {i : Fin n} {job : Job C} {f : F} (at_pc : (s.workers i).pc = .leaving job f) :
    Move tid s (.worker i) (s.goto i (.left job f))
  | uncount {i : Fin n} {job : Job C} {f : F} (at_pc : (s.workers i).pc = .left job f) :
    Move tid s (.worker i)
      ({ s with activeThreadCount := s.activeThreadCount - 1 }.goto i (.settle job f))
  | settle {i : Fin n} {job : Job C} {f : F} (at_pc : (s.workers i).pc = .settle job f) :
    Move tid s (.worker i) (s.goto i (s.settle job f))
  | putBack {i : Fin n} {job : Job C} {f : F} (at_pc : (s.workers i).pc = .putBack job f) :
    Move tid s (.worker i)
      ((s.scheduleNoLock (.ofTask (.fiber (some f)) (-1))).setWorker i
        { (s.workers i).release job with pc := .top })
  | hold {i : Fin n} {job : Job C} {f : F} (at_pc : (s.workers i).pc = .hold job f) :
    Move tid s (.worker i)
      ((s.setFiber f { s.object f with state := .HOLD }).setWorker i
        { (s.workers i).release job with pc := .top })
  | recycle {i : Fin n} {f : F} {o : Fiber} (at_pc : (s.workers i).pc = .recycle f)
    (ok : (s.object f).reset = .ok o) :
    Move tid s (.worker i) ((s.setFiber f o).goto i .top)
  | recycleFails {i : Fin n} {f : F} {a : Assertion} (at_pc : (s.workers i).pc = .recycle f)
    (fails : (s.object f).reset = .error a) : Move tid s (.worker i) (s.abort a)
  | drop {i : Fin n} (at_pc : (s.workers i).pc = .drop) :
    Move tid s (.worker i)
      ({ s with activeThreadCount := s.activeThreadCount - 1 }.goto i .top)
  | idle {i : Fin n} (at_pc : (s.workers i).pc = .idling) :
    Move tid s (.worker i)
      (s.setWorker i
        { s.workers i with idleTerm := (s.workers i).idleTerm || s.isStopping, pc := .top })
  | start : Move tid s .start { s with stopping := false }
  | autoStop : Move tid s .autoStop { s with autoStop := true }
  | stop : Move tid s .stop { s with stopping := true }

/-- The thread that makes a step; none for the steps of the environment. -/
def Label.actor : Label n F C → Option (Fin n)
  | .worker i | .allocate i _ | .body i _ => some i
  | .create _ | .schedule _ _ | .scheduleAll _ | .start | .autoStop | .stop => none

/-- A step moves no other worker. -/
theorem Move.frame {tid : Fin n → ℤ} {s t : State n F C} {l : Label n F C}
    (h : Move tid s l t) {j : Fin n} (hj : l.actor ≠ some j) : t.workers j = s.workers j := by
  have hne : ∀ i, some i ≠ some j → j ≠ i := fun i hi hji => hi (congrArg some hji.symm)
  cases h with
  | schedule =>
    obtain ⟨q, r, hq⟩ := s.scheduleNoLock_frame (.ofTask _ _)
    rw [hq]
  | scheduleAll =>
    obtain ⟨q, r, hq⟩ := scheduleAll_frame s _
    rw [hq]
  | putBack =>
    obtain ⟨q, r, hq⟩ := s.scheduleNoLock_frame (.ofTask (.fiber (some _)) (-1))
    rw [hq, State.setWorker_of_ne _ _ _ (hne _ hj)]
  | create | start | autoStop | stop => rfl
  | null | reuseFails | swapInFails | actFails | recycleFails => rfl
  | allocate | hold | idle => exact State.setWorker_of_ne _ _ _ (hne _ hj)
  | _ => exact State.goto_of_ne _ _ _ (hne _ hj)

theorem Move.others {tid : Fin n → ℤ} {s t : State n F C} {l : Label n F C}
    (h : Move tid s l t) {i : Fin n} (hi : l.actor = some i) (j : Fin n) (hj : j ≠ i) :
    t.workers j = s.workers j := by
  apply h.frame
  rw [hi]
  exact fun heq => hj (Option.some.inj heq).symm

theorem move_of_workerStep {tid : Fin n → ℤ} {s t : State n F C} {i : Fin n}
    (h : workerStep tid s i = some t) : Move tid s (.worker i) t := by
  unfold workerStep at h
  split at h
  case h_1 hpc =>
    split at h
    · rename_i hscan
      cases h
      exact .null hpc hscan
    · rename_i hscan
      cases h
      exact .rest hpc hscan
    · rename_i hscan
      cases h
      exact .take hpc hscan
  case h_2 hpc => cases h; exact .choose hpc
  case h_3 hpc =>
    split at h
    · cases h
    · rename_i hown
      split at h <;> rename_i hreset <;> cases h
      · exact .reuseFails hpc hown hreset
      · exact .reuse hpc hown hreset
  case h_4 hpc =>
    cases h
    unfold State.enter
    split <;> rename_i hswap
    · exact .swapInFails hpc hswap
    · exact .swapIn hpc hswap
  case h_5 => cases h
  case h_6 hpc => cases h; exact .swapOut hpc
  case h_7 hpc => cases h; exact .uncount hpc
  case h_8 hpc => cases h; exact .settle hpc
  case h_9 hpc => cases h; exact .putBack hpc
  case h_10 hpc => cases h; exact .hold hpc
  case h_11 hpc =>
    split at h <;> rename_i hreset <;> cases h
    · exact .recycleFails hpc hreset
    · exact .recycle hpc hreset
  case h_12 hpc => cases h; exact .drop hpc
  case h_13 hpc => cases h; exact .idle hpc
  case h_14 => cases h

theorem move_of_allocateStep (tid : Fin n → ℤ) {s t : State n F C} {i : Fin n} {f : F}
    (h : allocateStep s i f = some t) : Move tid s (.allocate i f) t := by
  unfold allocateStep at h
  split at h
  · rename_i hpc hown
    split at h
    · cases h
    · rename_i hfresh
      cases h
      exact .allocate hpc hown hfresh
  · cases h

theorem move_of_bodyStep (tid : Fin n → ℤ) {s t : State n F C} {i : Fin n} {act : Act}
    (h : bodyStep s i act = some t) : Move tid s (.body i act) t := by
  unfold bodyStep at h
  split at h
  · rename_i hpc
    split at h <;> rename_i hact <;> cases h
    · exact .actFails hpc hact
    · exact .act hpc hact
  · cases h

/-- Only a state without a failed assertion has a next one. -/
theorem move_of_step {tid : Fin n → ℤ} {s t : State n F C} {l : Label n F C}
    {o : List (Task F C)} (h : step tid s l = some (o, t)) :
    s.aborted = none ∧ Move tid s l t := by
  unfold step at h
  split at h
  · cases h
  · rename_i hrun
    refine ⟨by simpa using hrun, ?_⟩
    cases l with
    | create f =>
      dsimp only at h
      split at h <;> cases h
      exact .create (by assumption)
    | schedule t thread =>
      dsimp only at h
      split at h <;> cases h
      exact .schedule (by assumption)
    | scheduleAll ts =>
      dsimp only at h
      split at h <;> cases h
      exact .scheduleAll (by assumption)
    | worker i =>
      obtain ⟨t, ht, heq⟩ := Option.map_eq_some_iff.1 h
      cases heq
      exact move_of_workerStep ht
    | allocate i f =>
      obtain ⟨t, ht, heq⟩ := Option.map_eq_some_iff.1 h
      cases heq
      exact move_of_allocateStep tid ht
    | body i act =>
      obtain ⟨t, ht, heq⟩ := Option.map_eq_some_iff.1 h
      cases heq
      exact move_of_bodyStep tid ht
    | start => cases h; exact .start
    | autoStop => cases h; exact .autoStop
    | stop => cases h; exact .stop

/-- The states that some run reaches. -/
def Reachable (tid : Fin n → ℤ) (s : State n F C) : Prop :=
  ∃ ls os, StepRuns.run (step tid) initial ls = some (os, s)

/-- What every move preserves holds in every reachable state. -/
theorem reachable_invariant {tid : Fin n → ℤ} {P : State n F C → Prop} (init : P initial)
    (keep : ∀ s l t, P s → Move tid s l t → P t) {s : State n F C} (h : Reachable tid s) :
    P s := by
  obtain ⟨ls, os, hrun⟩ := h
  refine StepRuns.run_invariant (P := P) ?_ init (StepRuns.guarded_true _ _) hrun
  intro s l o t hs _ hstep
  exact keep s l t hs (move_of_step hstep).2

end SylarScheduler
