import SylarNet.IOManagerBookkeeping

/-!
# The hooked socket calls

Fibers execute `do_io` and `connect_with_timeout` on the event table of the I/O manager while
other threads run expired timer callbacks, dispatch epoll events, close descriptors and open
new ones. Every access to shared data is one step: a system call, an operation of the event
table, the lookup of an `FdCtx`, and the two parts of a timer callback, which sets
`tinfo->cancelled` and then calls `cancelEvent`. What a system call answers, when a timer
expires and who runs next is left open. The threads have the hook enabled.
-/
namespace SylarHook

open IOManagerEvents IOManagerBookkeeping

/-- `m_fd` is the position in the table. -/
structure FdCtx where
  isInit : Bool
  isSocket : Bool
  sysNonblock : Bool
  userNonblock : Bool
  isClosed : Bool
  recvTimeout : UInt64
  sendTimeout : UInt64
  deriving DecidableEq, Repr

namespace FdCtx

/-- `(uint64_t)-1`, no timeout. -/
def never : UInt64 := ~~~0

/-- `init`, with what `fstat` says: nothing on a closed descriptor, else whether it is a socket. -/
def construct (fstat : Option Bool) : FdCtx :=
  ⟨fstat.isSome, fstat.getD false, fstat.getD false, false, false, never, never⟩

def getTimeout (c : FdCtx) : Event → UInt64
  | .read => c.recvTimeout
  | .write => c.sendTimeout

def setTimeout (c : FdCtx) (v : UInt64) : Event → FdCtx
  | .read => { c with recvTimeout := v }
  | .write => { c with sendTimeout := v }

end FdCtx

/-- `m_data`, one entry a descriptor number. -/
abbrev FdManager := List (Option FdCtx)

namespace FdManager

def construct : FdManager := List.replicate 64 none

def get (m : FdManager) (fd : ℕ) : Option FdCtx := (m[fd]?).join

/-- `get(fd, true)`. -/
def create (m : FdManager) (fd : ℕ) (fstat : Option Bool) : FdManager :=
  match m.get fd with
  | some _ => m
  | none =>
    let m := if fd < m.length then m else m ++ List.replicate (fd * 3 / 2 - m.length) none
    m.set fd (some (.construct fstat))

def del (m : FdManager) (fd : ℕ) : FdManager := m.set fd none

def modify (m : FdManager) (fd : ℕ) (g : FdCtx → FdCtx) : FdManager :=
  m.set fd ((m.get fd).map g)

end FdManager

inductive Kind where
  | doIo (event : Event)
  | connect (timeoutMs : UInt64)
  deriving DecidableEq, Repr

def Kind.event : Kind → Event
  | .doIo event => event
  | .connect _ => .write

/-- What the original function answers; `again` is `EAGAIN`, or `EINPROGRESS` of a connect. -/
inductive Outcome where
  | ok
  | interrupted
  | again
  | failed
  deriving DecidableEq, Repr

/-- The timer of one round: in the set, its callback with the scheduler, or done with. -/
inductive TimerState where
  | armed
  | handedOut
  | over
  deriving DecidableEq, Repr

inductive Pc where
  | direct
  | io
  | arm
  | add
  | parking
  | parked
  | back
  | check
  | sockopt
  | returned (ok : Bool)
  deriving DecidableEq, Repr

/-- `id` names the `timer_info` of the call, `started` the descriptor it was called on. -/
structure Call where
  id : ℕ
  kind : Kind
  fd : ℕ
  timeout : UInt64
  started : Option ℕ
  cancelled : Bool
  timers : List TimerState
  pc : Pc
  deriving DecidableEq, Repr

namespace Call

def event (c : Call) : Event := c.kind.event

def Active (c : Call) : Prop := c.pc ≠ .returned true ∧ c.pc ≠ .returned false

instance (c : Call) : Decidable c.Active := inferInstanceAs (Decidable (_ ∧ _))

/-- `timer->cancel()`, which has no effect on a callback that was handed out. -/
def stopTimer (c : Call) : List TimerState :=
  match c.timers.getLast? with
  | some .armed => c.timers.dropLast ++ [.over]
  | _ => c.timers

end Call

inductive CloseStage where
  | cancel
  | del
  | free
  deriving DecidableEq, Repr

inductive Activity where
  | idle
  | call (c : Call)
  | closing (fd : ℕ) (stage : CloseStage)
  deriving DecidableEq, Repr

/-- A callback that has set `cancelled` and still has to call `cancelEvent`. -/
structure Cancelling where
  id : ℕ
  fd : ℕ
  event : Event
  deriving DecidableEq, Repr

/-- One call of the original function: the descriptor the hooked call was made on, and the
one that the number stands for now. -/
structure Io (F : Type) where
  fiber : F
  kind : Kind
  fd : ℕ
  started : Option ℕ
  used : Option ℕ
  outcome : Outcome
  deriving DecidableEq, Repr

def Call.perform {F : Type} (c : Call) (f : F) (used : Option ℕ) (outcome : Outcome) : Io F :=
  ⟨f, c.kind, c.fd, c.started, used, outcome⟩

/-- `descriptors` is the kernel's table, each opening with a number of its own; `performed`
only records. -/
structure State (K S F C : Type) where
  manager : IOManagerState K S F C
  fds : FdManager
  descriptors : ℕ → Option ℕ
  generations : ℕ
  activity : F → Activity
  calls : ℕ
  cancelling : List Cancelling
  resumed : F → ℕ
  performed : List (Io F)

inductive Label (S F C : Type) where
  | start (f : F) (kind : Kind) (fd : ℕ)
  | io (f : F) (outcome : Outcome)
  | run (f : F)
  | resume (f : F)
  | sockopt (f : F) (ok : Bool)
  | expire (f : F) (k : ℕ)
  | callback (f : F) (k : ℕ)
  | cancel (k : ℕ)
  | close (f : F) (fd : ℕ)
  | closeStep (f : F)
  | socket (fd : ℕ)
  | create (fd : ℕ) (isSocket : Bool)
  | setTimeout (fd : ℕ) (event : Event) (v : UInt64)
  | setUserNonblock (fd : ℕ) (v : Bool)
  | other (op : Op S F C)
  deriving DecidableEq, Repr

variable {K S F C : Type}

def initial (k : K) : State K S F C where
  manager := .construct k
  fds := .construct
  descriptors _ := none
  generations := 0
  activity _ := .idle
  calls := 0
  cancelling := []
  resumed _ := 0
  performed := []

variable [DecidableEq F]

/-- How often the I/O manager has scheduled a fiber. -/
def wakes (l : List (S × Task F C)) (f : F) : ℕ :=
  l.countP fun p =>
    match p.2 with
    | .fiber g => g = f
    | .cb _ => false

namespace State

def setActivity (s : State K S F C) (f : F) (a : Activity) : State K S F C :=
  { s with activity := Function.update s.activity f a }

def setCall (s : State K S F C) (f : F) (c : Call) : State K S F C := s.setActivity f (.call c)

/-- The fiber is in no hooked call. -/
def Free (s : State K S F C) (f : F) : Prop :=
  match s.activity f with
  | .idle => True
  | .call c => ¬ c.Active
  | .closing _ _ => False

instance (s : State K S F C) (f : F) : Decidable (s.Free f) := by
  unfold Free
  split <;> infer_instance

/-- Scheduled and not yet resumed. -/
def Scheduled (s : State K S F C) (f : F) : Prop := s.resumed f < wakes s.manager.scheduled f

instance (s : State K S F C) (f : F) : Decidable (s.Scheduled f) :=
  inferInstanceAs (Decidable (_ < _))

end State

/-- The tests at the head of `do_io` and `connect_with_timeout`, with the timeout. -/
def entryPoint (ctx : Option FdCtx) : Kind → Pc × UInt64
  | .doIo event =>
    match ctx with
    | none => (.direct, FdCtx.never)
    | some c =>
      if c.isClosed then (.returned false, FdCtx.never)
      else if !c.isSocket || c.userNonblock then (.direct, FdCtx.never)
      else (.io, c.getTimeout event)
  | .connect ms =>
    match ctx with
    | none => (.returned false, FdCtx.never)
    | some c =>
      if c.isClosed then (.returned false, FdCtx.never)
      else if !c.isSocket then (.direct, FdCtx.never)
      else if c.userNonblock then (.direct, FdCtx.never)
      else (.io, ms)

/-- Where a call goes with the answer of the original function. -/
def Call.afterIo (c : Call) (outcome : Outcome) : Pc :=
  match c.pc, outcome, c.kind with
  | .io, .again, _ => .arm
  | .io, .interrupted, .doIo _ => .io
  | _, .ok, _ => .returned true
  | _, _, _ => .returned false

section Steps

variable (ctl : K → CtlOp → ℕ → EventMask → Bool × K) (forget : K → ℕ → K) (iom : S)

/-- An operation of the event table; a failed assertion ends the run. -/
def onTable (s : State K S F C) (op : Op S F C) : Option (Answer × State K S F C) :=
  (IOManagerBookkeeping.step ctl s.manager op).map fun r => (r.1, { s with manager := r.2 })

/-- The next step of a call by itself. -/
def callStep (s : State K S F C) (f : F) (c : Call) : Option (State K S F C) :=
  match c.pc with
  | .arm =>
    let timers := if c.timeout = FdCtx.never then c.timers else c.timers ++ [.armed]
    some (s.setCall f { c with timers := timers, pc := .add })
  | .add =>
    (onTable ctl s (.addEvent c.fd c.event none (some iom) f)).map fun r =>
      if r.1.value = 0 then r.2.setCall f { c with pc := .parking }
      else
        r.2.setCall f
          { c with
            timers := c.stopTimer
            pc := match c.kind with
              | .doIo _ => .returned false
              | .connect _ => .sockopt }
  | .parking => some (s.setCall f { c with pc := .parked })
  | .back => some (s.setCall f { c with timers := c.stopTimer, pc := .check })
  | .check =>
    some (s.setCall f
      { c with
        pc := if c.cancelled then .returned false
          else
            match c.kind with
            | .doIo _ => .io
            | .connect _ => .sockopt })
  | .direct | .io | .parked | .sockopt | .returned _ => none

/-- `winfo.lock()`, the test and the assignment; `cancelEvent` is a step of its own. -/
def callbackStep (s : State K S F C) (f : F) (c : Call) (k : ℕ) : State K S F C :=
  let c := { c with timers := c.timers.set k .over }
  if c.Active ∧ c.cancelled = false then
    { s.setCall f { c with cancelled := true } with
      cancelling := s.cancelling ++ [⟨c.id, c.fd, c.event⟩] }
  else s.setCall f c

/-- Another fiber may add itself outside a hooked call, and any thread of the I/O manager a
callback. -/
def OtherOk (s : State K S F C) : Op S F C → Prop
  | .addEvent _ _ cb this self => this.isSome ∧ (cb.isSome ∨ s.Free self)
  | _ => True

instance (s : State K S F C) (op : Op S F C) : Decidable (OtherOk s op) :=
  match op with
  | .addEvent _ _ _ _ _ => inferInstanceAs (Decidable (_ ∧ _))
  | .delEvent _ _ | .cancelEvent _ _ | .cancelAll _ | .dispatch _ _ => isTrue trivial

def closeStep (s : State K S F C) (f : F) (fd : ℕ) : CloseStage → Option (State K S F C)
  | .cancel => (onTable ctl s (.cancelAll fd)).map fun r => r.2.setActivity f (.closing fd .del)
  | .del => some ({ s with fds := s.fds.del fd }.setActivity f (.closing fd .free))
  | .free =>
    some ({ s with
      descriptors := Function.update s.descriptors fd none
      manager := { s.manager with kernel := forget s.manager.kernel fd } }.setActivity f .idle)

def stepState (s : State K S F C) : Label S F C → Option (State K S F C)
  | .start f kind fd =>
    if s.Free f then
      let e := entryPoint (s.fds.get fd) kind
      some ({ s with calls := s.calls + 1 }.setCall f
        ⟨s.calls, kind, fd, e.2, s.descriptors fd, false, [], e.1⟩)
    else none
  | .io f outcome =>
    match s.activity f with
    | .call c =>
      if (c.pc = .direct ∨ c.pc = .io) ∧ (s.descriptors c.fd = none → outcome = .failed) then
        let io := c.perform f (s.descriptors c.fd) outcome
        some ({ s with performed := s.performed ++ [io] }.setCall f
          { c with pc := c.afterIo outcome })
      else none
    | _ => none
  | .run f =>
    match s.activity f with
    | .call c => callStep ctl iom s f c
    | _ => none
  | .resume f =>
    match s.activity f with
    | .call c =>
      if c.pc = .parked ∧ s.Scheduled f then
        some ({ s with resumed := Function.update s.resumed f (s.resumed f + 1) }.setCall f
          { c with pc := .back })
      else none
    | _ => none
  | .sockopt f ok =>
    match s.activity f with
    | .call c => if c.pc = .sockopt then some (s.setCall f { c with pc := .returned ok }) else none
    | _ => none
  | .expire f k =>
    match s.activity f with
    | .call c =>
      if c.timers[k]? = some .armed then
        some (s.setCall f { c with timers := c.timers.set k .handedOut })
      else none
    | _ => none
  | .callback f k =>
    match s.activity f with
    | .call c =>
      if c.timers[k]? = some .handedOut then some (callbackStep s f c k) else none
    | _ => none
  | .cancel k =>
    match s.cancelling[k]? with
    | some x =>
      (onTable ctl s (.cancelEvent x.fd x.event)).map fun r =>
        { r.2 with cancelling := s.cancelling.eraseIdx k }
    | none => none
  | .close f fd =>
    if s.Free f then
      some (s.setActivity f (.closing fd (if (s.fds.get fd).isSome then .cancel else .free)))
    else none
  | .closeStep f =>
    match s.activity f with
    | .closing fd stage => closeStep ctl forget s f fd stage
    | _ => none
  | .socket fd =>
    if s.descriptors fd = none then
      some { s with
        descriptors := Function.update s.descriptors fd (some s.generations)
        generations := s.generations + 1 }
    else none
  | .create fd isSocket =>
    some { s with fds := s.fds.create fd ((s.descriptors fd).map fun _ => isSocket) }
  | .setTimeout fd event v => some { s with fds := s.fds.modify fd (·.setTimeout v event) }
  | .setUserNonblock fd v =>
    some { s with fds := s.fds.modify fd fun c => { c with userNonblock := v } }
  | .other op => if OtherOk s op then (onTable ctl s op).map (·.2) else none

def step (s : State K S F C) (l : Label S F C) : Option (Unit × State K S F C) :=
  (stepState ctl forget iom s l).map ((), ·)

/-- The ways a step can go, each with its guard. -/
inductive Move (s : State K S F C) : Label S F C → State K S F C → Prop where
  | start {f : F} {kind : Kind} {fd : ℕ} (free : s.Free f) :
    Move s (.start f kind fd)
      ({ s with calls := s.calls + 1 }.setCall f
        ⟨s.calls, kind, fd, (entryPoint (s.fds.get fd) kind).2, s.descriptors fd, false, [],
          (entryPoint (s.fds.get fd) kind).1⟩)
  | io {f : F} {outcome : Outcome} {c : Call} (at_call : s.activity f = .call c)
    (at_pc : c.pc = .direct ∨ c.pc = .io)
    (closed : s.descriptors c.fd = none → outcome = .failed) :
    Move s (.io f outcome)
      ({ s with performed := s.performed ++ [c.perform f (s.descriptors c.fd) outcome] }.setCall
        f { c with pc := c.afterIo outcome })
  | arm {f : F} {c : Call} (at_call : s.activity f = .call c) (at_pc : c.pc = .arm) :
    Move s (.run f)
      (s.setCall f
        { c with
          timers := if c.timeout = FdCtx.never then c.timers else c.timers ++ [.armed]
          pc := .add })
  | added {f : F} {c : Call} {ans : Answer} {m : IOManagerState K S F C}
    (at_call : s.activity f = .call c) (at_pc : c.pc = .add)
    (table : IOManagerBookkeeping.step ctl s.manager
      (.addEvent c.fd c.event none (some iom) f) = some (ans, m)) (granted : ans.value = 0) :
    Move s (.run f) ({ s with manager := m }.setCall f { c with pc := .parking })
  | addFails {f : F} {c : Call} {ans : Answer} {m : IOManagerState K S F C} {pc : Pc}
    (at_call : s.activity f = .call c) (at_pc : c.pc = .add)
    (table : IOManagerBookkeeping.step ctl s.manager
      (.addEvent c.fd c.event none (some iom) f) = some (ans, m)) (refused : ans.value ≠ 0)
    (leaves : pc = .returned false ∨ pc = .sockopt) :
    Move s (.run f)
      ({ s with manager := m }.setCall f { c with timers := c.stopTimer, pc := pc })
  | park {f : F} {c : Call} (at_call : s.activity f = .call c) (at_pc : c.pc = .parking) :
    Move s (.run f) (s.setCall f { c with pc := .parked })
  | disarm {f : F} {c : Call} (at_call : s.activity f = .call c) (at_pc : c.pc = .back) :
    Move s (.run f) (s.setCall f { c with timers := c.stopTimer, pc := .check })
  | check {f : F} {c : Call} {pc : Pc} (at_call : s.activity f = .call c) (at_pc : c.pc = .check)
    (leaves : c.cancelled = true ∧ pc = .returned false ∨
      c.cancelled = false ∧ ((∃ event, c.kind = .doIo event) ∧ pc = .io ∨ pc = .sockopt)) :
    Move s (.run f) (s.setCall f { c with pc := pc })
  | resume {f : F} {c : Call} (at_call : s.activity f = .call c) (at_pc : c.pc = .parked)
    (scheduled : s.Scheduled f) :
    Move s (.resume f)
      ({ s with resumed := Function.update s.resumed f (s.resumed f + 1) }.setCall f
        { c with pc := .back })
  | sockopt {f : F} {ok : Bool} {c : Call} (at_call : s.activity f = .call c)
    (at_pc : c.pc = .sockopt) :
    Move s (.sockopt f ok) (s.setCall f { c with pc := .returned ok })
  | expire {f : F} {k : ℕ} {c : Call} (at_call : s.activity f = .call c)
    (armed : c.timers[k]? = some .armed) :
    Move s (.expire f k) (s.setCall f { c with timers := c.timers.set k .handedOut })
  | timedOut {f : F} {k : ℕ} {c : Call} (at_call : s.activity f = .call c)
    (handed : c.timers[k]? = some .handedOut) (active : c.Active) :
    Move s (.callback f k)
      { s.setCall f { c with timers := c.timers.set k .over, cancelled := true } with
        cancelling := s.cancelling ++ [⟨c.id, c.fd, c.event⟩] }
  | tooLate {f : F} {k : ℕ} {c : Call} (at_call : s.activity f = .call c)
    (handed : c.timers[k]? = some .handedOut) :
    Move s (.callback f k) (s.setCall f { c with timers := c.timers.set k .over })
  | cancel {k : ℕ} {x : Cancelling} {ans : Answer} {m : IOManagerState K S F C}
    (at_cancel : s.cancelling[k]? = some x)
    (table : IOManagerBookkeeping.step ctl s.manager (.cancelEvent x.fd x.event) = some (ans, m)) :
    Move s (.cancel k) { s with manager := m, cancelling := s.cancelling.eraseIdx k }
  | close {f : F} {fd : ℕ} {stage : CloseStage} (free : s.Free f) :
    Move s (.close f fd) (s.setActivity f (.closing fd stage))
  | closeCancel {f : F} {fd : ℕ} {ans : Answer} {m : IOManagerState K S F C}
    (at_close : s.activity f = .closing fd .cancel)
    (table : IOManagerBookkeeping.step ctl s.manager (.cancelAll fd) = some (ans, m)) :
    Move s (.closeStep f) ({ s with manager := m }.setActivity f (.closing fd .del))
  | closeDel {f : F} {fd : ℕ} (at_close : s.activity f = .closing fd .del) :
    Move s (.closeStep f) ({ s with fds := s.fds.del fd }.setActivity f (.closing fd .free))
  | closeFree {f : F} {fd : ℕ} (at_close : s.activity f = .closing fd .free) :
    Move s (.closeStep f)
      ({ s with
        descriptors := Function.update s.descriptors fd none
        manager := { s.manager with kernel := forget s.manager.kernel fd } }.setActivity f .idle)
  | socket {fd : ℕ} (closed : s.descriptors fd = none) :
    Move s (.socket fd)
      { s with
        descriptors := Function.update s.descriptors fd (some s.generations)
        generations := s.generations + 1 }
  | create {fd : ℕ} {isSocket : Bool} {m : FdManager} :
    Move s (.create fd isSocket) { s with fds := m }
  | setTimeout {fd : ℕ} {event : Event} {v : UInt64} {m : FdManager} :
    Move s (.setTimeout fd event v) { s with fds := m }
  | setUserNonblock {fd : ℕ} {v : Bool} {m : FdManager} :
    Move s (.setUserNonblock fd v) { s with fds := m }
  | other {op : Op S F C} {ans : Answer} {m : IOManagerState K S F C} (ok : OtherOk s op)
    (table : IOManagerBookkeeping.step ctl s.manager op = some (ans, m)) :
    Move s (.other op) { s with manager := m }

variable {ctl forget iom}

omit [DecidableEq F] in
theorem onTable_some {s t : State K S F C} {op : Op S F C} {ans : Answer}
    (h : onTable ctl s op = some (ans, t)) :
    ∃ m, IOManagerBookkeeping.step ctl s.manager op = some (ans, m) ∧
      t = { s with manager := m } := by
  obtain ⟨⟨ans', m⟩, hstep, heq⟩ := Option.map_eq_some_iff.1 h
  cases heq
  exact ⟨m, hstep, rfl⟩

theorem move_of_callStep {s t : State K S F C} {f : F} {c : Call} (at_call : s.activity f = .call c)
    (h : callStep ctl iom s f c = some t) : Move ctl forget iom s (.run f) t := by
  unfold callStep at h
  cases hpc : c.pc with
  | arm =>
    rw [hpc] at h
    cases h
    exact .arm at_call hpc
  | add =>
    rw [hpc] at h
    obtain ⟨⟨ans, u⟩, htable, heq⟩ := Option.map_eq_some_iff.1 h
    obtain ⟨m, hstep, rfl⟩ := onTable_some htable
    dsimp only at heq
    by_cases hans : ans.value = 0
    · rw [if_pos hans] at heq
      subst heq
      exact .added at_call hpc hstep hans
    · rw [if_neg hans] at heq
      subst heq
      refine .addFails at_call hpc hstep hans ?_
      cases c.kind
      · exact .inl rfl
      · exact .inr rfl
  | parking =>
    rw [hpc] at h
    cases h
    exact .park at_call hpc
  | back =>
    rw [hpc] at h
    cases h
    exact .disarm at_call hpc
  | check =>
    rw [hpc] at h
    cases h
    refine .check at_call hpc ?_
    cases c.cancelled
    · cases c.kind <;> simp
    · simp
  | direct | io | parked | sockopt | returned =>
    rw [hpc] at h
    cases h

theorem move_of_callbackStep {s : State K S F C} {f : F} {c : Call} {k : ℕ}
    (at_call : s.activity f = .call c) (handed : c.timers[k]? = some .handedOut) :
    Move ctl forget iom s (.callback f k) (callbackStep s f c k) := by
  unfold callbackStep
  dsimp only
  split
  · rename_i h
    exact .timedOut at_call handed h.1
  · exact .tooLate at_call handed

theorem move_of_closeStep {s t : State K S F C} {f : F} {fd : ℕ} {stage : CloseStage}
    (at_close : s.activity f = .closing fd stage)
    (h : closeStep ctl forget s f fd stage = some t) : Move ctl forget iom s (.closeStep f) t := by
  cases stage with
  | cancel =>
    obtain ⟨⟨ans, u⟩, htable, rfl⟩ := Option.map_eq_some_iff.1 h
    obtain ⟨m, hstep, rfl⟩ := onTable_some htable
    exact .closeCancel at_close hstep
  | del => cases h; exact .closeDel at_close
  | free => cases h; exact .closeFree at_close

theorem move_of_step {s t : State K S F C} {l : Label S F C} {o : Unit}
    (h : step ctl forget iom s l = some (o, t)) : Move ctl forget iom s l t := by
  obtain ⟨u, h, heq⟩ := Option.map_eq_some_iff.1 h
  cases heq
  cases l with
  | start f kind fd =>
    dsimp only [stepState] at h
    split at h <;> cases h
    exact .start (by assumption)
  | io f outcome =>
    dsimp only [stepState] at h
    split at h
    · split at h
      · rename_i c hcall hok
        cases h
        exact .io hcall hok.1 hok.2
      · cases h
    · cases h
  | run f =>
    dsimp only [stepState] at h
    split at h
    · exact move_of_callStep (by assumption) h
    · cases h
  | resume f =>
    dsimp only [stepState] at h
    split at h
    · split at h
      · rename_i c hcall hok
        cases h
        exact .resume hcall hok.1 hok.2
      · cases h
    · cases h
  | sockopt f ok =>
    dsimp only [stepState] at h
    split at h
    · split at h
      · cases h
        exact .sockopt (by assumption) (by assumption)
      · cases h
    · cases h
  | expire f k =>
    dsimp only [stepState] at h
    split at h
    · split at h
      · cases h
        exact .expire (by assumption) (by assumption)
      · cases h
    · cases h
  | callback f k =>
    dsimp only [stepState] at h
    split at h
    · split at h
      · cases h
        exact move_of_callbackStep (by assumption) (by assumption)
      · cases h
    · cases h
  | cancel k =>
    dsimp only [stepState] at h
    split at h
    · obtain ⟨⟨ans, u⟩, htable, rfl⟩ := Option.map_eq_some_iff.1 h
      obtain ⟨m, hstep, rfl⟩ := onTable_some htable
      exact .cancel (by assumption) hstep
    · cases h
  | close f fd =>
    dsimp only [stepState] at h
    split at h <;> cases h
    exact .close (by assumption)
  | closeStep f =>
    dsimp only [stepState] at h
    split at h
    · exact move_of_closeStep (by assumption) h
    · cases h
  | socket fd =>
    dsimp only [stepState] at h
    split at h <;> cases h
    exact .socket (by assumption)
  | create fd isSocket => cases h; exact .create
  | setTimeout fd event v => cases h; exact .setTimeout
  | setUserNonblock fd v => cases h; exact .setUserNonblock
  | other op =>
    dsimp only [stepState] at h
    split at h
    · obtain ⟨⟨ans, u⟩, htable, rfl⟩ := Option.map_eq_some_iff.1 h
      obtain ⟨m, hstep, rfl⟩ := onTable_some htable
      exact .other (by assumption) hstep
    · cases h

end Steps

end SylarHook
