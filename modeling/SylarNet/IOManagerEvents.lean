import SylarNet.StepRuns
import Mathlib.Algebra.BigOperators.Group.List.Basic
import Mathlib.Algebra.GroupWithZero.Nat
import Mathlib.Tactic.Tauto

/-!
# The event table of the I/O manager

One `FdContext` per descriptor holds the registered events and, for each of them, whom to
wake. Each operation runs under the lock of its `FdContext` and is one atomic step here.
The kernel is a parameter: `ctl` answers an `epoll_ctl` call with success or failure and the
next kernel state. `Scheduler::schedule` takes a callback or fiber by swapping it out, so
that what was scheduled is kept as a log.
-/
namespace IOManagerEvents

inductive Event where
  | read
  | write
  deriving DecidableEq, Repr

/-- A set of events; `NONE` is the empty one. -/
structure EventMask where
  read : Bool
  write : Bool
  deriving DecidableEq, Repr

namespace EventMask

def NONE : EventMask := ⟨false, false⟩

def has (m : EventMask) : Event → Bool
  | .read => m.read
  | .write => m.write

def add (m : EventMask) : Event → EventMask
  | .read => { m with read := true }
  | .write => { m with write := true }

def remove (m : EventMask) : Event → EventMask
  | .read => { m with read := false }
  | .write => { m with write := false }

def inter (m n : EventMask) : EventMask := ⟨m.read && n.read, m.write && n.write⟩
def diff (m n : EventMask) : EventMask := ⟨m.read && !n.read, m.write && !n.write⟩
def count (m : EventMask) : ℕ := m.read.toNat + m.write.toNat

end EventMask

/-- The part of `epoll_event::events` that `epoll_wait` can report for a descriptor. -/
structure EpollEvents where
  epollin : Bool
  epollout : Bool
  epollerr : Bool
  epollhup : Bool
  deriving DecidableEq, Repr

structure EventContext (S F C : Type) where
  scheduler : Option S
  fiber : Option F
  cb : Option C
  deriving DecidableEq, Repr

structure FdContext (S F C : Type) where
  read : EventContext S F C
  write : EventContext S F C
  fd : ℕ
  events : EventMask
  deriving DecidableEq, Repr

inductive Task (F C : Type) where
  | fiber (f : F)
  | cb (c : C)
  deriving DecidableEq, Repr

inductive Fault where
  | assertion (what : String)
  | nullScheduler
  | counterUnderflow
  | contextOutOfRange
  deriving DecidableEq, Repr

inductive CtlOp where
  | add
  | mod
  | del
  deriving DecidableEq, Repr

structure IOManagerState (K S F C : Type) where
  kernel : K
  fdContexts : List (FdContext S F C)
  pendingEventCount : ℕ
  scheduled : List (S × Task F C)

/-- The value a call returns and the outcome of its `epoll_ctl`, if it came that far. -/
structure Answer where
  value : ℤ
  ctl : Option Bool
  deriving DecidableEq, Repr

variable {K S F C : Type}

namespace EventContext

def empty : EventContext S F C := ⟨none, none, none⟩

/-- The task that scheduling this context hands over, together with its scheduler. -/
def tasks (c : EventContext S F C) : List (S × Task F C) :=
  match c.scheduler, c.cb, c.fiber with
  | none, _, _ => []
  | some s, some cb, _ => [(s, .cb cb)]
  | some s, none, some f => [(s, .fiber f)]
  | some _, none, none => []

end EventContext

namespace FdContext

def fresh (fd : ℕ) : FdContext S F C := ⟨.empty, .empty, fd, .NONE⟩

def getContext (ctx : FdContext S F C) : Event → EventContext S F C
  | .read => ctx.read
  | .write => ctx.write

def setContext (ctx : FdContext S F C) (c : EventContext S F C) : Event → FdContext S F C
  | .read => { ctx with read := c }
  | .write => { ctx with write := c }

def resetContext (ctx : FdContext S F C) (event : Event) : FdContext S F C :=
  ctx.setContext .empty event

/-- Also returns what it hands to the scheduler. A callback has precedence over a fiber, and
only the one that is scheduled is swapped out of the context. -/
def triggerEvent (ctx : FdContext S F C) (event : Event) :
    Except Fault (FdContext S F C × List (S × Task F C)) :=
  if !ctx.events.has event then .error (.assertion "events & event")
  else
    let ctx := { ctx with events := ctx.events.remove event }
    let c := ctx.getContext event
    match c.scheduler with
    | none => .error .nullScheduler
    | some _ =>
      let swapped := if c.cb.isSome then { c with cb := none } else { c with fiber := none }
      .ok (ctx.setContext { swapped with scheduler := none } event, c.tasks)

end FdContext

/-- `--m_pendingEventCount`. -/
def decrement : ℕ → Except Fault ℕ
  | 0 => .error .counterUnderflow
  | n + 1 => .ok n

namespace IOManagerState

def contextResize (s : IOManagerState K S F C) (size : ℕ) : IOManagerState K S F C :=
  { s with
    fdContexts := s.fdContexts.take size ++
      (List.range' s.fdContexts.length (size - s.fdContexts.length)).map FdContext.fresh }

/-- The table after the constructor, whose pipe is already registered in the kernel. -/
def construct (k : K) : IOManagerState K S F C :=
  contextResize ⟨k, [], 0, []⟩ 32

/-- The context of a descriptor; where none was created yet, the one that will be. -/
def context (s : IOManagerState K S F C) (fd : ℕ) : FdContext S F C :=
  (s.fdContexts[fd]?).getD (.fresh fd)

variable (ctl : K → CtlOp → ℕ → EventMask → Bool × K)

/-- `cb` may be empty, then the running fiber `self` is resumed; `this` is the scheduler of
the calling thread. -/
def addEvent (s : IOManagerState K S F C) (fd : ℕ) (event : Event) (cb : Option C)
    (this : Option S) (self : F) : Except Fault (Answer × IOManagerState K S F C) :=
  let s := if fd < s.fdContexts.length then s else s.contextResize (fd * 3 / 2)
  match s.fdContexts[fd]? with
  | none => .error .contextOutOfRange
  | some ctx =>
    if ctx.events.has event then .error (.assertion "!(fd_context->events & event)")
    else
      let op := if ctx.events = .NONE then .add else .mod
      let (ok, k) := ctl s.kernel op fd (ctx.events.add event)
      if !ok then .ok (⟨-1, some false⟩, { s with kernel := k })
      else
        let c := ctx.getContext event
        if c.scheduler.isSome || c.fiber.isSome || c.cb.isSome then
          .error (.assertion "!event_ctx.scheduler && !event_ctx.fiber && !event_ctx.cb")
        else
          let c := if cb.isSome then ⟨this, none, cb⟩ else ⟨this, some self, none⟩
          let ctx := { ctx with events := ctx.events.add event }.setContext c event
          .ok (⟨0, some true⟩,
            { s with
              kernel := k
              fdContexts := s.fdContexts.set fd ctx
              pendingEventCount := s.pendingEventCount + 1 })

def delEvent (s : IOManagerState K S F C) (fd : ℕ) (event : Event) :
    Except Fault (Answer × IOManagerState K S F C) :=
  match s.fdContexts[fd]? with
  | none => .ok (⟨0, none⟩, s)
  | some ctx =>
    if !ctx.events.has event then .ok (⟨0, none⟩, s)
    else
      let newEvents := ctx.events.remove event
      let op := if newEvents = .NONE then .del else .mod
      let (ok, k) := ctl s.kernel op fd newEvents
      if !ok then .ok (⟨0, some false⟩, { s with kernel := k })
      else do
        let n ← decrement s.pendingEventCount
        let ctx := { ctx with events := newEvents }.resetContext event
        .ok (⟨1, some true⟩,
          { s with
            kernel := k
            fdContexts := s.fdContexts.set fd ctx
            pendingEventCount := n })

def cancelEvent (s : IOManagerState K S F C) (fd : ℕ) (event : Event) :
    Except Fault (Answer × IOManagerState K S F C) :=
  match s.fdContexts[fd]? with
  | none => .ok (⟨0, none⟩, s)
  | some ctx =>
    if !ctx.events.has event then .ok (⟨0, none⟩, s)
    else
      let newEvents := ctx.events.remove event
      let op := if newEvents = .NONE then .del else .mod
      let (ok, k) := ctl s.kernel op fd newEvents
      if !ok then .ok (⟨0, some false⟩, { s with kernel := k })
      else do
        let (ctx, tasks) ← ctx.triggerEvent event
        let n ← decrement s.pendingEventCount
        .ok (⟨1, some true⟩,
          { s with
            kernel := k
            fdContexts := s.fdContexts.set fd ctx
            pendingEventCount := n
            scheduled := s.scheduled ++ tasks })

/-- `if (events & event) { triggerEvent(event); --m_pendingEventCount; }`, on a context, the
counter and what was scheduled so far. -/
def triggerIfSet (event : Event) (r : FdContext S F C × ℕ × List (S × Task F C)) :
    Except Fault (FdContext S F C × ℕ × List (S × Task F C)) :=
  if r.1.events.has event then do
    let (ctx, tasks) ← r.1.triggerEvent event
    let n ← decrement r.2.1
    .ok (ctx, n, r.2.2 ++ tasks)
  else .ok r

def cancelAll (s : IOManagerState K S F C) (fd : ℕ) :
    Except Fault (Answer × IOManagerState K S F C) :=
  match s.fdContexts[fd]? with
  | none => .ok (⟨0, none⟩, s)
  | some ctx =>
    if ctx.events = .NONE then .ok (⟨0, none⟩, s)
    else
      let (ok, k) := ctl s.kernel .del fd .NONE
      if !ok then .ok (⟨0, some false⟩, { s with kernel := k })
      else do
        let r ← triggerIfSet .read (ctx, s.pendingEventCount, s.scheduled)
        let (ctx, n, scheduled) ← triggerIfSet .write r
        if ctx.events ≠ .NONE then .error (.assertion "fd_ctx->events == 0")
        else
          .ok (⟨1, some true⟩,
            { s with
              kernel := k
              fdContexts := s.fdContexts.set fd ctx
              pendingEventCount := n
              scheduled := scheduled })

/-- The events `epoll_wait` reports; an error or a hang-up stands for all registered ones. -/
def realEvents (events : EventMask) (e : EpollEvents) : EventMask :=
  let widen := e.epollerr || e.epollhup
  ⟨e.epollin || (widen && events.read), e.epollout || (widen && events.write)⟩

/-- The body of the loop of `idle` over the reported events, for one that carries the
context of `fd`. Once the left-over mask is with the kernel, both events are tested against
the registered mask again, not against the reported one. -/
def dispatch (s : IOManagerState K S F C) (fd : ℕ) (e : EpollEvents) :
    Except Fault (Answer × IOManagerState K S F C) :=
  match s.fdContexts[fd]? with
  | none => .error .contextOutOfRange
  | some ctx =>
    let real := realEvents ctx.events e
    if ctx.events.inter real = .NONE then .ok (⟨0, none⟩, s)
    else
      let left := ctx.events.diff real
      let op := if left = .NONE then .del else .mod
      let (ok, k) := ctl s.kernel op ctx.fd left
      if !ok then .ok (⟨0, some false⟩, { s with kernel := k })
      else do
        let r ← triggerIfSet .read (ctx, s.pendingEventCount, s.scheduled)
        let (ctx, n, scheduled) ← triggerIfSet .write r
        .ok (⟨0, some true⟩,
          { s with
            kernel := k
            fdContexts := s.fdContexts.set fd ctx
            pendingEventCount := n
            scheduled := scheduled })

end IOManagerState

end IOManagerEvents
