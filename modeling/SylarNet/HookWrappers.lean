import SylarNet.SylarHook

/-!
# The wrappers of the system calls

The functions that take the place of the system calls, as a thread executes them whose
`t_hook_enable` is false; what `do_io` and `connect_with_timeout` do for the others is in
`SylarHook`. `fcntl` and `ioctl` do not look at the thread. The kernel is a parameter: what it
answers to an original call and how that changes its state, which includes `errno`.
-/
namespace HookWrappers

open SylarHook (FdCtx FdManager)

/-- The calls that go through `do_io`, but for `accept`. -/
inductive IoName where
  | read | readv | recv | recvfrom | recvmsg
  | write | writev | send | sendto | sendmsg
  deriving DecidableEq, Repr

inductive FcntlCmd where
  | setFl
  | dupFd | dupFdCloexec | setFd | setOwn | setSig | setLease | notify | setPipeSz
  | getFl
  | getFd | getOwn | getSig | getLease | getPipeSz
  | setLk | setLkw | getLk
  | getOwnEx | setOwnEx
  | other (cmd : ℤ)
  deriving DecidableEq, Repr

/-- The cases of the `switch` in `fcntl`. -/
inductive FcntlGroup where
  | setFl | intArg | getFl | noArg | pointerArg | default
  deriving DecidableEq, Repr

def FcntlCmd.group : FcntlCmd → FcntlGroup
  | .setFl => .setFl
  | .dupFd | .dupFdCloexec | .setFd | .setOwn | .setSig | .setLease | .notify | .setPipeSz =>
    .intArg
  | .getFl => .getFl
  | .getFd | .getOwn | .getSig | .getLease | .getPipeSz => .noArg
  | .setLk | .setLkw | .getLk => .pointerArg
  | .getOwnEx | .setOwnEx => .pointerArg
  | .other _ => .default

inductive Request where
  | fionbio
  | other (request : UInt64)
  deriving DecidableEq, Repr

inductive Arg where
  | int (v : BitVec 32)
  | pointer (p : UInt64)
  deriving DecidableEq, Repr

/-- A system call with its arguments; for `ioctl` also the `int` that the last one points to, if
it can be read. -/
inductive Call where
  | sleep (seconds : UInt32)
  | usleep (usec : UInt32)
  | nanosleep (req rem : UInt64)
  | socket (domain type protocol : ℤ)
  | connect (sockfd : ℤ) (addr : UInt64) (addrlen : UInt32)
  | accept (s : ℤ) (addr addrlen : UInt64)
  | io (name : IoName) (fd : ℤ) (args : List UInt64)
  | close (fd : ℤ)
  | fcntl (fd : ℤ) (cmd : FcntlCmd) (arg : Option Arg)
  | ioctl (d : ℤ) (request : Request) (arg : UInt64) (pointee : Option ℤ)
  | getsockopt (sockfd level optname : ℤ) (optval optlen : UInt64)
  | setsockopt (sockfd level optname : ℤ) (optval : UInt64) (optlen : UInt32)
  | fstat (fd : ℤ)
  deriving DecidableEq, Repr

structure Kernel (K : Type) where
  perform : K → Call → ℤ × K
  /-- `S_ISSOCK` of what `fstat` finds. -/
  isSocket : K → ℤ → Bool

structure State (K : Type) where
  kernel : K
  fds : FdManager
  /-- The original calls so far. -/
  trace : List Call

inductive Fault where
  | outOfRange
  | badPointer
  | endlessRecursion
  | noSuchArgument
  deriving DecidableEq, Repr

def O_NONBLOCK : BitVec 32 := 0x800

namespace State

variable {K : Type} (k : Kernel K)

def original (s : State K) (c : Call) : ℤ × State K :=
  let (r, kernel) := k.perform s.kernel c
  (r, { s with kernel := kernel, trace := s.trace ++ [c] })

/-- `FdMgr::GetInstance()->get(fd)` -/
def get (s : State K) (fd : ℤ) : Except Fault (Option FdCtx) :=
  if fd = -1 then .ok none
  else if fd < 0 then .error .outOfRange
  else .ok (s.fds.get fd.toNat)

/-- The system calls of `FdCtx::init`, and whether the descriptor is a socket. -/
def initFdCtx (s : State K) (fd : ℤ) : Option Bool × State K :=
  let (r, s) := s.original k (.fstat fd)
  if r = -1 then (none, s)
  else if k.isSocket s.kernel fd then
    let (flags, s) := s.original k (.fcntl fd .getFl (some (.int 0)))
    let flags := BitVec.ofInt 32 flags
    if flags &&& O_NONBLOCK = 0 then
      (some true, (s.original k (.fcntl fd .setFl (some (.int (flags ||| O_NONBLOCK))))).2)
    else (some true, s)
  else (some false, s)

/-- `FdMgr::GetInstance()->get(fd, true)` of a descriptor. -/
def autoCreate (s : State K) (fd : ℕ) : State K :=
  match s.fds.get fd with
  | some _ => s
  | none =>
    let (fstat, s) := s.initFdCtx k fd
    { s with fds := s.fds.create fd fstat }

/-- `!ctx || ctx->isClose() || !ctx->isSocket()` is false. -/
def managed (ctx : Option FdCtx) : Option FdCtx :=
  ctx.filter fun c => !c.isClosed && c.isSocket

def setUserNonblock (s : State K) (fd : ℤ) (v : Bool) : State K :=
  { s with fds := s.fds.modify fd.toNat fun c => { c with userNonblock := v } }

def fcntl (s : State K) (fd : ℤ) (cmd : FcntlCmd) (arg : Option Arg) :
    Except Fault (ℤ × State K) :=
  match cmd.group, arg with
  | .setFl, some (.int arg) => do
    let ctx ← s.get fd
    match managed ctx with
    | none => .ok (s.original k (.fcntl fd cmd (some (.int arg))))
    | some ctx =>
      let s := s.setUserNonblock fd (arg &&& O_NONBLOCK ≠ 0)
      let arg := if ctx.sysNonblock then arg ||| O_NONBLOCK else arg &&& ~~~O_NONBLOCK
      .ok (s.original k (.fcntl fd cmd (some (.int arg))))
  | .intArg, some (.int arg) => .ok (s.original k (.fcntl fd cmd (some (.int arg))))
  | .getFl, _ => do
    let (arg, s) := s.original k (.fcntl fd cmd none)
    let ctx ← s.get fd
    match managed ctx with
    | none => .ok (arg, s)
    | some ctx =>
      let arg := BitVec.ofInt 32 arg
      if ctx.userNonblock then .ok ((arg ||| O_NONBLOCK).toInt, s)
      else .ok ((arg &&& ~~~O_NONBLOCK).toInt, s)
  -- These call `fcntl`, not `fcntl_f`.
  | .noArg, _ => .error .endlessRecursion
  | .pointerArg, some (.pointer arg) => .ok (s.original k (.fcntl fd cmd (some (.pointer arg))))
  | .default, _ => .ok (s.original k (.fcntl fd cmd none))
  | _, _ => .error .noSuchArgument

def ioctl (s : State K) (d : ℤ) (request : Request) (arg : UInt64) (pointee : Option ℤ) :
    Except Fault (ℤ × State K) :=
  match request with
  | .fionbio =>
    match pointee with
    | none => .error .badPointer
    | some v => do
      let ctx ← s.get d
      match managed ctx with
      | none => .ok (s.original k (.ioctl d request arg pointee))
      | some _ =>
        let s := s.setUserNonblock d (v ≠ 0)
        .ok (s.original k (.ioctl d request arg pointee))
  | .other _ => .ok (s.original k (.ioctl d request arg pointee))

/-- `do_io` tests `t_hook_enable`, the lookup behind it does not. -/
def accept (s : State K) (sock : ℤ) (addr addrlen : UInt64) : ℤ × State K :=
  let (fd, s) := s.original k (.accept sock addr addrlen)
  if fd ≥ 0 then (fd, s.autoCreate k fd.toNat) else (fd, s)

/-- What the library has in place of a system call. -/
def hooked (s : State K) : Call → Except Fault (ℤ × State K)
  | .accept sock addr addrlen => .ok (s.accept k sock addr addrlen)
  | .fcntl fd cmd arg => s.fcntl k fd cmd arg
  | .ioctl d request arg pointee => s.ioctl k d request arg pointee
  -- `getsockopt` has no code of its own, the others test `t_hook_enable` first.
  | c => .ok (s.original k c)

def step (s : State K) (c : Call) : Option (ℤ × State K) := (s.hooked k c).toOption

end State

end HookWrappers
