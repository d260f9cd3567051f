import Mathlib.Data.Nat.Bitwise
import SylarNet.HookWrappers

/-!
# What the wrappers hide and what they show

For a thread without the hook the wrappers should not be there. For a socket with an `FdCtx`
they keep two views of one flag: that of the kernel, always set, and that of the user.
-/
namespace HookTransparency

open HookWrappers StepRuns
open SylarHook (FdCtx FdManager)

/-!
## Threads without the hook
-/

section Transparency

variable {K : Type} {k : Kernel K} {fds : FdManager}

/-- The system without the library: the kernel and the calls it gets. -/
def bareStep (k : Kernel K) (b : K × List Call) (c : Call) : Option (ℤ × (K × List Call)) :=
  let (r, kernel) := k.perform b.1 c
  some (r, (kernel, b.2 ++ [c]))

/-- The kernel is in the same state after the same calls, and the table of `FdCtx` is as it
was. -/
structure Transparent (fds : FdManager) (s : State K) (b : K × List Call) : Prop where
  kernel : s.kernel = b.1
  trace : s.trace = b.2
  fds : s.fds = fds

/-- The argument that the documentation of the command asks for. -/
def WellTyped : Call → Prop
  | .fcntl _ cmd arg =>
    match cmd.group with
    | .setFl | .intArg => ∃ v, arg = some (.int v)
    | .getFl | .noArg => arg = none
    | .pointerArg => ∃ p, arg = some (.pointer p)
    | .default => True
  | _ => True

def descriptor : Call → Option ℤ
  | .connect fd _ _ | .accept fd _ _ | .io _ fd _ | .close fd | .fcntl fd _ _ | .ioctl fd _ _ _
  | .getsockopt fd _ _ _ _ | .setsockopt fd _ _ _ _ | .fstat fd => some fd
  | .sleep _ | .usleep _ | .nanosleep _ _ | .socket _ _ _ => none

/-- The descriptor of the call has no `FdCtx`, nor has the one that it accepts. -/
structure Unmanaged (k : Kernel K) (s : State K) (c : Call) : Prop where
  wellTyped : WellTyped c
  descriptor : ∀ fd : ℕ, descriptor c = some (fd : ℤ) → s.fds.get fd = none
  accepted : ∀ sock addr addrlen, c = .accept sock addr addrlen →
    ∀ fd : ℕ, (k.perform s.kernel c).1 = fd → s.fds.get fd = none

/-- What is not passed on as it is: an `accept` that succeeds, the commands of `fcntl` that have
no argument but for `F_GETFL`, the argument of one that is not in the `switch`, and what is not
tested before it is used. -/
def Passed (k : Kernel K) (s : State K) : Call → Prop
  | .accept sock addr addrlen => (k.perform s.kernel (.accept sock addr addrlen)).1 < 0
  | .fcntl fd cmd arg =>
    match cmd.group with
    | .setFl | .getFl => -1 ≤ fd
    | .noArg => False
    | .default => arg = none
    | .intArg | .pointerArg => True
  | .ioctl d .fionbio _ pointee => pointee ≠ none ∧ -1 ≤ d
  | _ => True

variable {s t : State K} {b : K × List Call}

theorem Transparent.original (h : Transparent fds s b) (c : Call) :
    ∃ g, bareStep k b c = some ((s.original k c).1, g) ∧
      Transparent fds (s.original k c).2 g := by
  refine ⟨_, by rw [bareStep, ← h.kernel]; rfl, rfl, ?_, h.fds⟩
  rw [← h.trace]
  rfl

theorem step_iff {c : Call} {r : ℤ} : s.step k c = some (r, t) ↔ s.hooked k c = .ok (r, t) := by
  cases hc : s.hooked k c <;> simp [State.step, hc, Except.toOption]

/-- A wrapper that does what it stands for. -/
theorem Transparent.of_original {c : Call} (h : Transparent fds s b)
    (hc : s.hooked k c = .ok (s.original k c)) :
    ∃ r t g, s.step k c = some (r, t) ∧ bareStep k b c = some (r, g) ∧ Transparent fds t g := by
  obtain ⟨g, hg, hr⟩ := h.original (k := k) c
  exact ⟨_, _, g, step_iff.2 hc, hg, hr⟩

/-- A wrapper that leaves another trace is not transparent. -/
theorem not_transparent_of_trace {c : Call} (h : Transparent fds s b)
    (ht : ∀ r t, s.hooked k c = .ok (r, t) → t.trace ≠ s.trace ++ [c]) :
    ¬ ∃ r t g, s.step k c = some (r, t) ∧ bareStep k b c = some (r, g) ∧
      Transparent fds t g := by
  rintro ⟨r, t, g, hs, hb, hr⟩
  apply ht r t (step_iff.1 hs)
  cases hb
  rw [hr.trace, h.trace]

theorem not_transparent_of_error {c : Call} (fault : Fault) (hf : s.hooked k c = .error fault) :
    ¬ ∃ r t g, s.step k c = some (r, t) ∧ bareStep k b c = some (r, g) ∧
      Transparent fds t g := by
  rintro ⟨r, t, g, hs, -⟩
  cases hf.symm.trans (step_iff.1 hs)

theorem get_of_unmanaged {fd : ℤ} (h : ∀ n : ℕ, some fd = some (n : ℤ) → s.fds.get n = none) :
    s.get fd = if -1 ≤ fd then .ok none else .error .outOfRange := by
  unfold State.get
  split
  · rw [if_pos (by omega)]
  · split
    · rw [if_neg (by omega)]
    · next hneg =>
      rw [if_pos (by omega), h fd.toNat (by rw [Int.toNat_of_nonneg (Int.not_lt.1 hneg)])]

theorem length_trace_original (s : State K) (c : Call) :
    (s.original k c).2.trace.length = s.trace.length + 1 := by
  simp [State.original]

/-- `FdCtx::init` asks the kernel. -/
theorem length_trace_autoCreate {fd : ℕ} (h : s.fds.get fd = none) :
    s.trace.length < (s.autoCreate k fd).trace.length := by
  unfold State.autoCreate
  rw [h]
  change s.trace.length < (s.initFdCtx k fd).2.trace.length
  unfold State.initFdCtx
  dsimp only
  split
  · rw [length_trace_original]
    exact Nat.lt_succ_self _
  · split
    · split
      · rw [length_trace_original, length_trace_original, length_trace_original]
        omega
      · rw [length_trace_original, length_trace_original]
        omega
    · rw [length_trace_original]
      exact Nat.lt_succ_self _

theorem accept_exact {sock : ℤ} {addr addrlen : UInt64} (h : Transparent fds s b)
    (hok : Unmanaged k s (.accept sock addr addrlen)) :
    (∃ r t g, s.step k (.accept sock addr addrlen) = some (r, t) ∧
      bareStep k b (.accept sock addr addrlen) = some (r, g) ∧ Transparent fds t g) ↔
      Passed k s (.accept sock addr addrlen) := by
  constructor
  · intro hex
    by_contra hneg
    obtain ⟨fd, hfd⟩ := Int.eq_ofNat_of_zero_le (Int.not_lt.1 hneg)
    refine not_transparent_of_trace h ?_ hex
    intro r t ht
    have hget := hok.accepted sock addr addrlen rfl fd hfd
    have hlt := length_trace_autoCreate (k := k)
      (s := (s.original k (.accept sock addr addrlen)).2) hget
    simp only [State.hooked, State.accept] at ht
    rw [if_pos (by exact Int.not_lt.1 hneg)] at ht
    cases ht
    intro heq
    rw [show (s.original k (.accept sock addr addrlen)).1.toNat = fd by
      exact (congrArg Int.toNat hfd).trans (Int.toNat_natCast fd)] at heq
    rw [heq, length_trace_original] at hlt
    simp at hlt
  · intro hneg
    apply h.of_original
    simp only [State.hooked, State.accept]
    rw [if_neg (by exact Int.not_le.2 hneg)]

theorem fcntl_exact {fd : ℤ} {cmd : FcntlCmd} {arg : Option Arg} (h : Transparent fds s b)
    (hok : Unmanaged k s (.fcntl fd cmd arg)) :
    (∃ r t g, s.step k (.fcntl fd cmd arg) = some (r, t) ∧
      bareStep k b (.fcntl fd cmd arg) = some (r, g) ∧ Transparent fds t g) ↔
      Passed k s (.fcntl fd cmd arg) := by
  have hget := get_of_unmanaged hok.descriptor
  have htyped := hok.wellTyped
  have hmanaged : State.managed none = none := rfl
  simp only [WellTyped] at htyped
  cases hgroup : cmd.group with
  | setFl =>
    rw [hgroup] at htyped
    obtain ⟨v, rfl⟩ := htyped
    simp only [Passed, hgroup]
    by_cases hfd : -1 ≤ fd
    · refine iff_of_true (h.of_original ?_) hfd
      simp only [State.hooked, State.fcntl, hgroup, hget, if_pos hfd, bind, Except.bind, hmanaged]
    · refine iff_of_false (not_transparent_of_error .outOfRange ?_) hfd
      simp only [State.hooked, State.fcntl, hgroup, hget, if_neg hfd, bind, Except.bind]
  | intArg =>
    rw [hgroup] at htyped
    obtain ⟨v, rfl⟩ := htyped
    simp only [Passed, hgroup]
    refine iff_of_true (h.of_original ?_) trivial
    simp only [State.hooked, State.fcntl, hgroup]
  | getFl =>
    rw [hgroup] at htyped
    subst htyped
    have hget' : ∀ c, (s.original k c).2.get fd =
        if -1 ≤ fd then .ok none else .error .outOfRange := fun _ => hget
    simp only [Passed, hgroup]
    by_cases hfd : -1 ≤ fd
    · refine iff_of_true (h.of_original ?_) hfd
      simp only [State.hooked, State.fcntl, hgroup, hget', if_pos hfd, bind, Except.bind, hmanaged]
    · refine iff_of_false (not_transparent_of_error .outOfRange ?_) hfd
      simp only [State.hooked, State.fcntl, hgroup, hget', if_neg hfd, bind, Except.bind]
  | noArg =>
    simp only [Passed, hgroup]
    refine iff_of_false (not_transparent_of_error .endlessRecursion ?_) id
    simp only [State.hooked, State.fcntl, hgroup]
  | pointerArg =>
    rw [hgroup] at htyped
    obtain ⟨p, rfl⟩ := htyped
    simp only [Passed, hgroup]
    refine iff_of_true (h.of_original ?_) trivial
    simp only [State.hooked, State.fcntl, hgroup]
  | default =>
    simp only [Passed, hgroup]
    have hhooked : s.hooked k (.fcntl fd cmd arg) = .ok (s.original k (.fcntl fd cmd none)) := by
      simp only [State.hooked, State.fcntl, hgroup]
    cases arg with
    | none => exact iff_of_true (h.of_original hhooked) rfl
    | some arg =>
      refine iff_of_false (not_transparent_of_trace h ?_) nofun
      intro r t ht heq
      rw [hhooked] at ht
      cases ht
      simp at heq

theorem ioctl_exact {d : ℤ} {request : Request} {arg : UInt64} {pointee : Option ℤ}
    (h : Transparent fds s b) (hok : Unmanaged k s (.ioctl d request arg pointee)) :
    (∃ r t g, s.step k (.ioctl d request arg pointee) = some (r, t) ∧
      bareStep k b (.ioctl d request arg pointee) = some (r, g) ∧ Transparent fds t g) ↔
      Passed k s (.ioctl d request arg pointee) := by
  have hget := get_of_unmanaged hok.descriptor
  cases request with
  | other request => exact iff_of_true (h.of_original rfl) trivial
  | fionbio =>
    cases pointee with
    | none => exact iff_of_false (not_transparent_of_error .badPointer rfl) fun hc => hc.1 rfl
    | some v =>
      by_cases hd : -1 ≤ d
      · refine iff_of_true (h.of_original ?_) ⟨nofun, hd⟩
        simp only [State.hooked, State.ioctl, hget, if_pos hd, bind, Except.bind]
        rfl
      · refine iff_of_false (not_transparent_of_error .outOfRange ?_) fun hc => hd hc.2
        simp only [State.hooked, State.ioctl, hget, if_neg hd, bind, Except.bind]

theorem transparent_exact (c : Call) (h : Transparent fds s b) (hok : Unmanaged k s c) :
    (∃ r t g, s.step k c = some (r, t) ∧ bareStep k b c = some (r, g) ∧ Transparent fds t g) ↔
      Passed k s c := by
  cases c with
  | accept sock addr addrlen => exact accept_exact h hok
  | fcntl fd cmd arg => exact fcntl_exact h hok
  | ioctl d request arg pointee => exact ioctl_exact h hok
  | _ => exact iff_of_true (h.of_original rfl) trivial

/-- A thread without the hook sees the system calls themselves, and the kernel sees no others,
exactly as long as its calls are among those that are passed on. -/
theorem unhooked_transparent_iff (k : Kernel K) (kernel : K) (fds : FdManager) (calls : List Call)
    (hcalls : Guarded (Unmanaged k) (State.step k) ⟨kernel, fds, []⟩ calls) :
    (∀ n, ∃ rs u v, run (State.step k) ⟨kernel, fds, []⟩ (calls.take n) = some (rs, u) ∧
      run (bareStep k) (kernel, []) (calls.take n) = some (rs, v) ∧ Transparent fds u v) ↔
      Guarded (Passed k) (State.step k) ⟨kernel, fds, []⟩ calls := by
  apply forall_run_related_iff_guarded ?_ ⟨rfl, rfl, rfl⟩ hcalls
  intro s b c h hok
  exact transparent_exact c h hok

theorem get_construct (fd : ℕ) : FdManager.construct.get fd = none := by
  rw [FdManager.get, FdManager.construct, List.getElem?_replicate]
  split <;> rfl

/-- A kernel with one socket, of descriptor 4; its state are the flags of the socket. -/
def oneSocket : Kernel (BitVec 32) where
  perform flags
    | .socket _ _ _ => (4, flags)
    | .accept _ _ _ => (4, flags)
    | .fcntl 4 .getFl _ => (flags.toInt, flags)
    | .fcntl 4 .setFl (some (.int v)) => (0, v)
    | _ => (0, flags)
  isSocket _ _ := true

theorem unmanaged_construct {s : State K} {c : Call} (hs : s.fds = FdManager.construct)
    (hc : WellTyped c) : Unmanaged k s c := by
  refine ⟨hc, ?_, ?_⟩
  · intro fd _
    rw [hs, get_construct]
  · intro _ _ _ _ fd _
    rw [hs, get_construct]

theorem unhooked_transparent_socket :
    ∃ rs u v,
      run (State.step oneSocket) ⟨2, FdManager.construct, []⟩
        [.socket 2 1 0, .fcntl 4 .setFl (some (.int 2050)), .fcntl 4 .getFl none] =
          some (rs, u) ∧
      run (bareStep oneSocket) (2, [])
        [.socket 2 1 0, .fcntl 4 .setFl (some (.int 2050)), .fcntl 4 .getFl none] =
          some (rs, v) ∧
      Transparent FdManager.construct u v := by
  refine (unhooked_transparent_iff oneSocket 2 FdManager.construct
    [.socket 2 1 0, .fcntl 4 .setFl (some (.int 2050)), .fcntl 4 .getFl none] ?_).2 ?_ 3
  · refine ⟨unmanaged_construct rfl trivial, ?_⟩
    rintro _ _ ⟨⟩
    refine ⟨unmanaged_construct rfl ⟨_, rfl⟩, ?_⟩
    rintro _ _ ⟨⟩
    refine ⟨unmanaged_construct rfl rfl, ?_⟩
    intros
    trivial
  · refine ⟨trivial, ?_⟩
    rintro _ _ ⟨⟩
    refine ⟨(by decide : (-1 : ℤ) ≤ 4), ?_⟩
    rintro _ _ ⟨⟩
    refine ⟨(by decide : (-1 : ℤ) ≤ 4), ?_⟩
    intros
    trivial

/-- Behind the wrapper of `accept` the socket no longer blocks. -/
theorem accept_not_transparent :
    Guarded (Unmanaged oneSocket) (State.step oneSocket) ⟨2, FdManager.construct, []⟩
      [.accept 3 0 0] ∧
    ∃ u v, run (State.step oneSocket) ⟨2, FdManager.construct, []⟩ [.accept 3 0 0] =
        some ([4], u) ∧
      run (bareStep oneSocket) (2, []) [.accept 3 0 0] = some ([4], v) ∧
      u.kernel = 2050 ∧ v.1 = 2 ∧ ¬ Transparent FdManager.construct u v := by
  refine ⟨⟨unmanaged_construct rfl trivial, by intros; trivial⟩, _, _, rfl, rfl, rfl, rfl, ?_⟩
  intro h
  exact absurd h.kernel (by decide)

end Transparency

/-!
## Sockets with an `FdCtx`
-/

/-- A call on the socket, with the flags or the value it asks for, and whether the kernel does
it. -/
inductive Control where
  | setFl (flags : BitVec 32) (granted : Bool)
  | getFl
  | fionbio (v : ℤ) (arg : UInt64) (granted : Bool)
  deriving DecidableEq, Repr

/-- The status flags of a socket; `F_SETFL` changes those of `mask`. -/
def socketKernel (mask : BitVec 32) (granted : Bool) : Kernel (BitVec 32) where
  perform flags
    | .fcntl _ .getFl _ => (flags.toInt, flags)
    | .fcntl _ .setFl (some (.int arg)) =>
      if granted then (0, flags &&& ~~~mask ||| arg &&& mask) else (-1, flags)
    | .ioctl _ .fionbio _ (some v) =>
      if granted then (0, if v = 0 then flags &&& ~~~O_NONBLOCK else flags ||| O_NONBLOCK)
      else (-1, flags)
    | .fstat _ => (0, flags)
    | _ => (-1, flags)
  isSocket _ _ := true

/-- The socket with what its user has asked for: whether it is not to block, and the other flags
as they were last set. -/
structure Socket where
  state : State (BitVec 32)
  asked : Bool
  others : BitVec 32
  /-- The answers of `F_GETFL`, each with what was asked for. -/
  reports : List (Bool × BitVec 32 × ℤ)

section Virtualisation

variable (mask : BitVec 32) (fd : ℕ)

def control (s : Socket) : Control → Except Fault (ℤ × Socket)
  | .setFl flags granted => do
    let (r, state) ← s.state.fcntl (socketKernel mask granted) fd .setFl (some (.int flags))
    .ok (r, { s with
      state := state
      asked := flags &&& O_NONBLOCK ≠ 0
      others := if granted then (s.others &&& ~~~mask ||| flags &&& mask) &&& ~~~O_NONBLOCK
        else s.others })
  | .getFl => do
    let (r, state) ← s.state.fcntl (socketKernel mask true) fd .getFl none
    .ok (r, { s with state := state, reports := s.reports ++ [(s.asked, s.others, r)] })
  | .fionbio v arg granted => do
    let (r, state) ← s.state.ioctl (socketKernel mask granted) fd .fionbio arg (some v)
    .ok (r, { s with state := state, asked := v ≠ 0 })

def controlStep (s : Socket) (c : Control) : Option (ℤ × Socket) := (control mask fd s c).toOption

/-- The socket once it has its `FdCtx`. -/
def Socket.managed (flags : BitVec 32) (fds : FdManager) : Socket where
  state := State.autoCreate (socketKernel mask true) ⟨flags, fds, []⟩ fd
  asked := false
  others := flags &&& ~~~O_NONBLOCK
  reports := []

/-- What `F_GETFL` should say. -/
def visible (asked : Bool) (others : BitVec 32) : BitVec 32 :=
  if asked then others ||| O_NONBLOCK else others

structure Virtual (s : Socket) : Prop where
  kernel : s.state.kernel &&& O_NONBLOCK = O_NONBLOCK
  user : ∃ ctx, s.state.fds.get fd = some ctx ∧ ctx.sysNonblock = true ∧
    ctx.userNonblock = s.asked
  reports : ∀ r ∈ s.reports, BitVec.ofInt 32 r.2.2 = visible r.1 r.2.1

/-- The kernel is not asked to let the socket block. -/
def Nonblocking (_ : Socket) : Control → Prop
  | .fionbio v _ granted => v = 0 → granted = false
  | _ => True

/-- The `FdCtx` is that of an open socket, and the other flags are those of the kernel. -/
structure Managed (s : Socket) : Prop where
  ctx : ∃ ctx, s.state.fds.get fd = some ctx ∧ ctx.isSocket = true ∧ ctx.isClosed = false ∧
    ctx.sysNonblock = true
  others : s.state.kernel &&& ~~~O_NONBLOCK = s.others

section Bits

variable {w : ℕ} (flags arg mask n : BitVec w)

theorem setFl_and (h : flags &&& n = n) :
    (flags &&& ~~~mask ||| (arg ||| n) &&& mask) &&& n = n := by
  ext i hi
  have hbit := congrArg (fun v : BitVec w => v[i]) h
  simp only [BitVec.getElem_and] at hbit
  simp only [BitVec.getElem_and, BitVec.getElem_or, BitVec.getElem_not]
  cases hn : n[i] <;> cases hf : flags[i] <;> simp_all

theorem setFl_and_not : (flags &&& ~~~mask ||| (arg ||| n) &&& mask) &&& ~~~n =
    ((flags &&& ~~~n) &&& ~~~mask ||| arg &&& mask) &&& ~~~n := by
  ext i hi
  simp only [BitVec.getElem_and, BitVec.getElem_or, BitVec.getElem_not]
  cases n[i] <;> simp

theorem setFl_self_and_not :
    (flags &&& ~~~mask ||| (flags ||| n) &&& mask) &&& ~~~n = flags &&& ~~~n := by
  ext i hi
  simp only [BitVec.getElem_and, BitVec.getElem_or, BitVec.getElem_not]
  cases n[i] <;> cases mask[i] <;> simp

theorem setFl_and_of_mask (h : mask &&& n = n) :
    (flags &&& ~~~mask ||| (arg ||| n) &&& mask) &&& n = n := by
  ext i hi
  have hbit := congrArg (fun v : BitVec w => v[i]) h
  simp only [BitVec.getElem_and] at hbit
  simp only [BitVec.getElem_and, BitVec.getElem_or, BitVec.getElem_not]
  cases hn : n[i] <;> cases hm : mask[i] <;> simp_all

theorem or_and_self : (flags ||| n) &&& n = n := by
  ext i hi
  simp only [BitVec.getElem_and, BitVec.getElem_or]
  cases n[i] <;> simp

theorem or_and_not : (flags ||| n) &&& ~~~n = flags &&& ~~~n := by
  ext i hi
  simp only [BitVec.getElem_and, BitVec.getElem_or, BitVec.getElem_not]
  cases n[i] <;> simp

theorem and_not_or : flags &&& ~~~n ||| n = flags ||| n := by
  ext i hi
  simp only [BitVec.getElem_and, BitVec.getElem_or, BitVec.getElem_not]
  cases n[i] <;> simp

theorem and_not_and : flags &&& ~~~n &&& n = 0 := by
  ext i hi
  simp only [BitVec.getElem_and, BitVec.getElem_not]
  cases n[i] <;> simp

end Bits

variable {mask fd} {s t : Socket} {k : Kernel (BitVec 32)} {ctx : FdCtx}

theorem get_modify {m : FdManager} {g : FdCtx → FdCtx} (h : m.get fd = some ctx) :
    (m.modify fd g).get fd = some (g ctx) := by
  have hin : fd < m.length := by
    by_contra hout
    rw [FdManager.get, List.getElem?_eq_none (Nat.le_of_not_lt hout)] at h
    cases h
  rw [FdManager.modify, h, FdManager.get, List.getElem?_set_self hin]
  rfl

theorem get_of_get {s : State (BitVec 32)} (h : s.fds.get fd = some ctx) :
    s.get fd = .ok (some ctx) := by
  rw [State.get, if_neg (by omega), if_neg (by omega), Int.toNat_natCast, h]

theorem managed_some (hsock : ctx.isSocket = true) (hopen : ctx.isClosed = false) :
    State.managed (some ctx) = some ctx := by
  simp [State.managed, hsock, hopen]

theorem controlStep_iff {c : Control} {r : ℤ} :
    controlStep mask fd s c = some (r, t) ↔ control mask fd s c = .ok (r, t) := by
  cases hc : control mask fd s c <;> simp [controlStep, hc, Except.toOption]

theorem get_setUserNonblock {s : State (BitVec 32)} (h : s.fds.get fd = some ctx) (b : Bool) :
    (s.setUserNonblock fd b).fds.get fd = some { ctx with userNonblock := b } :=
  get_modify h

theorem Managed.of_setUserNonblock {b : Bool} (h : Managed fd s)
    (hfds : t.state.fds = (s.state.setUserNonblock fd b).fds)
    (hothers : t.state.kernel &&& ~~~O_NONBLOCK = t.others) : Managed fd t := by
  obtain ⟨ctx, hget, hctx⟩ := h.ctx
  refine ⟨⟨{ ctx with userNonblock := b }, ?_, hctx⟩, hothers⟩
  rw [hfds]
  exact get_setUserNonblock hget b

theorem Virtual.of_setUserNonblock {b : Bool} (h : Virtual fd s)
    (hfds : t.state.fds = (s.state.setUserNonblock fd b).fds) (hasked : t.asked = b)
    (hreports : t.reports = s.reports) (hkernel : t.state.kernel &&& O_NONBLOCK = O_NONBLOCK) :
    Virtual fd t := by
  obtain ⟨ctx, hget, hsys, -⟩ := h.user
  refine ⟨hkernel, ⟨{ ctx with userNonblock := b }, ?_, hsys, hasked.symm⟩, hreports ▸ h.reports⟩
  rw [hfds]
  exact get_setUserNonblock hget b

/-- `F_SETFL` on such a socket always asks the kernel for `O_NONBLOCK`. -/
theorem Managed.setFl (h : Managed fd s) (flags : BitVec 32) (granted : Bool) :
    ∃ r t, controlStep mask fd s (.setFl flags granted) = some (r, t) ∧ Managed fd t ∧
      (Virtual fd s → Virtual fd t) := by
  obtain ⟨ctx, hget, hsock, hopen, hsys⟩ := h.ctx
  have hcall : s.state.fcntl (socketKernel mask granted) fd .setFl (some (.int flags)) =
      .ok ((s.state.setUserNonblock fd (flags &&& O_NONBLOCK ≠ 0)).original
        (socketKernel mask granted) (.fcntl fd .setFl (some (.int (flags ||| O_NONBLOCK))))) := by
    simp only [State.fcntl, FcntlCmd.group, get_of_get hget, bind, Except.bind,
      managed_some hsock hopen, hsys, if_true]
  refine ⟨_, _, controlStep_iff.2 (by rw [control, hcall]; rfl), ?_, ?_⟩
  · apply h.of_setUserNonblock rfl
    cases granted with
    | true =>
      refine (setFl_and_not ..).trans ?_
      rw [← h.others]
      rfl
    | false => exact h.others
  · intro hv
    refine hv.of_setUserNonblock (b := flags &&& O_NONBLOCK ≠ 0) ?_ ?_ ?_ ?_
    · rfl
    · rfl
    · rfl
    · cases granted with
      | true => exact setFl_and _ _ _ _ hv.kernel
      | false => exact hv.kernel

theorem Managed.getFl (h : Managed fd s) :
    ∃ r t, controlStep mask fd s .getFl = some (r, t) ∧ Managed fd t ∧
      (Virtual fd s → Virtual fd t) := by
  obtain ⟨ctx, hget, hsock, hopen, hsys⟩ := h.ctx
  have horiginal : s.state.original (socketKernel mask true) (.fcntl fd .getFl none) =
      (s.state.kernel.toInt, { s.state with trace := s.state.trace ++ [.fcntl fd .getFl none] }) :=
    rfl
  have hcall : s.state.fcntl (socketKernel mask true) fd .getFl none =
      .ok ((visible ctx.userNonblock s.others).toInt,
        { s.state with trace := s.state.trace ++ [.fcntl fd .getFl none] }) := by
    have hget' : ({ s.state with trace := s.state.trace ++ [.fcntl fd .getFl none] } :
        State (BitVec 32)).get fd = .ok (some ctx) := get_of_get hget
    simp only [State.fcntl, FcntlCmd.group, horiginal, hget', bind, Except.bind,
      managed_some hsock hopen, BitVec.ofInt_toInt, visible, ← h.others, and_not_or]
    split <;> rfl
  refine ⟨_, _, controlStep_iff.2 (by rw [control, hcall]; rfl), ?_, ?_⟩
  · exact ⟨⟨ctx, hget, hsock, hopen, hsys⟩, h.others⟩
  · intro hv
    obtain ⟨ctx', hget', -, hasked⟩ := hv.user
    cases hget.symm.trans hget'
    refine ⟨hv.kernel, hv.user, ?_⟩
    intro r hr
    rcases List.mem_append.1 hr with hr | hr
    · exact hv.reports r hr
    · rw [List.mem_singleton] at hr
      subst hr
      rw [BitVec.ofInt_toInt, hasked]

/-- `FIONBIO` reaches the kernel as it is. -/
theorem Managed.fionbio (h : Managed fd s) (v : ℤ) (arg : UInt64) (granted : Bool) :
    ∃ r t, controlStep mask fd s (.fionbio v arg granted) = some (r, t) ∧ Managed fd t ∧
      (Virtual fd s → (Virtual fd t ↔ (v = 0 → granted = false))) := by
  obtain ⟨ctx, hget, hsock, hopen, hsys⟩ := h.ctx
  have hcall : s.state.ioctl (socketKernel mask granted) fd .fionbio arg (some v) =
      .ok ((s.state.setUserNonblock fd (v ≠ 0)).original (socketKernel mask granted)
        (.ioctl fd .fionbio arg (some v))) := by
    simp only [State.ioctl, get_of_get hget, bind, Except.bind, managed_some hsock hopen]
  refine ⟨_, _, controlStep_iff.2 (by rw [control, hcall]; rfl), ?_, ?_⟩
  · apply h.of_setUserNonblock rfl
    cases granted with
    | false => exact h.others
    | true =>
      change (if v = 0 then s.state.kernel &&& ~~~O_NONBLOCK
        else s.state.kernel ||| O_NONBLOCK) &&& ~~~O_NONBLOCK = s.others
      rw [← h.others]
      split
      · rw [BitVec.and_assoc, BitVec.and_self]
      · exact or_and_not _ _
  · intro hv
    constructor
    · intro ht hz
      by_contra hg
      rw [Bool.not_eq_false] at hg
      subst hz hg
      have hkernel : s.state.kernel &&& ~~~O_NONBLOCK &&& O_NONBLOCK = O_NONBLOCK := ht.kernel
      rw [and_not_and] at hkernel
      exact absurd hkernel (by decide)
    · intro hclean
      refine hv.of_setUserNonblock (b := v ≠ 0) ?_ ?_ ?_ ?_
      · rfl
      · rfl
      · rfl
      · cases granted with
        | false => exact hv.kernel
        | true =>
          have hz : v ≠ 0 := fun hz => nomatch hclean hz
          change (if v = 0 then s.state.kernel &&& ~~~O_NONBLOCK
            else s.state.kernel ||| O_NONBLOCK) &&& O_NONBLOCK = O_NONBLOCK
          rw [if_neg hz]
          exact or_and_self _ _

theorem get_create {m : FdManager} {fstat : Option Bool} (hm : 64 ≤ m.length)
    (h : m.get fd = none) : (m.create fd fstat).get fd = some (.construct fstat) := by
  have hroom : fd < (if fd < m.length then m
      else m ++ List.replicate (fd * 3 / 2 - m.length) none).length := by
    split
    · assumption
    · rw [List.length_append, List.length_replicate]
      omega
  simp only [FdManager.create, h]
  rw [FdManager.get, List.getElem?_set_self hroom]
  rfl

/-- `FdCtx::init` leaves the socket with `O_NONBLOCK` and its other flags. -/
theorem initFdCtx_socket (fd : ℕ) (hmask : mask &&& O_NONBLOCK = O_NONBLOCK)
    (s : State (BitVec 32)) :
    ∃ t, s.initFdCtx (socketKernel mask true) fd = (some true, t) ∧ t.fds = s.fds ∧
      t.kernel &&& O_NONBLOCK = O_NONBLOCK ∧
      t.kernel &&& ~~~O_NONBLOCK = s.kernel &&& ~~~O_NONBLOCK := by
  have hinit : s.initFdCtx (socketKernel mask true) fd =
      if s.kernel &&& O_NONBLOCK = 0 then
        (some true, ⟨s.kernel &&& ~~~mask ||| (s.kernel ||| O_NONBLOCK) &&& mask, s.fds,
          s.trace ++ [.fstat fd] ++ [.fcntl fd .getFl (some (.int 0))] ++
            [.fcntl fd .setFl (some (.int (s.kernel ||| O_NONBLOCK)))]⟩)
      else
        (some true, ⟨s.kernel, s.fds,
          s.trace ++ [.fstat fd] ++ [.fcntl fd .getFl (some (.int 0))]⟩) := by
    simp [State.initFdCtx, State.original, socketKernel, BitVec.ofInt_toInt]
  rw [hinit]
  split
  · exact ⟨_, rfl, rfl, setFl_and_of_mask _ _ _ _ hmask, setFl_self_and_not ..⟩
  · next hset =>
    have hbit := BitVec.and_twoPow s.kernel 11
    rw [show BitVec.twoPow 32 11 = O_NONBLOCK from rfl] at hbit
    split at hbit
    · exact ⟨_, rfl, rfl, hbit, rfl⟩
    · exact absurd hbit hset

theorem managed_initial (flags : BitVec 32) {fds : FdManager}
    (hmask : mask &&& O_NONBLOCK = O_NONBLOCK) (hfds : 64 ≤ fds.length)
    (hfd : fds.get fd = none) :
    Managed fd (Socket.managed mask fd flags fds) ∧
      Virtual fd (Socket.managed mask fd flags fds) := by
  obtain ⟨t, hinit, htfds, hnon, hothers⟩ := initFdCtx_socket fd hmask ⟨flags, fds, []⟩
  have hstate : (Socket.managed mask fd flags fds).state =
      { t with fds := t.fds.create fd (some true) } := by
    simp only [Socket.managed, State.autoCreate, hfd, hinit]
  have hget : (Socket.managed mask fd flags fds).state.fds.get fd =
      some (.construct (some true)) := by
    rw [hstate, htfds]
    exact get_create hfds hfd
  refine ⟨⟨⟨_, hget, rfl, rfl, rfl⟩, ?_⟩, ⟨?_, ⟨_, hget, rfl, rfl⟩, nofun⟩⟩
  · rw [hstate]
    exact hothers
  · rw [hstate]
    exact hnon

/-- The kernel's flag stays set, the user's is what was asked for and `F_GETFL` shows the user
what was asked for, exactly as long as no `FIONBIO` asks the kernel to let the socket block. -/
theorem virtual_iff_nonblocking (mask flags : BitVec 32) (fd : ℕ) (fds : FdManager)
    (ops : List Control) (hmask : mask &&& O_NONBLOCK = O_NONBLOCK) (hfds : 64 ≤ fds.length)
    (hfd : fds.get fd = none) :
    (∀ n, ∃ rs u, run (controlStep mask fd) (Socket.managed mask fd flags fds) (ops.take n) =
        some (rs, u) ∧ Virtual fd u) ↔
      Guarded Nonblocking (controlStep mask fd) (Socket.managed mask fd flags fds) ops := by
  obtain ⟨hmanaged, hvirtual⟩ := managed_initial flags hmask hfds hfd
  have hstep : ∀ (s : Socket) (c : Control), Managed fd s →
      ∃ r t, controlStep mask fd s c = some (r, t) ∧ Managed fd t ∧
        (Virtual fd s → (Virtual fd t ↔ Nonblocking s c)) := by
    intro s c hs
    cases c with
    | setFl flags granted =>
      obtain ⟨r, t, ht, hm, hv⟩ := hs.setFl flags granted
      exact ⟨r, t, ht, hm, fun h => iff_of_true (hv h) trivial⟩
    | getFl =>
      obtain ⟨r, t, ht, hm, hv⟩ := hs.getFl
      exact ⟨r, t, ht, hm, fun h => iff_of_true (hv h) trivial⟩
    | fionbio v arg granted => exact hs.fionbio v arg granted
  apply forall_run_total_iff_guarded (I := Managed fd) ?_ ?_ hmanaged hvirtual (guarded_true _ _)
  · intro s c r t hs _ ht
    obtain ⟨r', t', ht', hm, -⟩ := hstep s c hs
    cases ht.symm.trans ht'
    exact hm
  · intro s c hs hv _
    obtain ⟨r, t, ht, -, hiff⟩ := hstep s c hs
    rw [← hiff hv]
    constructor
    · rintro ⟨r', t', ht', hv'⟩
      cases ht.symm.trans ht'
      exact hv'
    · intro hv'
      exact ⟨r, t, ht, hv'⟩

instance (s : Socket) : ∀ c, Decidable (Nonblocking s c)
  | .setFl _ _ => .isTrue trivial
  | .getFl => .isTrue trivial
  | .fionbio v _ granted => inferInstanceAs (Decidable (v = 0 → granted = false))

/-- `O_APPEND`, `O_NONBLOCK`, `O_ASYNC`, `O_DIRECT` and `O_NOATIME` can be set. -/
theorem virtual_on_and_off :
    ∃ rs u, run (controlStep 0x46C00 5) (Socket.managed 0x46C00 5 2 FdManager.construct)
      [.setFl 0xC02 true, .getFl, .fionbio 1 16 true, .setFl 2 true, .getFl] =
        some (rs, u) ∧ Virtual 5 u :=
  (virtual_iff_nonblocking 0x46C00 2 5 FdManager.construct
    [.setFl 0xC02 true, .getFl, .fionbio 1 16 true, .setFl 2 true, .getFl] (by decide) (by decide)
    (get_construct 5)).2 (by decide) 5

/-- `FIONBIO` with 0 lets the socket block, and with it the thread. -/
theorem fionbio_blocks :
    ∃ rs u, run (controlStep 0x46C00 5) (Socket.managed 0x46C00 5 2 FdManager.construct)
        [.fionbio 0 16 true] = some (rs, u) ∧ u.state.kernel = 2 ∧ ¬ Virtual 5 u := by
  have hrun : (run (controlStep 0x46C00 5) (Socket.managed 0x46C00 5 2 FdManager.construct)
      [.fionbio 0 16 true]).map (fun r => r.2.state.kernel) = some 2 := by decide
  obtain ⟨⟨rs, u⟩, hu, hkernel⟩ := Option.map_eq_some_iff.1 hrun
  refine ⟨rs, u, hu, hkernel, ?_⟩
  intro h
  have hclear := h.kernel
  rw [show u.state.kernel = 2 from hkernel] at hclear
  exact absurd hclear (by decide)

end Virtualisation

end HookTransparency
