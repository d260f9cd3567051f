import SylarNet.HookTransparency

/-!
# The hooked fcntl

Five commands without an argument are handed to `fcntl`, which is the hooked function again.
Its calls of itself are counted here.
-/
namespace HookFcntl

open HookWrappers
open HookTransparency (oneSocket)

variable {K : Type}

/-- The call with so many further calls of itself at most. -/
def fcntlWithin (k : Kernel K) (s : State K) (fd : ℤ) (cmd : FcntlCmd) :
    Option Arg → ℕ → Option (Except Fault (ℤ × State K))
  | arg, 0 => if cmd.group = .noArg then none else some (s.fcntl k fd cmd arg)
  | arg, depth + 1 =>
    if cmd.group = .noArg then fcntlWithin k s fd cmd none depth else some (s.fcntl k fd cmd arg)

/-- The argument that arrives: the one that was given, but for the flag of a managed socket. -/
def SameArg (s : State K) (fd : ℤ) (cmd : FcntlCmd) (arg arg' : Option Arg) : Prop :=
  arg' = arg ∨ cmd = .setFl ∧ (∃ ctx, s.get fd = .ok (some ctx) ∧ ctx.isSocket = true ∧
    ctx.isClosed = false) ∧ ∃ flags flags' : BitVec 32, arg = some (.int flags) ∧
      arg' = some (.int flags') ∧ flags' &&& ~~~O_NONBLOCK = flags &&& ~~~O_NONBLOCK

/-- The call returns, and has made one call of the original function, with the same descriptor
and command. -/
def DelegatesOnce (k : Kernel K) (s : State K) (fd : ℤ) (cmd : FcntlCmd) (arg : Option Arg) :
    Prop :=
  ∃ depth r t, fcntlWithin k s fd cmd arg depth = some (.ok (r, t)) ∧
    ∃ arg', t.trace = s.trace ++ [.fcntl fd cmd arg'] ∧ SameArg s fd cmd arg arg'

/-- A command that is not handed to the function itself, with an argument of the type that its
branch takes: none where it is not in the `switch`. Looking up a descriptor below -1 is an access
in front of the table. -/
def Forwarded (fd : ℤ) (cmd : FcntlCmd) (arg : Option Arg) : Prop :=
  match cmd.group, arg with
  | .setFl, some (.int _) => -1 ≤ fd
  | .getFl, none => -1 ≤ fd
  | .intArg, some (.int _) => True
  | .pointerArg, some (.pointer _) => True
  | .default, none => True
  | _, _ => False

section Calls

variable {k : Kernel K} {s : State K} {fd : ℤ} {cmd : FcntlCmd} {arg : Option Arg}

/-- A command that is handed to the function itself comes to no end. -/
theorem fcntlWithin_noArg (h : cmd.group = .noArg) (arg : Option Arg) (depth : ℕ) :
    fcntlWithin k s fd cmd arg depth = none := by
  induction depth generalizing arg with
  | zero => exact if_pos h
  | succ depth ih =>
    rw [fcntlWithin, if_pos h]
    exact ih none

theorem fcntlWithin_of_ne (h : cmd.group ≠ .noArg) (arg : Option Arg) (depth : ℕ) :
    fcntlWithin k s fd cmd arg depth = some (s.fcntl k fd cmd arg) := by
  cases depth with
  | zero => exact if_neg h
  | succ depth => exact if_neg h

theorem delegates_of_ne (h : cmd.group ≠ .noArg) :
    DelegatesOnce k s fd cmd arg ↔ ∃ r t, s.fcntl k fd cmd arg = .ok (r, t) ∧
      ∃ arg', t.trace = s.trace ++ [.fcntl fd cmd arg'] ∧ SameArg s fd cmd arg arg' := by
  simp only [DelegatesOnce, fcntlWithin_of_ne h, Option.some.injEq, exists_const]

theorem trace_original (s : State K) (c : Call) :
    (s.original k c).2.trace = s.trace ++ [c] := rfl

theorem get_of_le (h : -1 ≤ fd) (s : State K) : ∃ ctx, s.get fd = .ok ctx := by
  unfold State.get
  split_ifs with hnone hneg
  · exact ⟨_, rfl⟩
  · omega
  · exact ⟨_, rfl⟩

theorem get_of_lt (h : fd < -1) (s : State K) : s.get fd = .error .outOfRange := by
  have hne : fd ≠ -1 := by omega
  have hneg : fd < 0 := by omega
  rw [State.get, if_neg hne, if_pos hneg]

/-- A branch that hands over what it was given. -/
theorem delegates_same (hne : cmd.group ≠ .noArg)
    (h : s.fcntl k fd cmd arg = .ok (s.original k (.fcntl fd cmd arg))) :
    DelegatesOnce k s fd cmd arg :=
  (delegates_of_ne hne).2 ⟨_, _, h, arg, trace_original s _, .inl rfl⟩

theorem not_delegates_of_error (hne : cmd.group ≠ .noArg) (fault : Fault)
    (h : s.fcntl k fd cmd arg = .error fault) : ¬ DelegatesOnce k s fd cmd arg := by
  rw [delegates_of_ne hne]
  rintro ⟨r, t, ht, -⟩
  cases h.symm.trans ht

theorem eq_setFl (h : cmd.group = .setFl) : cmd = .setFl := by
  cases cmd <;> first | rfl | cases h

/-- The flag of a managed socket is the only bit that is not passed on. -/
theorem delegates_setFl (h : cmd.group = .setFl) (flags : BitVec 32) :
    DelegatesOnce k s fd cmd (some (.int flags)) ↔ -1 ≤ fd := by
  have hne : cmd.group ≠ .noArg := by simp [h]
  rcases Int.lt_or_le fd (-1) with hlt | hle
  · refine iff_of_false (not_delegates_of_error hne .outOfRange ?_) (Int.not_le.2 hlt)
    simp only [State.fcntl, h, get_of_lt hlt, bind, Except.bind]
  · refine iff_of_true ?_ hle
    obtain ⟨ctx, hget⟩ := get_of_le hle s
    cases hmanaged : State.managed ctx with
    | none =>
      apply delegates_same hne
      simp only [State.fcntl, h, hget, bind, Except.bind, hmanaged]
    | some ctx' =>
      obtain ⟨hctx, hok⟩ := Option.filter_eq_some_iff.1 hmanaged
      simp only [Bool.and_eq_true, Bool.not_eq_true'] at hok
      subst hctx
      refine (delegates_of_ne hne).2 ⟨_, _, by
        simp only [State.fcntl, h, hget, bind, Except.bind, hmanaged]
        rfl, _, rfl, .inr ⟨eq_setFl h, ⟨ctx', hget, hok.2, hok.1⟩, flags, _, rfl, rfl, ?_⟩⟩
      split
      · exact HookTransparency.or_and_not _ _
      · rw [BitVec.and_assoc, BitVec.and_self]

/-- A call that is made without the argument. -/
theorem delegates_dropped (hne : cmd.group ≠ .noArg) (hset : cmd ≠ .setFl) {r : ℤ}
    (hcall : s.fcntl k fd cmd arg = .ok (r, (s.original k (.fcntl fd cmd none)).2)) :
    DelegatesOnce k s fd cmd arg ↔ arg = none := by
  rw [delegates_of_ne hne]
  constructor
  · rintro ⟨r', t, ht, arg', htrace, hsame⟩
    cases hcall.symm.trans ht
    have harg : arg' = none := by simpa [trace_original] using htrace.symm
    rcases hsame with hsame | ⟨hcmd, -⟩
    · exact hsame.symm.trans harg
    · exact absurd hcmd hset
  · rintro rfl
    exact ⟨r, _, hcall, none, rfl, .inl rfl⟩

theorem delegates_getFl (h : cmd.group = .getFl) :
    DelegatesOnce k s fd cmd arg ↔ -1 ≤ fd ∧ arg = none := by
  have hne : cmd.group ≠ .noArg := by simp [h]
  have hget' : (s.original k (.fcntl fd cmd none)).2.get fd = s.get fd := rfl
  rcases Int.lt_or_le fd (-1) with hlt | hle
  · refine iff_of_false (not_delegates_of_error hne .outOfRange ?_) fun hc => by omega
    simp only [State.fcntl, h, hget', get_of_lt hlt, bind, Except.bind]
  · obtain ⟨ctx, hget⟩ := get_of_le hle s
    have hcall : ∃ r, s.fcntl k fd cmd arg = .ok (r, (s.original k (.fcntl fd cmd none)).2) := by
      simp only [State.fcntl, h, hget', hget, bind, Except.bind]
      cases State.managed ctx with
      | none => exact ⟨_, rfl⟩
      | some ctx =>
        dsimp only
        split
        · exact ⟨_, rfl⟩
        · exact ⟨_, rfl⟩
    obtain ⟨r, hcall⟩ := hcall
    rw [delegates_dropped hne (by rintro rfl; cases h) hcall]
    exact ⟨fun harg => ⟨hle, harg⟩, And.right⟩

/-- The argument of a command that is not in the `switch` is dropped. -/
theorem delegates_default (h : cmd.group = .default) :
    DelegatesOnce k s fd cmd arg ↔ arg = none := by
  have hcall : s.fcntl k fd cmd arg = .ok (s.original k (.fcntl fd cmd none)) := by
    simp only [State.fcntl, h]
  exact delegates_dropped (by simp [h]) (by rintro rfl; cases h) hcall

end Calls

/-- The hooked `fcntl` returns after exactly one call of the original function, with what it was
given, if and only if the call is one that is forwarded. -/
theorem delegates_once_iff (k : Kernel K) (s : State K) (fd : ℤ) (cmd : FcntlCmd)
    (arg : Option Arg) : DelegatesOnce k s fd cmd arg ↔ Forwarded fd cmd arg := by
  unfold Forwarded
  cases hgroup : cmd.group with
  | noArg =>
    refine iff_of_false ?_ id
    rintro ⟨depth, r, t, ht, -⟩
    cases (fcntlWithin_noArg hgroup arg depth).symm.trans ht
  | getFl =>
    rw [delegates_getFl hgroup]
    cases arg with
    | none => simp
    | some arg => simp
  | default =>
    rw [delegates_default hgroup]
    cases arg with
    | none => simp
    | some arg => simp
  | setFl =>
    have hne : cmd.group ≠ .noArg := by simp [hgroup]
    rcases arg with _ | flags | p
    · refine iff_of_false (not_delegates_of_error hne .noSuchArgument ?_) id
      simp only [State.fcntl, hgroup]
    · exact delegates_setFl hgroup flags
    · refine iff_of_false (not_delegates_of_error hne .noSuchArgument ?_) id
      simp only [State.fcntl, hgroup]
  | intArg =>
    have hne : cmd.group ≠ .noArg := by simp [hgroup]
    rcases arg with _ | flags | p
    · refine iff_of_false (not_delegates_of_error hne .noSuchArgument ?_) id
      simp only [State.fcntl, hgroup]
    · refine iff_of_true (delegates_same hne ?_) trivial
      simp only [State.fcntl, hgroup]
    · refine iff_of_false (not_delegates_of_error hne .noSuchArgument ?_) id
      simp only [State.fcntl, hgroup]
  | pointerArg =>
    have hne : cmd.group ≠ .noArg := by simp [hgroup]
    rcases arg with _ | flags | p
    · refine iff_of_false (not_delegates_of_error hne .noSuchArgument ?_) id
      simp only [State.fcntl, hgroup]
    · refine iff_of_false (not_delegates_of_error hne .noSuchArgument ?_) id
      simp only [State.fcntl, hgroup]
    · refine iff_of_true (delegates_same hne ?_) trivial
      simp only [State.fcntl, hgroup]

/-- The flags of a descriptor, as `F_GETFD` asks for them. -/
theorem getFd_not_delegated : ¬ ∀ (k : Kernel (BitVec 32)) (s : State (BitVec 32)) (fd : ℤ),
    DelegatesOnce k s fd .getFd none := by
  intro h
  obtain ⟨depth, r, t, ht, -⟩ := h oneSocket ⟨2, .construct, []⟩ 4
  cases (fcntlWithin_noArg rfl none depth).symm.trans ht

end HookFcntl
