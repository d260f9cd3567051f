import SylarNet.SylarHook

/-!
# Descriptors that are used again

`close` wakes the fibers that wait on a descriptor and frees its number. A fiber that is
resumed later calls the original function with the number again: `isClose` is tested only at
the start of the call, and nothing sets `m_isClosed`.
-/
namespace HookDescriptors

open IOManagerEvents IOManagerBookkeeping SylarHook

variable {K S F C : Type}

def IsDoIo (kind : Kind) : Prop := ∃ event, kind = .doIo event

/-- The call will, or may after a wait, call the original function. -/
def MayPerform (c : Call) : Prop :=
  IsDoIo c.kind ∧
    (c.pc = .direct ∨ c.pc = .io ∨ c.cancelled = false ∧
      (c.pc = .arm ∨ c.pc = .add ∨ c.pc = .parking ∨ c.pc = .parked ∨ c.pc = .back ∨
        c.pc = .check))

/-- A call that has returned is done with its number. -/
theorem MayPerform.active {c : Call} (h : MayPerform c) : c.Active := by
  rcases h with ⟨-, hpc | hpc | ⟨-, hpc⟩⟩
  · simp [Call.Active, hpc]
  · simp [Call.Active, hpc]
  · rcases hpc with hpc | hpc | hpc | hpc | hpc | hpc <;> simp [Call.Active, hpc]

/-- The operation met the descriptor of its call, or failed because that was closed. -/
def OwnDescriptor (io : Io F) : Prop :=
  IsDoIo io.kind → io.used = io.started ∨ io.used = none ∧ io.outcome = .failed

/-- A number is given out again only when no `do_io` may still use it. -/
def NoEarlyReuse (s : State K S F C) : Label S F C → Prop
  | .socket fd => ∀ f c, s.activity f = .call c → MayPerform c → c.fd ≠ fd
  | _ => True

/-- The number of a call stands for its descriptor as long as it is open. -/
structure Kept (s : State K S F C) : Prop where
  calls : ∀ f c, s.activity f = .call c → MayPerform c →
    s.descriptors c.fd = c.started ∨ s.descriptors c.fd = none
  performed : ∀ io ∈ s.performed, OwnDescriptor io

section Step

variable [DecidableEq F] {ctl : K → CtlOp → ℕ → EventMask → Bool × K} {forget : K → ℕ → K}
  {iom : S} {s t : State K S F C}

omit [DecidableEq F] in
theorem kept_initial (k : K) : Kept (initial k : State K S F C) :=
  ⟨fun _ _ h => (by cases h), by simp [initial]⟩

theorem Kept.setActivity (h : Kept s) {f : F} {a : Activity}
    (ha : ∀ c, a = .call c → MayPerform c →
      t.descriptors c.fd = c.started ∨ t.descriptors c.fd = none)
    (hactivity : t.activity = Function.update s.activity f a)
    (hdescriptors : ∀ fd, t.descriptors fd = s.descriptors fd ∨ t.descriptors fd = none)
    (hperformed : ∀ io ∈ t.performed, OwnDescriptor io) : Kept t := by
  refine ⟨?_, hperformed⟩
  intro g c hg hc
  rw [hactivity] at hg
  by_cases hgf : g = f
  · rw [hgf, Function.update_self] at hg
    exact ha c hg hc
  · rw [Function.update_of_ne hgf] at hg
    rcases hdescriptors c.fd with hd | hd
    · rw [hd]
      exact h.calls g c hg hc
    · exact .inr hd

/-- A step of the call itself, or of one of its timers. -/
theorem Kept.setCall (h : Kept s) {f : F} {c c' : Call} (at_call : s.activity f = .call c)
    (hactivity : t.activity = Function.update s.activity f (.call c'))
    (hdescriptors : t.descriptors = s.descriptors)
    (hfd : c'.fd = c.fd) (hstarted : c'.started = c.started)
    (hmay : MayPerform c' → MayPerform c)
    (hperformed : ∀ io ∈ t.performed, OwnDescriptor io) : Kept t := by
  refine h.setActivity ?_ hactivity (fun fd => .inl (by rw [hdescriptors])) hperformed
  intro d hd hmayd
  cases hd
  rw [hdescriptors, hfd, hstarted]
  exact h.calls f c at_call (hmay hmayd)

omit [DecidableEq F] in
theorem Kept.same (h : Kept s) (hactivity : t.activity = s.activity)
    (hdescriptors : t.descriptors = s.descriptors) (hperformed : t.performed = s.performed) :
    Kept t := by
  refine ⟨?_, by rw [hperformed]; exact h.performed⟩
  rw [hactivity, hdescriptors]
  exact h.calls

theorem kept_move {l : Label S F C} (h : Kept s) (hno : NoEarlyReuse s l)
    (hm : Move ctl forget iom s l t) : Kept t := by
  cases hm with
  | start free =>
    refine h.setActivity ?_ rfl (fun _ => .inl rfl) h.performed
    intro c hc _
    cases hc
    exact .inl rfl
  | @io f outcome c at_call at_pc closed =>
    have hmay : IsDoIo c.kind → MayPerform c := fun hkind =>
      ⟨hkind, at_pc.elim .inl fun h => .inr (.inl h)⟩
    refine h.setCall at_call rfl rfl rfl rfl (fun hc => hmay hc.1) ?_
    intro io hio
    rcases List.mem_append.1 hio with hio | hio
    · exact h.performed io hio
    · rw [List.mem_singleton.1 hio]
      intro hkind
      rcases h.calls f c at_call (hmay hkind) with hused | hused
      · exact .inl hused
      · exact .inr ⟨hused, closed hused⟩
  | arm at_call at_pc | added at_call at_pc | park at_call at_pc | disarm at_call at_pc
  | resume at_call at_pc | sockopt at_call at_pc =>
    exact h.setCall at_call rfl rfl rfl rfl (by simp [MayPerform, at_pc]) h.performed
  | addFails at_call at_pc table refused leaves =>
    refine h.setCall at_call rfl rfl rfl rfl ?_ h.performed
    rcases leaves with rfl | rfl <;> simp [MayPerform]
  | check at_call at_pc leaves =>
    refine h.setCall at_call rfl rfl rfl rfl ?_ h.performed
    rintro ⟨hkind, hpc⟩
    rcases leaves with ⟨-, rfl⟩ | ⟨hc, -⟩
    · simp at hpc
    · exact ⟨hkind, .inr (.inr ⟨hc, by simp [at_pc]⟩)⟩
  | expire at_call | tooLate at_call => exact h.setCall at_call rfl rfl rfl rfl id h.performed
  | timedOut at_call =>
    refine h.setCall at_call rfl rfl rfl rfl ?_ h.performed
    rintro ⟨hkind, hpc | hpc | ⟨hc, -⟩⟩
    · exact ⟨hkind, .inl hpc⟩
    · exact ⟨hkind, .inr (.inl hpc)⟩
    · cases hc
  | cancel => exact h.same rfl rfl rfl
  | close | closeCancel | closeDel =>
    exact h.setActivity (fun c hc => by cases hc) rfl (fun _ => .inl rfl) h.performed
  | @closeFree f fd =>
    refine h.setActivity (fun c hc => by cases hc) rfl ?_ h.performed
    intro fd'
    by_cases hfd : fd' = fd
    · exact .inr (by rw [hfd]; exact Function.update_self _ _ _)
    · exact .inl (Function.update_of_ne hfd _ _)
  | @socket fd closed =>
    refine ⟨?_, h.performed⟩
    intro f c hf hc
    have hne := hno f c hf hc
    have := h.calls f c hf hc
    rwa [← Function.update_of_ne hne (some s.generations) s.descriptors] at this
  | create | setTimeout | setUserNonblock | other => exact h.same rfl rfl rfl

/-- As long as no number is given out again that a `do_io` may still use, each `do_io` meets
its own descriptor only. -/
theorem ownDescriptor_of_noEarlyReuse (ctl : K → CtlOp → ℕ → EventMask → Bool × K)
    (forget : K → ℕ → K) (iom : S) (k : K) {ls : List (Label S F C)} {os : List Unit}
    (reuse : StepRuns.Guarded NoEarlyReuse (step ctl forget iom) (initial k) ls)
    (h : StepRuns.run (step ctl forget iom) (initial k) ls = some (os, s)) :
    ∀ io ∈ s.performed, OwnDescriptor io := by
  have hkept : Kept s := by
    refine StepRuns.run_invariant (P := Kept) ?_ (kept_initial k) reuse h
    intro s l o t hs hno hstep
    exact kept_move hs hno (move_of_step hstep)
  exact hkept.performed

end Step

/-- An `epoll_ctl` that grants everything. -/
def grant : Unit → CtlOp → ℕ → EventMask → Bool × Unit := fun k _ _ _ => (true, k)

/-- Fiber 1 waits for input on a socket that fiber 2 closes. -/
def closedWhileWaiting : List (Label ℕ ℕ ℕ) :=
  [.create 5 true, .start 1 (.doIo .read) 5, .io 1 .again, .run 1, .run 1, .run 1, .close 2 5,
    .closeStep 2, .closeStep 2, .closeStep 2]

/-- Back from its wait fiber 1 calls the original function again. -/
def retries (outcome : Outcome) : List (Label ℕ ℕ ℕ) := [.resume 1, .run 1, .run 1, .io 1 outcome]

def reusedAfterRetry : List (Label ℕ ℕ ℕ) :=
  .socket 5 :: (closedWhileWaiting ++ retries .failed ++ [.socket 5])

def reusedBeforeRetry : List (Label ℕ ℕ ℕ) :=
  .socket 5 :: (closedWhileWaiting ++ [.socket 5, .create 5 true] ++ retries .ok)

theorem noEarlyReuse_reusedAfterRetry :
    StepRuns.Guarded NoEarlyReuse (step grant (fun k _ => k) 0) (initial ()) reusedAfterRetry := by
  constructor
  · rintro f c ⟨⟩
  rintro o t ⟨⟩
  refine StepRuns.guarded_append ?_ ?_
  · apply StepRuns.guarded_of_forall
    simp [closedWhileWaiting, retries, NoEarlyReuse]
  · rintro os u ⟨⟩
    refine ⟨?_, fun _ _ _ => trivial⟩
    intro f c hf hc
    by_cases h1 : f = 1
    · subst h1
      cases hf
      exact absurd rfl hc.active.2
    · by_cases h2 : f = 2
      · subst h2
        cases hf
      · simp [State.setCall, State.setActivity, h1, h2, initial] at hf

theorem ownDescriptor_reusedAfterRetry :
    ∃ os s, StepRuns.run (step grant (fun k _ => k) 0) (initial ()) reusedAfterRetry =
        some (os, s) ∧
      s.descriptors 5 = some 1 ∧ ∀ io ∈ s.performed, OwnDescriptor io :=
  ⟨_, _, rfl, rfl,
    ownDescriptor_of_noEarlyReuse _ _ _ _ noEarlyReuse_reusedAfterRetry rfl⟩

/-- The second read of fiber 1 takes its input from the new socket. -/
theorem not_ownDescriptor_reusedBeforeRetry :
    ¬ ∀ (ls : List (Label ℕ ℕ ℕ)) os s,
      StepRuns.run (step grant (fun k _ => k) 0) (initial ()) ls = some (os, s) →
        ∀ io ∈ s.performed, OwnDescriptor io := by
  intro h
  have hown := h reusedBeforeRetry _ _ rfl ⟨1, .doIo .read, 5, some 0, some 1, .ok⟩
    (List.mem_append_right _ (List.mem_singleton_self _)) ⟨.read, rfl⟩
  rcases hown with hused | ⟨hused, -⟩ <;> cases hused

end HookDescriptors
