import SylarNet.HookTimeouts

/-!
# What a hooked connect returns

`connect_with_timeout` asks `SO_ERROR` whether it is connected. A connection still in progress
has no error either, so the answer is worth something only after the WRITE event. The history of
a call says how its wait ended, and a run returns the right results exactly when no `SO_ERROR`
of 0 is read after a registration that failed or a wait that somebody else ended.
-/
namespace HookConnect

open IOManagerEvents IOManagerState IOManagerBookkeeping SylarHook HookTimeouts StepRuns

/-- What ended a wait: the event, the timer of the call, or anything else. -/
inductive Cause where
  | event
  | timer
  | other
  deriving DecidableEq, Repr

/-- What happened in the call of a fiber: the original connect answered 0, `addEvent` failed,
the wait ended, `getsockopt` read an `SO_ERROR` of 0 or did not. -/
structure History where
  connected : Bool
  refused : Bool
  ended : Option Cause
  sockopt : Option Bool
  deriving DecidableEq, Repr

def History.fresh : History := ⟨false, false, none, none⟩

/-- The history only records. -/
structure Watched (K S F C : Type) where
  state : State K S F C
  history : F → History

variable {K S F C : Type}

def Watched.initial (k : K) : Watched K S F C := ⟨SylarHook.initial k, fun _ => .fresh⟩

/-- In `YieldToHold`, or about to be. -/
def Waiting (c : Call) : Prop := c.pc = .parking ∨ c.pc = .parked

instance (c : Call) : Decidable (Waiting c) := inferInstanceAs (Decidable (_ ∨ _))

/-- What a step that takes the event of the call out of the table stands for. A dispatch wakes
all who wait for the descriptor, so only one that reports the event of the call is that event. -/
def cause (s : State K S F C) (c : Call) : Label S F C → Cause
  | .other (.dispatch fd e) =>
    if (realEvents (s.manager.context fd).events e).has c.event then .event else .other
  | .cancel k =>
    match s.cancelling[k]? with
    | some x => if x.id = c.id then .timer else .other
    | none => .other
  | _ => .other

section Watch

variable [DecidableEq F] (ctl : K → CtlOp → ℕ → EventMask → Bool × K) (forget : K → ℕ → K)
  (iom : S)

instance (m : IOManagerState K S F C) (fd : ℕ) (event : Event) (f : F) :
    Decidable (Awaits m fd event f) :=
  inferInstanceAs (Decidable (_ ∧ _))

/-- The next step of the fiber is an `addEvent` that fails. -/
def refuses (s : State K S F C) (f : F) : Bool :=
  match s.activity f with
  | .call c =>
    decide (c.pc = .add) &&
      (IOManagerBookkeeping.step ctl s.manager (.addEvent c.fd c.event none (some iom) f)).any
        fun r => decide (r.1.value ≠ 0)
  | _ => false

/-- A step of the fiber itself. One that resumes it with its event still in the table was
scheduled for something else. -/
def History.own (h : History) (s : State K S F C) (f : F) : Label S F C → History
  | .start g _ _ => if g = f then .fresh else h
  | .io g outcome => if g = f then { h with connected := decide (outcome = .ok) } else h
  | .run g => if g = f ∧ refuses ctl iom s f = true then { h with refused := true } else h
  | .resume g => if g = f then { h with ended := h.ended.or (some .other) } else h
  | .sockopt g ok => if g = f then { h with sockopt := some ok } else h
  | _ => h

/-- A step that ends the wait of the fiber. -/
def History.waits (h : History) (s t : State K S F C) (f : F) (l : Label S F C) : History :=
  match s.activity f with
  | .call c =>
    if Waiting c ∧ h.ended = none ∧ Awaits s.manager c.fd c.event f ∧
        ¬ Awaits t.manager c.fd c.event f then
      { h with ended := some (cause s c l) }
    else h
  | _ => h

def Watched.step (w : Watched K S F C) (l : Label S F C) : Option (Unit × Watched K S F C) :=
  (SylarHook.step ctl forget iom w.state l).map fun r =>
    ((), ⟨r.2, fun f => ((w.history f).own ctl iom w.state f l).waits w.state r.2 f l⟩)

end Watch

/-- What the caller of a connect may rely on. -/
structure Result (h : History) (c : Call) : Prop where
  success : c.pc = .returned true →
    h.connected = true ∨ h.ended = some .event ∧ h.sockopt = some true
  failure : h.ended = some .timer ∨ h.refused = true → c.pc ≠ .returned true
  timer : ¬ c.Active → .armed ∉ c.timers

/-- Every connect that has returned did so with the right result and without its timer. -/
def Right (w : Watched K S F C) : Prop :=
  ∀ f c ms, w.state.activity f = .call c → c.kind = .connect ms → Result (w.history f) c

/-- `SO_ERROR` is not 0 after an `addEvent` that failed, nor after a wait that ended with
neither the event nor the timer of the call. -/
def Clear (w : Watched K S F C) : Label S F C → Prop
  | .sockopt f true => ∀ c ms, w.state.activity f = .call c → c.pc = .sockopt →
    c.kind = .connect ms →
    (w.history f).refused = false ∧ (w.history f).ended ≠ some .other
  | _ => True

section Turns

variable [DecidableEq F] {ctl : K → CtlOp → ℕ → EventMask → Bool × K} {forget : K → ℕ → K}
  {iom : S} {s t : State K S F C} {l : Label S F C} {f : F} {c d : Call} {h h' : History}

/-- A callback on its way to `cancelEvent` has set the flag of its call. -/
def Flagged (s : State K S F C) : Prop :=
  ∀ x ∈ s.cancelling, ∀ f c, s.activity f = .call c → c.id = x.id → c.cancelled = true

/-- A call at its start. -/
def starting (s : State K S F C) (kind : Kind) (fd : ℕ) : Call :=
  ⟨s.calls, kind, fd, (entryPoint (s.fds.get fd) kind).2, s.descriptors fd, false, [],
    (entryPoint (s.fds.get fd) kind).1⟩

/-- The ways a step goes for one call and its history. -/
inductive Turn (l : Label S F C) (f : F) (c : Call) (h : History) : Call → History → Prop where
  | same : Turn l f c h c h
  | ended {why : Cause} (waiting : Waiting c) (flagged : why = .timer → c.cancelled = true) :
    Turn l f c h c { h with ended := some why }
  | io {outcome : Outcome} (at_pc : c.pc = .direct ∨ c.pc = .io) :
    Turn l f c h { c with pc := c.afterIo outcome }
      { h with connected := decide (outcome = .ok) }
  | arm (at_pc : c.pc = .arm) :
    Turn l f c h
      { c with
        timers := if c.timeout = FdCtx.never then c.timers else c.timers ++ [.armed]
        pc := .add } h
  | added (at_pc : c.pc = .add) : Turn l f c h { c with pc := .parking } h
  | addFails {pc : Pc} (at_pc : c.pc = .add) (leaves : pc = .returned false ∨ pc = .sockopt) :
    Turn l f c h { c with timers := c.stopTimer, pc := pc } { h with refused := true }
  | park (at_pc : c.pc = .parking) : Turn l f c h { c with pc := .parked } h
  | resume (at_pc : c.pc = .parked) :
    Turn l f c h { c with pc := .back } { h with ended := h.ended.or (some .other) }
  | disarm (at_pc : c.pc = .back) :
    Turn l f c h { c with timers := c.stopTimer, pc := .check } h
  | check {pc : Pc} (at_pc : c.pc = .check)
    (leaves : pc = .returned false ∨
      c.cancelled = false ∧ ((∃ event, c.kind = .doIo event) ∧ pc = .io ∨ pc = .sockopt)) :
    Turn l f c h { c with pc := pc } h
  | sockopt {ok : Bool} (at_pc : c.pc = .sockopt) (label : l = .sockopt f ok) :
    Turn l f c h { c with pc := .returned ok } { h with sockopt := some ok }
  | timers {k : ℕ} {state : TimerState} (stopped : state ≠ .armed) :
    Turn l f c h { c with timers := c.timers.set k state } h
  | timedOut {k : ℕ} :
    Turn l f c h { c with timers := c.timers.set k .over, cancelled := true } h

theorem waits_of_manager (hm : t.manager = s.manager) : h.waits s t f l = h := by
  unfold History.waits
  split
  · rw [if_neg]
    rintro ⟨-, -, hs, ht⟩
    rw [hm] at ht
    exact ht hs
  · rfl

theorem waits_of_not_waiting (hc : s.activity f = .call c) (hpc : ¬ Waiting c) :
    h.waits s t f l = h := by
  simp only [History.waits, hc, hpc, false_and, if_false]

omit [DecidableEq F] in
theorem cancelled_of_cause (hflag : Flagged s) (hc : s.activity f = .call c)
    (hcause : cause s c l = .timer) : c.cancelled = true := by
  unfold cause at hcause
  split at hcause
  · split at hcause <;> cases hcause
  · split at hcause
    · rename_i x hx
      split at hcause
      · rename_i hid
        exact hflag x (List.mem_of_getElem? hx) f c hc hid.symm
      · cases hcause
    · cases hcause
  · cases hcause

theorem turn_waits (hflag : Flagged s) (hc : s.activity f = .call c) :
    Turn l f c h c (h.waits s t f l) := by
  simp only [History.waits, hc]
  split
  · rename_i hlost
    exact .ended hlost.1 (cancelled_of_cause hflag hc)
  · exact .same

omit [DecidableEq F] in
theorem refuses_add (hc : s.activity f = .call c) (hpc : c.pc = .add) {ans : Answer}
    {m : IOManagerState K S F C}
    (table : IOManagerBookkeeping.step ctl s.manager
      (.addEvent c.fd c.event none (some iom) f) = some (ans, m)) :
    refuses ctl iom s f = decide (ans.value ≠ 0) := by
  simp only [refuses, hc, hpc, table, Option.any_some, decide_true, Bool.true_and]

omit [DecidableEq F] in
theorem refuses_of_ne (hc : s.activity f = .call c) (hpc : c.pc ≠ .add) :
    refuses ctl iom s f = false := by
  simp only [refuses, hc, hpc, decide_false, Bool.false_and]

theorem own_run (hc : s.activity f = .call c) (hpc : c.pc ≠ .add) :
    h.own ctl iom s f (.run f) = h := by
  simp [History.own, refuses_of_ne hc hpc]

/-- A step of the fiber that is no `addEvent` and leaves the table alone. -/
theorem silent_run (hc : s.activity f = .call c) (hpc : c.pc ≠ .add) (hm : t.manager = s.manager) :
    (h.own ctl iom s f (.run f)).waits s t f (.run f) = h := by
  rw [own_run hc hpc]
  exact waits_of_manager hm

/-- A step of a call: the fiber's own turn, or another's. -/
theorem turn_of_call {g : F} {b c' : Call} (hflag : Flagged s) (hd : t.activity f = .call d)
    (hc : s.activity g = .call b) (ht : t.activity = Function.update s.activity g (.call c'))
    (hother : g ≠ f → h.own ctl iom s f l = h)
    (hturn : g = f → Turn l g b h c' ((h.own ctl iom s g l).waits s t g l)) :
    ∃ c, s.activity f = .call c ∧ Turn l f c h d ((h.own ctl iom s f l).waits s t f l) := by
  rw [ht] at hd
  by_cases hgf : g = f
  · subst hgf
    rw [Function.update_self] at hd
    cases hd
    exact ⟨b, hc, hturn rfl⟩
  · rw [Function.update_of_ne (Ne.symm hgf)] at hd
    rw [hother hgf]
    exact ⟨d, hd, turn_waits hflag hd⟩

theorem turn_of_silent {g : F} {b c' : Call} (hflag : Flagged s) (hd : t.activity f = .call d)
    (hc : s.activity g = .call b) (ht : t.activity = Function.update s.activity g (.call c'))
    (hpc : b.pc ≠ .add) (hm : t.manager = s.manager) (hl : l = .run g)
    (hturn : Turn l g b h c' h) :
    ∃ c, s.activity f = .call c ∧ Turn l f c h d ((h.own ctl iom s f l).waits s t f l) := by
  subst hl
  refine turn_of_call hflag hd hc ht (fun hne => if_neg fun hand => hne hand.1) ?_
  rintro -
  rw [silent_run hc hpc hm]
  exact hturn

/-- What is no call behind the step was not the call of the fiber. -/
theorem turn_of_gone {g : F} {a : Activity} (hflag : Flagged s) (hd : t.activity f = .call d)
    (ht : t.activity = Function.update s.activity g a) (ha : ∀ c, a ≠ .call c)
    (hown : h.own ctl iom s f l = h) :
    ∃ c, s.activity f = .call c ∧ Turn l f c h d ((h.own ctl iom s f l).waits s t f l) := by
  rw [ht] at hd
  by_cases hgf : f = g
  · rw [hgf, Function.update_self] at hd
    exact absurd hd (ha d)
  · rw [Function.update_of_ne hgf] at hd
    rw [hown]
    exact ⟨d, hd, turn_waits hflag hd⟩

theorem turn_of_move (hflag : Flagged s) (hm : Move ctl forget iom s l t)
    (hd : t.activity f = .call d) :
    (∃ c, s.activity f = .call c ∧ Turn l f c h d ((h.own ctl iom s f l).waits s t f l)) ∨
      (∃ kind fd, d = starting s kind fd) ∧ (h.own ctl iom s f l).waits s t f l = .fresh := by
  cases hm with
  | @start g kind fd free =>
    change Function.update s.activity g _ f = _ at hd
    by_cases hgf : f = g
    · subst hgf
      rw [Function.update_self] at hd
      cases hd
      refine .inr ⟨⟨kind, fd, rfl⟩, ?_⟩
      rw [waits_of_manager (by rfl)]
      exact if_pos rfl
    · rw [Function.update_of_ne hgf] at hd
      rw [show h.own ctl iom s f (.start g kind fd) = h from if_neg (Ne.symm hgf)]
      exact .inl ⟨d, hd, turn_waits hflag hd⟩
  | @io g outcome c at_call at_pc =>
    refine .inl (turn_of_call hflag hd at_call rfl (fun hne => if_neg hne) ?_)
    rintro -
    rw [waits_of_manager (by rfl), History.own, if_pos rfl]
    exact .io at_pc
  | arm at_call at_pc =>
    exact .inl (turn_of_silent hflag hd at_call rfl (by simp [at_pc]) rfl rfl (.arm at_pc))
  | @added g c ans m at_call at_pc table granted =>
    refine .inl (turn_of_call hflag hd at_call rfl (fun hne => if_neg fun hand => hne hand.1) ?_)
    rintro -
    rw [waits_of_not_waiting at_call (by simp [Waiting, at_pc])]
    simp only [History.own, refuses_add at_call at_pc table, granted, ne_eq, not_true_eq_false,
      decide_false, Bool.false_eq_true, and_false, if_false]
    exact .added at_pc
  | @addFails g c ans m pc at_call at_pc table refused leaves =>
    refine .inl (turn_of_call hflag hd at_call rfl (fun hne => if_neg fun hand => hne hand.1) ?_)
    rintro -
    rw [waits_of_not_waiting at_call (by simp [Waiting, at_pc])]
    simp only [History.own, refuses_add at_call at_pc table, refused, ne_eq, not_false_eq_true,
      decide_true, and_self, if_true]
    exact .addFails at_pc leaves
  | park at_call at_pc =>
    exact .inl (turn_of_silent hflag hd at_call rfl (by simp [at_pc]) rfl rfl (.park at_pc))
  | disarm at_call at_pc =>
    exact .inl (turn_of_silent hflag hd at_call rfl (by simp [at_pc]) rfl rfl (.disarm at_pc))
  | check at_call at_pc leaves =>
    exact .inl (turn_of_silent hflag hd at_call rfl (by simp [at_pc]) rfl rfl
      (.check at_pc (leaves.imp And.right id)))
  | @resume g c at_call at_pc =>
    refine .inl (turn_of_call hflag hd at_call rfl (fun hne => if_neg hne) ?_)
    rintro -
    rw [waits_of_manager (by rfl), History.own, if_pos rfl]
    exact .resume at_pc
  | @sockopt g ok c at_call at_pc =>
    refine .inl (turn_of_call hflag hd at_call rfl (fun hne => if_neg hne) ?_)
    rintro -
    rw [waits_of_manager (by rfl), History.own, if_pos rfl]
    exact .sockopt at_pc rfl
  | expire at_call | tooLate at_call =>
    refine .inl (turn_of_call hflag hd at_call rfl (fun _ => rfl) ?_)
    rintro -
    rw [waits_of_manager (by rfl)]
    exact .timers nofun
  | timedOut at_call =>
    refine .inl (turn_of_call hflag hd at_call rfl (fun _ => rfl) ?_)
    rintro -
    rw [waits_of_manager (by rfl)]
    exact .timedOut
  | close | closeCancel | closeDel | closeFree => exact .inl (turn_of_gone hflag hd rfl nofun rfl)
  | cancel | socket | create | setTimeout | setUserNonblock | other =>
    exact .inl ⟨d, hd, turn_waits hflag hd⟩

end Turns

/-- What has happened to a connect at each point of its code. -/
def SoFar (h : History) : Pc → Prop
  | .direct | .io | .arm | .add => h = .fresh
  | .parking | .parked => h.connected = false ∧ h.refused = false
  | .back | .check => h.connected = false ∧ h.refused = false ∧ h.ended ≠ none
  | .sockopt =>
    h.connected = false ∧ (h.refused = true ∨ h.ended = some .event ∨ h.ended = some .other)
  | .returned _ => True

/-- Only the last timer of a call can be in the set, and only until the wait is over. -/
def Disarmed (c : Call) : Prop :=
  .armed ∉ match c.pc with
    | .add | .parking | .parked | .back => c.timers.dropLast
    | .direct | .io | .arm | .check | .sockopt | .returned _ => c.timers

structure Stage (h : History) (c : Call) : Prop where
  soFar : SoFar h c.pc
  flagged : h.ended = some .timer → c.cancelled = true
  disarmed : Disarmed c

section Stages

variable {l : Label S F C} {f : F} {c d : Call} {h h' : History} {ms : UInt64}

theorem not_armed_set {ts : List TimerState} {k : ℕ} {x : TimerState} (hx : x ≠ .armed)
    (hts : .armed ∉ ts) : .armed ∉ ts.set k x := by
  intro hmem
  rcases List.mem_or_eq_of_mem_set hmem with hmem | heq
  · exact hts hmem
  · exact hx heq.symm

theorem not_armed_dropLast_set {ts : List TimerState} {k : ℕ} {x : TimerState}
    (hx : x ≠ .armed) (hts : .armed ∉ ts.dropLast) : .armed ∉ (ts.set k x).dropLast := by
  rw [List.dropLast_eq_take] at hts ⊢
  rw [List.length_set, List.take_set]
  exact not_armed_set hx hts

theorem not_armed_stopTimer (hts : .armed ∉ c.timers.dropLast) : .armed ∉ c.stopTimer := by
  unfold Call.stopTimer
  split
  · simpa using hts
  · rename_i hlast
    intro hmem
    cases hx : c.timers.getLast? with
    | none =>
      rw [List.getLast?_eq_none_iff.1 hx] at hmem
      cases hmem
    | some x =>
      rw [← List.dropLast_append_getLast? x hx] at hmem
      rcases List.mem_append.1 hmem with hmem | hmem
      · exact hts hmem
      · obtain rfl := List.mem_singleton.1 hmem
        exact hlast hx

theorem disarmed_set {k : ℕ} {x : TimerState} (hx : x ≠ .armed) (hc : Disarmed c) :
    Disarmed { c with timers := c.timers.set k x } := by
  unfold Disarmed at hc ⊢
  dsimp only at hc ⊢
  cases hpc : c.pc <;> rw [hpc] at hc <;>
    first | exact not_armed_set hx hc | exact not_armed_dropLast_set hx hc

/-- With the answer of the original function a connect goes on to wait or returns. -/
theorem afterIo_connect (hkind : c.kind = .connect ms) (outcome : Outcome) :
    c.afterIo outcome = .arm ∧ outcome = .again ∨
      ∃ ok, c.afterIo outcome = .returned ok ∧ ok = decide (outcome = .ok) := by
  unfold Call.afterIo
  rw [hkind]
  cases outcome <;> cases c.pc <;> simp

theorem entryPoint_cases (ctx : Option FdCtx) (kind : Kind) :
    (entryPoint ctx kind).1 = .direct ∨ (entryPoint ctx kind).1 = .io ∨
      (entryPoint ctx kind).1 = .returned false := by
  cases ctx with
  | none => cases kind <;> simp [entryPoint]
  | some ctx =>
    cases kind with
    | doIo event =>
      simp only [entryPoint]
      split_ifs <;> simp
    | connect ms =>
      simp only [entryPoint]
      split_ifs <;> simp

theorem stage_start (s : State K S F C) (kind : Kind) (fd : ℕ) :
    Stage .fresh (starting s kind fd) := by
  refine ⟨?_, nofun, ?_⟩
  · unfold starting
    rcases entryPoint_cases (s.fds.get fd) kind with h | h | h <;> rw [h] <;>
      first | exact rfl | trivial
  · unfold starting Disarmed
    rcases entryPoint_cases (s.fds.get fd) kind with h | h | h <;> rw [h] <;> exact nofun

theorem Stage.soFar_at {pc : Pc} (hs : Stage h c) (hpc : c.pc = pc) : SoFar h pc := by
  subst hpc
  exact hs.soFar

theorem Stage.unanswered (hs : Stage h c) (hpc : c.pc = .direct ∨ c.pc = .io) : h = .fresh := by
  rcases hpc with hpc | hpc <;> exact hs.soFar_at hpc

theorem soFar_turn (hs : Stage h c) (hkind : c.kind = .connect ms) (hturn : Turn l f c h d h') :
    SoFar h' d.pc := by
  cases hturn with
  | same => exact hs.soFar
  | timers | timedOut => exact hs.soFar
  | ended waiting =>
    have hsoFar := hs.soFar
    rcases waiting with hpc | hpc <;> simp only [hpc] at hsoFar ⊢ <;> exact hsoFar
  | @io outcome at_pc =>
    obtain rfl := hs.unanswered at_pc
    rcases afterIo_connect hkind outcome with ⟨hafter, rfl⟩ | ⟨ok, hafter, -⟩
    · simp only [hafter]
      rfl
    · simp only [hafter]
      trivial
  | arm at_pc =>
    have hsoFar := hs.soFar_at at_pc
    exact hsoFar
  | added at_pc =>
    obtain rfl : h = .fresh := hs.soFar_at at_pc
    exact ⟨rfl, rfl⟩
  | addFails at_pc leaves =>
    obtain rfl : h = .fresh := hs.soFar_at at_pc
    rcases leaves with rfl | rfl
    · trivial
    · exact ⟨rfl, .inl rfl⟩
  | park at_pc =>
    have hsoFar := hs.soFar_at at_pc
    exact hsoFar
  | resume at_pc =>
    obtain ⟨hconnected, hrefused⟩ := hs.soFar_at at_pc
    refine ⟨hconnected, hrefused, ?_⟩
    cases h.ended <;> nofun
  | disarm at_pc =>
    have hsoFar := hs.soFar_at at_pc
    exact hsoFar
  | check at_pc leaves =>
    obtain ⟨hconnected, -, hsome⟩ := hs.soFar_at at_pc
    rcases leaves with rfl | ⟨hnot, ⟨⟨event, hdo⟩, -⟩ | rfl⟩
    · trivial
    · cases hkind.symm.trans hdo
    · -- the timer is ruled out by the flag that its callback sets before it cancels the event
      refine ⟨hconnected, .inr ?_⟩
      cases hended : h.ended with
      | none => exact absurd hended hsome
      | some why =>
        cases why with
        | event => exact .inl rfl
        | timer => cases hnot.symm.trans (hs.flagged hended)
        | other => exact .inr rfl
  | sockopt => trivial

theorem disarmed_turn (hc : Disarmed c) (hkind : c.kind = .connect ms)
    (hturn : Turn l f c h d h') : Disarmed d := by
  cases hturn with
  | same | ended => exact hc
  | timers stopped => exact disarmed_set stopped hc
  | timedOut => exact disarmed_set nofun hc
  | @io outcome at_pc =>
    have hnone : TimerState.armed ∉ c.timers := by
      rcases at_pc with hpc | hpc <;> simpa only [Disarmed, hpc] using hc
    rcases afterIo_connect hkind outcome with ⟨hafter, -⟩ | ⟨ok, hafter, -⟩ <;>
      simpa only [Disarmed, hafter] using hnone
  | arm at_pc =>
    simp only [Disarmed, at_pc] at hc ⊢
    split
    · exact fun hmem => hc (List.dropLast_subset _ hmem)
    · rwa [List.dropLast_concat]
  | added at_pc | park at_pc | resume at_pc =>
    simpa only [Disarmed, at_pc] using hc
  | disarm at_pc =>
    simp only [Disarmed, at_pc] at hc ⊢
    exact not_armed_stopTimer hc
  | addFails at_pc leaves =>
    simp only [Disarmed, at_pc] at hc
    rcases leaves with rfl | rfl <;> exact not_armed_stopTimer hc
  | check at_pc leaves =>
    simp only [Disarmed, at_pc] at hc
    rcases leaves with rfl | ⟨-, ⟨-, rfl⟩ | rfl⟩ <;> exact hc
  | sockopt at_pc => simpa only [Disarmed, at_pc] using hc

theorem kind_turn (hturn : Turn l f c h d h') :
    d.id = c.id ∧ d.kind = c.kind ∧ (c.cancelled = true → d.cancelled = true) := by
  cases hturn <;> simp

theorem stage_turn (hs : Stage h c) (hkind : c.kind = .connect ms)
    (hturn : Turn l f c h d h') : Stage h' d := by
  refine ⟨soFar_turn hs hkind hturn, ?_, disarmed_turn hs.disarmed hkind hturn⟩
  intro hended
  obtain ⟨-, -, hkeep⟩ := kind_turn hturn
  cases hturn with
  | ended waiting flagged => exact flagged (Option.some.inj hended)
  | resume at_pc =>
    apply hs.flagged
    cases hold : h.ended with
    | none => simp [hold] at hended
    | some why => simpa [hold] using hended
  | _ => exact hkeep (hs.flagged hended)

/-- A connect that is through with 0 was so before, has the answer of the original, or has
just read its `SO_ERROR`. -/
theorem returned_turn (hs : Stage h c) (hkind : c.kind = .connect ms)
    (hturn : Turn l f c h d h') (hd : d.pc = .returned true) :
    c.pc = .returned true ∧ h' = h ∨
      h'.connected = true ∧ h'.ended = none ∧ h'.refused = false ∨
      c.pc = .sockopt ∧ l = .sockopt f true ∧ h' = { h with sockopt := some true } := by
  cases hturn with
  | same => exact .inl ⟨hd, rfl⟩
  | timers | timedOut => exact .inl ⟨hd, rfl⟩
  | ended waiting => rcases waiting with hpc | hpc <;> cases hpc.symm.trans hd
  | @io outcome at_pc =>
    have hok : outcome = .ok := by
      rcases afterIo_connect hkind outcome with ⟨hafter, -⟩ | ⟨ok, hafter, heq⟩
      · cases hafter.symm.trans hd
      · cases hafter.symm.trans hd
        exact of_decide_eq_true heq.symm
    obtain rfl := hs.unanswered at_pc
    exact .inr (.inl ⟨decide_eq_true hok, rfl, rfl⟩)
  | addFails at_pc leaves => rcases leaves with rfl | rfl <;> cases hd
  | check at_pc leaves => rcases leaves with rfl | ⟨-, ⟨-, rfl⟩ | rfl⟩ <;> cases hd
  | arm | added | park | resume | disarm => cases hd
  | sockopt at_pc label =>
    cases hd
    exact .inr (.inr ⟨at_pc, label, rfl⟩)

end Stages

section Runs

variable [DecidableEq F] {ctl : K → CtlOp → ℕ → EventMask → Bool × K} {forget : K → ℕ → K}
  {iom : S} {w v : Watched K S F C} {l : Label S F C} {f : F} {c d : Call} {ms : UInt64}

structure Invariant (w : Watched K S F C) : Prop where
  named : Named w.state
  flagged : Flagged w.state
  stage : ∀ f c ms, w.state.activity f = .call c → c.kind = .connect ms → Stage (w.history f) c

theorem step_some {o : Unit} (hv : w.step ctl forget iom l = some (o, v)) :
    Move ctl forget iom w.state l v.state ∧
      ∀ f, v.history f = ((w.history f).own ctl iom w.state f l).waits w.state v.state f l := by
  obtain ⟨⟨u, t⟩, hstep, heq⟩ := Option.map_eq_some_iff.1 hv
  cases heq
  exact ⟨move_of_step hstep, fun _ => rfl⟩

theorem turn_of_step {o : Unit} (hflag : Flagged w.state)
    (hv : w.step ctl forget iom l = some (o, v)) (hd : v.state.activity f = .call d) :
    (∃ c, w.state.activity f = .call c ∧ Turn l f c (w.history f) d (v.history f)) ∨
      (∃ kind fd, d = starting w.state kind fd) ∧ v.history f = .fresh := by
  obtain ⟨hmove, hhistory⟩ := step_some hv
  rw [hhistory f]
  exact turn_of_move hflag hmove hd

theorem new_cancelling {s t : State K S F C} (hm : Move ctl forget iom s l t) {x : Cancelling}
    (hx : x ∈ t.cancelling) :
    x ∈ s.cancelling ∨ ∃ f c, t.activity f = .call c ∧ c.id = x.id ∧ c.cancelled = true := by
  cases hm with
  | @timedOut f k c at_call =>
    rcases List.mem_append.1 hx with hx | hx
    · exact .inl hx
    · obtain rfl := List.mem_singleton.1 hx
      exact .inr ⟨f, _, Function.update_self .., rfl, rfl⟩
  | cancel => exact .inl (List.mem_of_mem_eraseIdx hx)
  | _ => exact .inl hx

theorem flagged_step {o : Unit} (hw : Invariant w) (hv : w.step ctl forget iom l = some (o, v)) :
    Flagged v.state := by
  obtain ⟨hmove, -⟩ := step_some hv
  intro x hx f d hd hid
  rcases new_cancelling hmove hx with hold | ⟨g, c, hc, hid', hcancelled⟩
  · rcases turn_of_step hw.flagged hv hd with ⟨c, hc, hturn⟩ | ⟨⟨kind, fd, rfl⟩, -⟩
    · obtain ⟨hsame, -, hkeep⟩ := kind_turn hturn
      exact hkeep (hw.flagged x hold f c hc (hsame.symm.trans hid))
    · -- a call that starts has an id no callback carries
      have hlt := hw.named.callbacks x hold
      exact absurd hid (Nat.ne_of_gt hlt)
  · obtain rfl : f = g := (named_move hw.named hmove).distinct f g d c hd hc (hid.trans hid'.symm)
    cases hc.symm.trans hd
    exact hcancelled

theorem invariant_step {o : Unit} (hw : Invariant w)
    (hv : w.step ctl forget iom l = some (o, v)) : Invariant v := by
  obtain ⟨hmove, -⟩ := step_some hv
  refine ⟨named_move hw.named hmove, flagged_step hw hv, ?_⟩
  intro f d ms hd hkind
  rcases turn_of_step hw.flagged hv hd with ⟨c, hc, hturn⟩ | ⟨⟨kind, fd, rfl⟩, hfresh⟩
  · obtain ⟨-, hsame, -⟩ := kind_turn hturn
    have hc' : c.kind = .connect ms := hsame.symm.trans hkind
    exact stage_turn (hw.stage f c ms hc hc') hc' hturn
  · rw [hfresh]
    exact stage_start w.state kind fd

theorem ended_of_not_refused {h : History} (hstage : Stage h c) (hpc : c.pc = .sockopt)
    (hrefused : h.refused = false) (hother : h.ended ≠ some .other) : h.ended = some .event := by
  obtain ⟨-, h | h | h⟩ := hstage.soFar_at hpc
  · cases hrefused.symm.trans h
  · exact h
  · exact absurd h hother

/-- After a clear step every connect that has returned is right. -/
theorem right_of_clear {o : Unit} (hw : Invariant w) (hright : Right w) (hclear : Clear w l)
    (hv : w.step ctl forget iom l = some (o, v)) : Right v := by
  intro f d ms hd hkind
  have hdisarmed := ((invariant_step hw hv).stage f d ms hd hkind).disarmed
  have htimer : ¬ d.Active → .armed ∉ d.timers := by
    intro hactive
    simp only [Call.Active, not_and_or, ne_eq, not_not] at hactive
    rcases hactive with hpc | hpc <;> simpa only [Disarmed, hpc] using hdisarmed
  by_cases hpc : d.pc = .returned true
  · rcases turn_of_step hw.flagged hv hd with ⟨c, hc, hturn⟩ | ⟨⟨kind, fd, rfl⟩, -⟩
    · obtain ⟨-, hsame, -⟩ := kind_turn hturn
      have hkind' : c.kind = .connect ms := hsame.symm.trans hkind
      have hstage := hw.stage f c ms hc hkind'
      rcases returned_turn hstage hkind' hturn hpc with
        ⟨hold, heq⟩ | ⟨hconnected, hended, hrefused⟩ | ⟨hold, rfl, heq⟩
      · obtain ⟨hsuccess, hfailure, -⟩ := hright f c ms hc hkind'
        rw [heq]
        exact ⟨fun _ => hsuccess hold, fun hfail => absurd hold (hfailure hfail), htimer⟩
      · refine ⟨fun _ => .inl hconnected, fun hfail => ?_, htimer⟩
        simp [hended, hrefused] at hfail
      · -- `SO_ERROR` was read after the event, the one way left to come here
        obtain ⟨hrefused, hother⟩ := hclear c ms hc hold hkind'
        have hevent := ended_of_not_refused hstage hold hrefused hother
        rw [heq]
        refine ⟨fun _ => .inr ⟨hevent, rfl⟩, fun hfail => ?_, htimer⟩
        simp [hevent, hrefused] at hfail
    · rcases entryPoint_cases (w.state.fds.get fd) kind with h | h | h <;>
        cases h.symm.trans hpc
  · exact ⟨fun h => absurd h hpc, fun _ => hpc, htimer⟩

theorem step_sockopt (hc : w.state.activity f = .call c) (hpc : c.pc = .sockopt) (ok : Bool) :
    ∃ v, w.step ctl forget iom (.sockopt f ok) = some ((), v) ∧
      v.state.activity f = .call { c with pc := .returned ok } ∧
      v.history f = { w.history f with sockopt := some ok } := by
  have hstep : SylarHook.step ctl forget iom w.state (.sockopt f ok) =
      some ((), w.state.setCall f { c with pc := .returned ok }) := by
    simp [SylarHook.step, stepState, hc, hpc]
  refine ⟨_, by rw [Watched.step, hstep]; rfl, Function.update_self .., ?_⟩
  dsimp only
  rw [waits_of_manager (by rfl)]
  exact if_pos rfl

/-- A step leads to a right state exactly when it is clear. -/
theorem right_iff_clear (hw : Invariant w) (hright : Right w) :
    (∀ o v, w.step ctl forget iom l = some (o, v) → Right v) ↔ Clear w l := by
  constructor
  · intro hall
    unfold Clear
    split
    · rename_i f
      intro c ms hc hpc hkind
      obtain ⟨v, hv, hd, hhistory⟩ := step_sockopt hc hpc true
      have hresult := hall () v hv f _ ms hd hkind
      obtain ⟨hconnected, -⟩ := (hw.stage f c ms hc hkind).soFar_at hpc
      rw [hhistory] at hresult
      constructor
      · by_contra hrefused
        exact hresult.failure (.inr (Bool.not_eq_false _ ▸ hrefused)) rfl
      · rcases hresult.success rfl with hok | ⟨hevent, -⟩
        · cases hconnected.symm.trans hok
        · intro hother
          cases hevent.symm.trans hother
    · trivial
  · intro hclear o v hv
    exact right_of_clear hw hright hclear hv

omit [DecidableEq F] in
theorem invariant_initial (k : K) : Invariant (.initial k : Watched K S F C) := by
  refine ⟨named_initial k, ?_, ?_⟩
  · rintro x ⟨⟩
  · rintro f c ms ⟨⟩

/-- The history changes nothing: a watched run is the run of the hooked calls. -/
theorem state_run (w : Watched K S F C) (ls : List (Label S F C)) :
    (run (Watched.step ctl forget iom) w ls).map (fun r => (r.1, r.2.state)) =
      run (SylarHook.step ctl forget iom) w.state ls := by
  induction ls generalizing w with
  | nil => rfl
  | cons l ls ih =>
    cases hstep : SylarHook.step ctl forget iom w.state l with
    | none =>
      have hw : w.step ctl forget iom l = none := by simp [Watched.step, hstep]
      simp [run, hw, hstep]
    | some r =>
      obtain ⟨o, t⟩ := r
      let v : Watched K S F C :=
        ⟨t, fun f => ((w.history f).own ctl iom w.state f l).waits w.state t f l⟩
      have hw : w.step ctl forget iom l = some (o, v) := by simp [Watched.step, hstep, v]
      have hrest : _ = run (SylarHook.step ctl forget iom) t ls := ih v
      rw [run_cons ls hw, run_cons ls hstep, ← hrest, Option.map_map, Option.map_map]
      rfl

end Runs

/-- The connects of a run return the right results exactly when no `SO_ERROR` of 0 is read
after an `addEvent` that failed or a wait that ended with neither event nor timer. -/
theorem connect_right_iff [DecidableEq F] (ctl : K → CtlOp → ℕ → EventMask → Bool × K)
    (forget : K → ℕ → K) (iom : S) (k : K) (ls : List (Label S F C)) :
    (∀ n os w, run (Watched.step ctl forget iom) (.initial k) (ls.take n) = some (os, w) →
      Right w) ↔ Guarded Clear (Watched.step ctl forget iom) (.initial k) ls := by
  refine forall_run_iff_guarded (I := Invariant) ?_ ?_ (invariant_initial k) ?_
    (guarded_true _ ls)
  · intro w l o v hw _ hv
    exact invariant_step hw hv
  · intro w l hw hright _
    exact right_iff_clear hw hright
  · rintro f c ms ⟨⟩

/-- An `epoll_ctl` that has no room for another descriptor. -/
def full : ℕ → CtlOp → ℕ → EventMask → Bool × ℕ := fun k _ _ _ => (false, k)

/-- The connect of fiber 1 is in progress and cannot be waited for. -/
def refusedConnect : List (Label ℕ ℕ ℕ) :=
  blocked (.connect 1000) ++ [.run 1, .run 1, .sockopt 1 true]

/-- Fiber 2 closes the descriptor that the connect of fiber 1 waits for. -/
def closedConnect : List (Label ℕ ℕ ℕ) :=
  blocked (.connect 1000) ++
    [.run 1, .run 1, .run 1, .close 2 5, .closeStep 2, .resume 1, .run 1, .run 1, .sockopt 1 true]

/-- Fiber 2 waits for bytes on the descriptor, and their arrival wakes both fibers. -/
def readableConnect : List (Label ℕ ℕ ℕ) :=
  blocked (.connect 1000) ++
    [.run 1, .run 1, .run 1, .start 2 (.doIo .read) 5, .io 2 .again, .run 2, .run 2, .run 2,
      .other (.dispatch 5 ⟨true, false, false, false⟩), .resume 1, .run 1, .run 1, .sockopt 1 true]

/-- The connects return 0 although nothing has been connected. -/
theorem unfinished_connects_succeed :
    (∃ os w c, run (Watched.step full (fun k _ => k) 0) (.initial 0) refusedConnect =
        some (os, w) ∧ w.state.activity 1 = .call c ∧ c.kind = .connect 1000 ∧
      c.pc = .returned true ∧ w.history 1 = ⟨false, true, none, some true⟩ ∧ ¬ Right w) ∧
    ∀ ls ∈ [closedConnect, readableConnect],
      ∃ os w c, run (Watched.step agree (fun k _ => k) 0) (.initial 0) ls =
          some (os, w) ∧ w.state.activity 1 = .call c ∧ c.kind = .connect 1000 ∧
        c.pc = .returned true ∧ w.history 1 = ⟨false, false, some .other, some true⟩ ∧
        ¬ Right w := by
  have hunright : ∀ {w : Watched ℕ ℕ ℕ ℕ} {c : Call}, w.state.activity 1 = .call c →
      c.kind = .connect 1000 → c.pc = .returned true →
      w.history 1 = ⟨false, false, some .other, some true⟩ → ¬ Right w := by
    intro w c hc hkind hpc hhistory hright
    have hsuccess := (hright 1 c 1000 hc hkind).success hpc
    rw [hhistory] at hsuccess
    rcases hsuccess with h | ⟨h, -⟩ <;> cases h
  refine ⟨⟨_, _, _, rfl, rfl, rfl, rfl, rfl, ?_⟩, ?_⟩
  · intro hright
    exact (hright 1 _ 1000 rfl rfl).failure (.inr rfl) rfl
  · intro ls hls
    rcases List.mem_pair.1 hls with rfl | rfl
    · exact ⟨_, _, _, rfl, rfl, rfl, rfl, rfl, hunright rfl rfl rfl rfl⟩
    · exact ⟨_, _, _, rfl, rfl, rfl, rfl, rfl, hunright rfl rfl rfl rfl⟩

end HookConnect
