import SylarNet.SylarHook

/-!
# Timeouts of the hooked socket calls

`do_io` and `connect_with_timeout` arm their timer before they add the event that its callback
cancels. A callback that is through before `addEvent` finds nothing to cancel, and the fiber
then waits for an event that no timer guards any more.
-/
namespace HookTimeouts

open IOManagerEvents IOManagerState IOManagerBookkeeping SylarHook

variable {K S F C : Type}

section Table

/-- The event is registered for the fiber. -/
def Awaits (m : IOManagerState K S F C) (fd : ℕ) (event : Event) (f : F) : Prop :=
  (m.context fd).events.has event = true ∧ ((m.context fd).getContext event).fiber = some f

variable {ctl : K → CtlOp → ℕ → EventMask → Bool × K} {m n : IOManagerState K S F C}
  {op : Op S F C} {ans : Answer}

def WithScheduler : Op S F C → Prop
  | .addEvent _ _ _ this _ => this.isSome
  | _ => True

/-- The assertions of `addEvent` and `dispatch` let only allowed operations through. -/
theorem allowed_of_step (hm : Bookkeeping m) (hthis : WithScheduler op)
    (h : IOManagerBookkeeping.step ctl m op = some (ans, n)) : Allowed m op := by
  cases op with
  | addEvent fd event cb this self =>
    refine ⟨?_, hthis⟩
    obtain ⟨-, hget, -⟩ := grow_spec hm fd
    by_contra hev
    rw [Bool.not_eq_false] at hev
    have hgrow : (if fd < m.fdContexts.length then m else m.contextResize (fd * 3 / 2)) =
        grow m fd := rfl
    simp [IOManagerBookkeeping.step, addEvent, hgrow, hget, hev, Except.toOption] at h
  | dispatch fd e =>
    by_contra hlt
    have hget : m.fdContexts[fd]? = none := List.getElem?_eq_none (Nat.le_of_not_lt hlt)
    simp [IOManagerBookkeeping.step, dispatch, hget, Except.toOption] at h
  | delEvent | cancelEvent | cancelAll => trivial

theorem settled_of_step (hm : Bookkeeping m)
    (h : IOManagerBookkeeping.step ctl m op = some (ans, n)) (hthis : WithScheduler op) :
    Settled ctl m op ans n ∧ Bookkeeping n := by
  obtain ⟨ans', n', hstep, hset, hn⟩ := step_settled ctl hm (allowed_of_step hm hthis h)
  cases hstep.symm.trans h
  exact ⟨hset, hn⟩

theorem fiber_register {ctx : FdContext S F C} {event event' : Event} {cb : Option C}
    {this : Option S} {self f : F}
    (hev : (register ctx event cb this self).events.has event' = true)
    (hf : ((register ctx event cb this self).getContext event').fiber = some f) :
    ctx.events.has event' = true ∧ (ctx.getContext event').fiber = some f ∨
      cb = none ∧ self = f := by
  cases cb with
  | none =>
    cases event <;> cases event' <;>
      simp_all [register, FdContext.setContext, FdContext.getContext, EventMask.has, EventMask.add]
  | some c =>
    cases event <;> cases event' <;>
      simp_all [register, FdContext.setContext, FdContext.getContext, EventMask.has, EventMask.add]

theorem fiber_unregister {ctx : FdContext S F C} {event event' : Event} {f : F}
    (hev : (unregister ctx event).events.has event' = true)
    (hf : ((unregister ctx event).getContext event').fiber = some f) :
    event' ≠ event ∧ ctx.events.has event' = true ∧ (ctx.getContext event').fiber = some f := by
  cases event <;> cases event' <;>
    simp_all [unregister, FdContext.resetContext, FdContext.setContext, FdContext.getContext,
      EventContext.empty, EventMask.has, EventMask.remove]

/-- Nobody but a fiber itself registers it. -/
theorem awaits_of_settled (h : Settled ctl m op ans n) {fd : ℕ} {event : Event} {f : F}
    (hself : ∀ fd event this, op ≠ .addEvent fd event none this f)
    (hn : Awaits n fd event f) : Awaits m fd event f := by
  cases h with
  | unasked => exact hn
  | refused _ _ _ hctx => rwa [Awaits, hctx] at hn
  | granted _ _ _ hctx hother =>
    by_cases hfd : fd = op.fd
    · subst hfd
      rw [Awaits, hctx] at hn
      cases op with
      | addEvent fd' event' cb this self =>
        rcases fiber_register hn.1 hn.2 with hold | ⟨rfl, rfl⟩
        · exact hold
        · exact absurd rfl (hself _ _ _)
      | delEvent fd' event' | cancelEvent fd' event' => exact (fiber_unregister hn.1 hn.2).2
      | cancelAll | dispatch =>
        have hnone := hn.1
        cases event <;> cases hnone
    · rwa [Awaits, hother fd hfd] at hn

/-- After a `cancelEvent` that the kernel did not refuse nobody awaits the event. -/
theorem not_awaits_cancelEvent {fd : ℕ} {event : Event} {f : F}
    (h : Settled ctl m (.cancelEvent fd event) ans n) (hgranted : ans.ctl ≠ some false) :
    ¬ Awaits n fd event f := by
  intro hn
  cases h with
  | unasked h =>
    simp [Op.request, Op.fd, hn.1] at h
  | refused => exact hgranted rfl
  | granted _ _ _ hctx =>
    change n.context fd = unregister (m.context fd) event at hctx
    rw [Awaits, hctx] at hn
    exact (fiber_unregister hn.1 hn.2).1 rfl

end Table

/-- A callback of the call is on its way to `cancelEvent`. -/
def Settling (s : State K S F C) (c : Call) : Prop := ∃ x ∈ s.cancelling, x.id = c.id

/-- The fiber waits though the callback of its timer has come and gone. -/
def Missed [DecidableEq F] (s : State K S F C) (f : F) : Prop :=
  ∃ c, s.activity f = .call c ∧ c.pc = .parked ∧ c.cancelled = true ∧ ¬ Settling s c ∧
    Awaits s.manager c.fd c.event f ∧ ¬ s.Scheduled f

/-- The callback of a call does not come to its end before the event is added, and the kernel
does not refuse the `epoll_ctl` of a callback whose fiber awaits the event. -/
def InTime (ctl : K → CtlOp → ℕ → EventMask → Bool × K) (s : State K S F C) :
    Label S F C → Prop
  | .run f => ∀ c, s.activity f = .call c → c.pc = .add → c.cancelled = true → Settling s c
  | .cancel k => ∀ x f c o mask, s.cancelling[k]? = some x → s.activity f = .call c →
    c.id = x.id → Awaits s.manager c.fd c.event f →
    (Op.cancelEvent x.fd x.event : Op S F C).request (s.manager.context x.fd) = some (o, mask) →
    (ctl s.manager.kernel o x.fd mask).1 = true
  | _ => True

section Calls

variable [DecidableEq F] {ctl : K → CtlOp → ℕ → EventMask → Bool × K} {forget : K → ℕ → K}
  {iom : S} {s t : State K S F C} {l : Label S F C}

/-- The call is the one it was, or it starts with this step. -/
theorem call_of_move (hm : Move ctl forget iom s l t) {g : F} {d : Call}
    (h : t.activity g = .call d) :
    (∃ c, s.activity g = .call c ∧ d.id = c.id ∧ d.fd = c.fd ∧ d.kind = c.kind) ∨
      ∃ kind fd, l = .start g kind fd ∧ d.id = s.calls := by
  have own : ∀ {f c c'}, s.activity f = .call c →
      t.activity = Function.update s.activity f (.call c') → c'.id = c.id → c'.fd = c.fd →
      c'.kind = c.kind →
      ∃ c, s.activity g = .call c ∧ d.id = c.id ∧ d.fd = c.fd ∧ d.kind = c.kind := by
    intro f c c' hc ht hid hfd hkind
    rw [ht] at h
    by_cases hgf : g = f
    · rw [hgf, Function.update_self] at h
      cases h
      exact ⟨c, hgf ▸ hc, hid, hfd, hkind⟩
    · rw [Function.update_of_ne hgf] at h
      exact ⟨d, h, rfl, rfl, rfl⟩
  have gone : ∀ {f a}, t.activity = Function.update s.activity f a → (∀ c, a ≠ .call c) →
      ∃ c, s.activity g = .call c ∧ d.id = c.id ∧ d.fd = c.fd ∧ d.kind = c.kind := by
    intro f a ht ha
    rw [ht] at h
    by_cases hgf : g = f
    · rw [hgf, Function.update_self] at h
      exact absurd h (ha d)
    · rw [Function.update_of_ne hgf] at h
      exact ⟨d, h, rfl, rfl, rfl⟩
  cases hm with
  | @start f kind fd free =>
    change Function.update s.activity f _ g = _ at h
    by_cases hgf : g = f
    · subst hgf
      rw [Function.update_self] at h
      cases h
      exact .inr ⟨kind, fd, rfl, rfl⟩
    · rw [Function.update_of_ne hgf] at h
      exact .inl ⟨d, h, rfl, rfl, rfl⟩
  | io at_call | arm at_call | added at_call | addFails at_call | park at_call | disarm at_call
  | check at_call | resume at_call | sockopt at_call | expire at_call | timedOut at_call
  | tooLate at_call =>
    exact .inl (own at_call rfl rfl rfl rfl)
  | close | closeCancel | closeDel | closeFree => exact .inl (gone rfl nofun)
  | cancel | socket | create | setTimeout | setUserNonblock | other =>
    exact .inl ⟨d, h, rfl, rfl, rfl⟩

theorem calls_of_move (hm : Move ctl forget iom s l t) :
    s.calls ≤ t.calls ∧ ∀ g kind fd, l = .start g kind fd → s.calls < t.calls := by
  cases hm with
  | start => exact ⟨Nat.le_succ _, fun _ _ _ _ => Nat.lt_succ_self _⟩
  | _ => exact ⟨Nat.le_refl _, nofun⟩

theorem cancelling_of_move (hm : Move ctl forget iom s l t) {x : Cancelling}
    (hx : x ∈ t.cancelling) :
    x ∈ s.cancelling ∨ ∃ f c, s.activity f = .call c ∧ x = ⟨c.id, c.fd, c.event⟩ := by
  cases hm with
  | @timedOut f k c at_call =>
    rcases List.mem_append.1 hx with hx | hx
    · exact .inl hx
    · exact .inr ⟨f, c, at_call, List.mem_singleton.1 hx⟩
  | cancel => exact .inl (List.mem_of_mem_eraseIdx hx)
  | _ => exact .inl hx

/-- Every call has an id of its own, which its callbacks keep together with its descriptor and
event. -/
structure Named (s : State K S F C) : Prop where
  ids : ∀ f c, s.activity f = .call c → c.id < s.calls
  distinct : ∀ f g c d, s.activity f = .call c → s.activity g = .call d → c.id = d.id → f = g
  callbacks : ∀ x ∈ s.cancelling, x.id < s.calls
  targets : ∀ x ∈ s.cancelling, ∀ f c, s.activity f = .call c → c.id = x.id →
    x.fd = c.fd ∧ x.event = c.event

omit [DecidableEq F] in
theorem named_initial (k : K) : Named (initial k : State K S F C) := by
  refine ⟨?_, ?_, ?_, ?_⟩
  · rintro f c ⟨⟩
  · rintro f g c d ⟨⟩
  · rintro x ⟨⟩
  · rintro x ⟨⟩

theorem named_move (h : Named s) (hm : Move ctl forget iom s l t) : Named t := by
  obtain ⟨hle, hlt⟩ := calls_of_move hm
  refine ⟨?_, ?_, ?_, ?_⟩
  · intro f d hf
    rcases call_of_move hm hf with ⟨c, hc, hid, -⟩ | ⟨kind, fd, hl, hid⟩
    · have := h.ids f c hc
      omega
    · have := hlt f kind fd hl
      omega
  · intro f g d d' hf hg heq
    rcases call_of_move hm hf with ⟨c, hc, hid, -⟩ | ⟨kind, fd, hl, hid⟩
    · rcases call_of_move hm hg with ⟨c', hc', hid', -⟩ | ⟨-, -, -, hid'⟩
      · exact h.distinct f g c c' hc hc' (by omega)
      · have := h.ids f c hc
        omega
    · rcases call_of_move hm hg with ⟨c', hc', hid', -⟩ | ⟨kind', fd', hl', -⟩
      · have := h.ids g c' hc'
        omega
      · cases hl.symm.trans hl'
        rfl
  · intro x hx
    rcases cancelling_of_move hm hx with hx | ⟨f, c, hc, rfl⟩
    · have := h.callbacks x hx
      omega
    · have := h.ids f c hc
      dsimp only
      omega
  · intro x hx f d hf hid
    rcases cancelling_of_move hm hx with hx | ⟨g, c, hc, rfl⟩
    · rcases call_of_move hm hf with ⟨c, hc, hid', hfd, hkind⟩ | ⟨-, -, -, hid'⟩
      · rw [hfd, Call.event, hkind]
        exact h.targets x hx f c hc (by omega)
      · have := h.callbacks x hx
        omega
    · rcases call_of_move hm hf with ⟨c', hc', hid', hfd, hkind⟩ | ⟨-, -, -, hid'⟩
      · obtain rfl : f = g := h.distinct f g c' c hc' hc (by simp only at hid; omega)
        cases hc.symm.trans hc'
        exact ⟨hfd.symm, by rw [Call.event, Call.event, hkind]⟩
      · have := h.ids g c hc
        simp only at hid
        omega

end Calls

section Step

variable [DecidableEq F] {ctl : K → CtlOp → ℕ → EventMask → Bool × K} {forget : K → ℕ → K}
  {iom : S} {s t : State K S F C} {l : Label S F C}

/-- A call that was timed out while it waits has its callback still to come. -/
def Answered (s : State K S F C) (f : F) (c : Call) : Prop :=
  c.pc = .parking ∨ c.pc = .parked → c.cancelled = true → Awaits s.manager c.fd c.event f →
    Settling s c

structure Timely (s : State K S F C) : Prop where
  books : Bookkeeping s.manager
  named : Named s
  answered : ∀ f c, s.activity f = .call c → Answered s f c

omit [DecidableEq F] in
theorem Answered.same {f : F} {c : Call} (h : Answered s f c)
    (hawaits : Awaits t.manager c.fd c.event f → Awaits s.manager c.fd c.event f)
    (hcancelling : ∀ x ∈ s.cancelling, x ∈ t.cancelling) : Answered t f c := by
  intro hpc hc hf
  obtain ⟨x, hx, hid⟩ := h hpc hc (hawaits hf)
  exact ⟨x, hcancelling x hx, hid⟩

theorem answered_update (h : ∀ f c, s.activity f = .call c → Answered s f c) {f : F}
    {a : Activity} (hactivity : t.activity = Function.update s.activity f a)
    (hawaits : ∀ g c, g ≠ f → s.activity g = .call c → Awaits t.manager c.fd c.event g →
      Awaits s.manager c.fd c.event g)
    (hcancelling : ∀ x ∈ s.cancelling, x ∈ t.cancelling)
    (ha : ∀ c, a = .call c → Answered t f c) :
    ∀ g c, t.activity g = .call c → Answered t g c := by
  intro g c hg
  rw [hactivity] at hg
  by_cases hgf : g = f
  · rw [hgf, Function.update_self] at hg
    rw [hgf]
    exact ha c hg
  · rw [Function.update_of_ne hgf] at hg
    exact (h g c hg).same (hawaits g c hgf hg) hcancelling

omit [DecidableEq F] in
theorem withScheduler_of_otherOk {op : Op S F C} (h : OtherOk s op) : WithScheduler op := by
  cases op with
  | addEvent => exact h.1
  | delEvent | cancelEvent | cancelAll | dispatch => trivial

theorem books_move (h : Bookkeeping s.manager) (hm : Move ctl forget iom s l t) :
    Bookkeeping t.manager := by
  cases hm with
  | added _ _ table | addFails _ _ table =>
    exact (settled_of_step h table rfl).2
  | cancel _ table | closeCancel _ table => exact (settled_of_step h table trivial).2
  | other ok table => exact (settled_of_step h table (withScheduler_of_otherOk ok)).2
  | closeFree => exact h.kernel _
  | _ => exact h

/-- The steps that leave the call neither before nor in `YieldToHold`. -/
theorem Timely.leaves (h : Timely s) {f : F} {c : Call}
    (hactivity : t.activity = Function.update s.activity f (.call c))
    (hawaits : ∀ g d, g ≠ f → s.activity g = .call d → Awaits t.manager d.fd d.event g →
      Awaits s.manager d.fd d.event g)
    (hcancelling : t.cancelling = s.cancelling) (hparking : c.pc ≠ .parking)
    (hparked : c.pc ≠ .parked) : ∀ g d, t.activity g = .call d → Answered t g d := by
  refine answered_update h.answered hactivity hawaits (fun x hx => by rwa [hcancelling]) ?_
  rintro d ⟨⟩ hpc
  exact absurd hpc (by simp [hparking, hparked])

omit [DecidableEq F] in
/-- An operation of the table on behalf of `f` registers no other fiber. -/
theorem awaits_addEvent (h : Timely s) {f g : F} {c d : Call} {ans : Answer}
    {m : IOManagerState K S F C}
    (table : IOManagerBookkeeping.step ctl s.manager
      (.addEvent c.fd c.event none (some iom) f) = some (ans, m)) (hne : g ≠ f)
    (hm : Awaits m d.fd d.event g) : Awaits s.manager d.fd d.event g := by
  obtain ⟨hset, -⟩ := settled_of_step h.books table rfl
  refine awaits_of_settled hset ?_ hm
  rintro fd event this ⟨⟩
  exact hne rfl

theorem afterIo_leaves (c : Call) (outcome : Outcome) :
    c.afterIo outcome ≠ .parking ∧ c.afterIo outcome ≠ .parked := by
  unfold Call.afterIo
  split <;> exact ⟨nofun, nofun⟩

omit [DecidableEq F] in
/-- `cancelEvent` takes the event of its own call out of the table, and leaves the others their
callbacks. -/
theorem Timely.answered_cancel (h : Timely s) {k : ℕ} (hin : InTime ctl s (.cancel k))
    {x : Cancelling} {ans : Answer} {m : IOManagerState K S F C}
    (at_cancel : s.cancelling[k]? = some x)
    (table : IOManagerBookkeeping.step ctl s.manager (.cancelEvent x.fd x.event) = some (ans, m)) :
    ∀ g d, s.activity g = .call d →
      Answered { s with manager := m, cancelling := s.cancelling.eraseIdx k } g d := by
  obtain ⟨hset, -⟩ := settled_of_step h.books table trivial
  intro g d hg hpc hc hf
  have hold : Awaits s.manager d.fd d.event g := awaits_of_settled hset nofun hf
  obtain ⟨y, hy, hid⟩ := h.answered g d hg hpc hc hold
  by_cases hx : x.id = d.id
  · -- the callback of this call has just taken the event out of the table
    obtain ⟨hfd, hev⟩ := h.named.targets x (List.mem_of_getElem? at_cancel) g d hg hx.symm
    have hgranted : ans.ctl ≠ some false := by
      cases hset with
      | unasked | granted => exact nofun
      | refused hreq hk =>
        have hanswer := hin x g d _ _ at_cancel hg hx.symm hold hreq
        rw [show (Op.cancelEvent x.fd x.event : Op S F C).fd = x.fd from rfl] at hk
        rw [hk] at hanswer
        cases hanswer
    rw [← hfd, ← hev] at hf
    exact absurd hf (not_awaits_cancelEvent hset hgranted)
  · obtain ⟨i, hi⟩ := List.getElem?_of_mem hy
    refine ⟨y, List.mem_eraseIdx_iff_getElem?.2 ⟨i, ?_, hi⟩, hid⟩
    rintro rfl
    cases at_cancel.symm.trans hi
    exact hx hid

theorem answered_move (h : Timely s) (hin : InTime ctl s l) (hm : Move ctl forget iom s l t) :
    ∀ g d, t.activity g = .call d → Answered t g d := by
  cases hm with
  | @start f kind fd free =>
    refine answered_update h.answered rfl (fun _ _ _ _ => id) (fun _ => id) ?_
    rintro d ⟨⟩ - hc
    cases hc
  | @io f outcome c at_call at_pc closed =>
    obtain ⟨hparking, hparked⟩ := afterIo_leaves c outcome
    exact h.leaves rfl (fun _ _ _ _ => id) rfl hparking hparked
  | arm at_call at_pc | disarm at_call at_pc | resume at_call at_pc | sockopt at_call at_pc =>
    exact h.leaves rfl (fun _ _ _ _ => id) rfl nofun nofun
  | check at_call at_pc leaves =>
    refine h.leaves rfl (fun _ _ _ _ => id) rfl ?_ ?_ <;>
      rcases leaves with ⟨-, rfl⟩ | ⟨-, ⟨-, rfl⟩ | rfl⟩ <;> exact nofun
  | addFails at_call at_pc table refused leaves =>
    refine h.leaves rfl (fun g d hne _ => awaits_addEvent h table hne) rfl ?_ ?_ <;>
      rcases leaves with rfl | rfl <;> exact nofun
  | @added f c ans m at_call at_pc table =>
    refine answered_update h.answered rfl (fun g d hne _ => awaits_addEvent h table hne)
      (fun _ => id) ?_
    rintro d ⟨⟩ - hc -
    exact hin c at_call at_pc hc
  | @park f c at_call at_pc =>
    refine answered_update h.answered rfl (fun _ _ _ _ => id) (fun _ => id) ?_
    rintro d ⟨⟩ - hc hf
    exact h.answered f c at_call (.inl at_pc) hc hf
  | @expire f k c at_call | @tooLate f k c at_call =>
    refine answered_update h.answered rfl (fun _ _ _ _ => id) (fun _ => id) ?_
    rintro d ⟨⟩
    exact h.answered f c at_call
  | timedOut at_call =>
    refine answered_update h.answered rfl (fun _ _ _ _ => id)
      (fun _ => List.mem_append_left _) ?_
    rintro d ⟨⟩ - - -
    exact ⟨_, List.mem_append_right _ (List.mem_singleton_self _), rfl⟩
  | cancel at_cancel table => exact h.answered_cancel hin at_cancel table
  | close | closeDel =>
    exact answered_update h.answered rfl (fun _ _ _ _ => id) (fun _ => id) nofun
  | closeFree => exact answered_update h.answered rfl (fun _ _ _ _ => id) (fun _ => id) nofun
  | closeCancel at_close table =>
    obtain ⟨hset, -⟩ := settled_of_step h.books table trivial
    exact answered_update h.answered rfl (fun _ _ _ _ => awaits_of_settled hset nofun)
      (fun _ => id) nofun
  | socket | create | setTimeout | setUserNonblock => exact h.answered
  | other ok table =>
    obtain ⟨hset, -⟩ := settled_of_step h.books table (withScheduler_of_otherOk ok)
    intro g d hg hpc
    refine (h.answered g d hg).same (awaits_of_settled hset ?_) (fun _ => id) hpc
    -- a fiber in a hooked call adds no event of its own
    rintro fd event this rfl
    rcases ok.2 with hcb | hfree
    · cases hcb
    · change s.activity g = _ at hg
      simp only [State.Free, hg, Call.Active] at hfree
      rcases hpc with hpc | hpc <;> simp [hpc] at hfree

omit [DecidableEq F] in
theorem timely_initial (k : K) : Timely (initial k : State K S F C) := by
  refine ⟨bookkeeping_construct k, named_initial k, ?_⟩
  rintro f c ⟨⟩

theorem timely_move (h : Timely s) (hin : InTime ctl s l) (hm : Move ctl forget iom s l t) :
    Timely t :=
  ⟨books_move h.books hm, named_move h.named hm, answered_move h hin hm⟩

/-- No timeout is missed while callbacks come after `addEvent` and the kernel lets them cancel
the event. -/
theorem not_missed_of_inTime (ctl : K → CtlOp → ℕ → EventMask → Bool × K) (forget : K → ℕ → K)
    (iom : S) (k : K) {ls : List (Label S F C)} {os : List Unit}
    (inTime : StepRuns.Guarded (InTime ctl) (step ctl forget iom) (initial k) ls)
    (h : StepRuns.run (step ctl forget iom) (initial k) ls = some (os, s)) (f : F) :
    ¬ Missed s f := by
  have htimely : Timely s := by
    refine StepRuns.run_invariant (P := Timely) ?_ (timely_initial k) inTime h
    intro s l o t hs hin hstep
    exact timely_move hs hin (move_of_step hstep)
  rintro ⟨c, hf, hpc, hc, hsettling, hawaits, -⟩
  exact hsettling (htimely.answered f c hf (.inr hpc) hc hawaits)

end Step

/-- An `epoll_ctl` that grants everything. -/
def agree : ℕ → CtlOp → ℕ → EventMask → Bool × ℕ := fun k _ _ _ => (true, k + 1)

/-- Fiber 1 makes a call on a socket that has nothing for it. -/
def blocked (kind : Kind) : List (Label ℕ ℕ ℕ) :=
  [.socket 5, .create 5 true, .setTimeout 5 .read 1, .start 1 kind 5, .io 1 .again]

def timeoutAfterAdd : List (Label ℕ ℕ ℕ) :=
  blocked (.doIo .read) ++ [.run 1, .run 1, .run 1, .expire 1 0, .callback 1 0, .cancel 0]

def timeoutBeforeAdd (kind : Kind) : List (Label ℕ ℕ ℕ) :=
  blocked kind ++ [.run 1, .expire 1 0, .callback 1 0, .cancel 0, .run 1, .run 1]

theorem inTime_timeoutAfterAdd :
    StepRuns.Guarded (InTime agree) (step agree (fun k _ => k) 0) (initial 0) timeoutAfterAdd := by
  refine StepRuns.guarded_append ?_ ?_
  · apply StepRuns.guarded_of_forall
    simp [blocked, InTime]
  rintro os s ⟨⟩
  constructor
  · rintro c ⟨⟩ ⟨⟩
  rintro o t ⟨⟩
  constructor
  · rintro c ⟨⟩ - ⟨⟩
  rintro o t ⟨⟩
  constructor
  · rintro c ⟨⟩ ⟨⟩
  rintro o t ⟨⟩
  apply StepRuns.guarded_of_forall
  simp [InTime, agree]

theorem not_missed_timeoutAfterAdd :
    ∃ os s, StepRuns.run (step agree (fun k _ => k) 0) (initial 0) timeoutAfterAdd =
        some (os, s) ∧
      s.Scheduled 1 ∧ ¬ Missed s 1 :=
  ⟨_, _, rfl, by decide, not_missed_of_inTime _ _ _ _ inTime_timeoutAfterAdd rfl 1⟩

/-- With a timeout that is short enough both calls wait for ever. -/
theorem missed_timeoutBeforeAdd :
    (∃ os s, StepRuns.run (step agree (fun k _ => k) 0) (initial 0)
        (timeoutBeforeAdd (.doIo .read)) = some (os, s) ∧ Missed s 1) ∧
      ∃ os s, StepRuns.run (step agree (fun k _ => k) 0) (initial 0)
        (timeoutBeforeAdd (.connect 1)) = some (os, s) ∧ Missed s 1 := by
  refine ⟨⟨_, _, rfl, _, rfl, rfl, rfl, ?_, ⟨rfl, rfl⟩, by decide⟩,
    ⟨_, _, rfl, _, rfl, rfl, rfl, ?_, ⟨rfl, rfl⟩, by decide⟩⟩
  · rintro ⟨x, hx, -⟩
    cases hx
  · rintro ⟨x, hx, -⟩
    cases hx

end HookTimeouts
