import SylarNet.IOManagerBookkeeping
import Mathlib.Logic.Function.Basic

/-!
# Interest sets and wake-ups of the I/O manager

Here the kernel is the map of `epoll_ctl`. The constructor has registered the read end of
the tickle pipe in it; that descriptor belongs to the manager and has no events of its own.
-/
namespace IOManagerInterest

open IOManagerEvents IOManagerState IOManagerBookkeeping

variable {K S F C : Type}

/-- Descriptors in the epoll instance, with the events each is registered for. -/
abbrev Interest := ℕ → Option EventMask

/-- Fails with `EEXIST` on a second `ADD` and with `ENOENT` on `MOD` or `DEL` of an absent
descriptor. -/
def epollCtl (k : Interest) (op : CtlOp) (fd : ℕ) (m : EventMask) : Bool × Interest :=
  match op, k fd with
  | .add, none | .mod, some _ => (true, Function.update k fd (some m))
  | .del, some _ => (true, Function.update k fd none)
  | .add, some _ | .mod, none | .del, none => (false, k)

/-- The kernel after the constructor registered the pipe. -/
def boot (tickleFd : ℕ) : Interest :=
  Function.update (fun _ => none) tickleFd (some ⟨true, false⟩)

def interestOf (m : EventMask) : Option EventMask := if m = .NONE then none else some m

theorem interestOf_injective {m n : EventMask} (h : interestOf m = interestOf n) : m = n := by
  unfold interestOf at h
  split at h <;> split at h <;> simp_all

/-- The kernel waits for exactly the events the contexts have. -/
structure Agreement (tickleFd : ℕ) (s : IOManagerState Interest S F C) : Prop where
  pipe : s.kernel tickleFd = some ⟨true, false⟩ ∧ (s.context tickleFd).events = .NONE
  registered : ∀ fd, fd ≠ tickleFd → s.kernel fd = interestOf (s.context fd).events

/-- Of the registered events none or all are ready. -/
def Unmixed (s : IOManagerState K S F C) : Op S F C → Prop
  | .dispatch fd e =>
    (s.context fd).events.inter (realEvents (s.context fd).events e) = .NONE ∨
      (s.context fd).events.diff (realEvents (s.context fd).events e) = .NONE
  | _ => True

theorem epollCtl_granted {k k' : Interest} {op : CtlOp} {fd : ℕ} {m : EventMask}
    (h : epollCtl k op fd m = (true, k')) :
    (op = .add ↔ k fd = none) ∧
      k' = Function.update k fd (if op = .del then none else some m) := by
  unfold epollCtl at h
  split at h <;> simp_all

theorem epollCtl_refused {k k' : Interest} {op : CtlOp} {fd : ℕ} {m : EventMask}
    (h : epollCtl k op fd m = (false, k')) : (op = .add ↔ k fd ≠ none) ∧ k' = k := by
  unfold epollCtl at h
  split at h <;> simp_all

theorem add_ne_none (m : EventMask) (event : Event) : m.add event ≠ .NONE := by
  cases event <;> simp [EventMask.add, EventMask.NONE]

theorem ne_none_of_has {m : EventMask} {event : Event} (h : m.has event = true) :
    m ≠ .NONE := by
  rintro rfl
  rw [has_none] at h
  cases h

theorem ne_none_of_inter {m n : EventMask} (h : m.inter n ≠ .NONE) : m ≠ .NONE := by
  rintro rfl
  exact h (inter_none n)

theorem call_for_left (m : EventMask) :
    ((if m = .NONE then CtlOp.del else .mod) = .del ↔ m = .NONE) ∧
      (if m = .NONE then CtlOp.del else .mod) ≠ .add := by
  split <;> simp_all

/-- The call fits the mask it leaves behind and the mask it found. -/
theorem request_spec {ctx : FdContext S F C} {op : Op S F C} {c : CtlOp} {m : EventMask}
    (h : op.request ctx = some (c, m)) :
    (c = .del ↔ m = .NONE) ∧ (c = .add ↔ ctx.events = .NONE) := by
  cases op with
  | addEvent fd event cb this self =>
    cases h
    have hne := add_ne_none ctx.events event
    split <;> simp_all
  | delEvent fd event | cancelEvent fd event =>
    simp only [Op.request] at h
    split at h
    · rename_i hev
      cases h
      obtain ⟨hdel, hadd⟩ := call_for_left (ctx.events.remove event)
      exact ⟨hdel, by simp [hadd, ne_none_of_has hev]⟩
    · cases h
  | cancelAll fd =>
    simp only [Op.request] at h
    split at h
    · cases h
    · rename_i hev
      cases h
      simp [hev]
  | dispatch fd e =>
    simp only [Op.request] at h
    split at h
    · cases h
    · rename_i hev
      cases h
      obtain ⟨hdel, hadd⟩ := call_for_left (ctx.events.diff (realEvents ctx.events e))
      exact ⟨hdel, by simp [hadd, ne_none_of_inter hev]⟩

/-- Every operation leaves the mask that it told the kernel, but for a dispatch of some of
the registered events. -/
theorem mask_after_iff {s : IOManagerState K S F C} {op : Op S F C} {c : CtlOp} {m : EventMask}
    (h : op.request (s.context op.fd) = some (c, m)) :
    (op.after (s.context op.fd)).events = m ↔ Unmixed s op := by
  cases op with
  | addEvent fd event cb this self =>
    cases h
    cases event <;> simp [Op.after, register, FdContext.setContext, Unmixed]
  | delEvent fd event | cancelEvent fd event =>
    simp only [Op.request] at h
    split at h
    · cases h
      cases event <;>
        simp [Op.after, unregister, FdContext.resetContext, FdContext.setContext, Unmixed]
    · cases h
  | cancelAll fd =>
    simp only [Op.request] at h
    split at h
    · cases h
    · cases h
      simp [Op.after, FdContext.fresh, Unmixed]
  | dispatch fd e =>
    change Op.request (s.context fd) (.dispatch fd e) = some (c, m) at h
    simp only [Op.request] at h
    split at h
    · cases h
    · rename_i hev
      cases h
      simp only [Op.after, FdContext.fresh, Unmixed, Op.fd, hev, false_or]
      exact eq_comm

theorem unmixed_of_unasked {s : IOManagerState K S F C} {op : Op S F C}
    (h : op.request (s.context op.fd) = none) : Unmixed s op := by
  cases op with
  | dispatch fd e =>
    change Op.request (s.context fd) (.dispatch fd e) = none at h
    simp only [Op.request] at h
    split at h
    · rename_i hev
      exact .inl hev
    · cases h
  | addEvent | delEvent | cancelEvent | cancelAll => trivial

/-- The pipe has no events of its own, so that no call for it is granted. -/
theorem not_granted_pipe {tickleFd : ℕ} {s : IOManagerState Interest S F C} {op : Op S F C}
    {c : CtlOp} {m : EventMask} {k : Interest} (ha : Agreement tickleFd s)
    (h : op.request (s.context op.fd) = some (c, m))
    (hk : epollCtl s.kernel c op.fd m = (true, k)) : op.fd ≠ tickleFd := by
  intro heq
  have hadd := (request_spec h).2.2 (by rw [heq]; exact ha.pipe.2)
  have hnone := (epollCtl_granted hk).1.1 hadd
  rw [heq, ha.pipe.1] at hnone
  cases hnone

/-- A call that an agreeing kernel refuses is one for the pipe. -/
theorem refused_pipe {tickleFd : ℕ} {s : IOManagerState Interest S F C} {op : Op S F C}
    {c : CtlOp} {m : EventMask} {k : Interest} (ha : Agreement tickleFd s)
    (h : op.request (s.context op.fd) = some (c, m))
    (hk : epollCtl s.kernel c op.fd m = (false, k)) : op.fd = tickleFd := by
  by_contra hne
  have hadd := (request_spec h).2
  have hpresent := (epollCtl_refused hk).1
  rw [hadd, ha.registered op.fd hne, interestOf] at hpresent
  split at hpresent <;> simp_all

/-- From a state that agrees with the kernel, a step leads to one that does exactly when it
is no dispatch of some of the registered events. -/
theorem agreement_step {tickleFd : ℕ} {s t : IOManagerState Interest S F C} {op : Op S F C}
    {ans : Answer} (ha : Agreement tickleFd s) (h : Settled epollCtl s op ans t) :
    Agreement tickleFd t ↔ Unmixed s op := by
  cases h with
  | unasked h => exact ⟨fun _ => unmixed_of_unasked h, fun _ => ha⟩
  | refused h hk hkernel hctx hcount hsched =>
    have hpipe := refused_pipe ha h hk
    have hkeep : Agreement tickleFd t := by
      obtain ⟨-, rfl⟩ := epollCtl_refused hk
      refine ⟨by rw [hkernel, hctx]; exact ha.pipe, ?_⟩
      intro fd hne
      rw [hkernel, hctx]
      exact ha.registered fd hne
    -- a dispatch for the pipe would have found nothing to do
    refine ⟨fun _ => ?_, fun _ => hkeep⟩
    cases op with
    | dispatch fd e =>
      left
      change fd = tickleFd at hpipe
      rw [hpipe, ha.pipe.2]
      rfl
    | addEvent | delEvent | cancelEvent | cancelAll => trivial
  | @granted c m k t h hk hkernel hctx hother hsched =>
    have hne := not_granted_pipe ha h hk
    obtain ⟨-, rfl⟩ := epollCtl_granted hk
    have hmask : t.kernel op.fd = interestOf m := by
      rw [hkernel, Function.update_self, interestOf]
      simp only [(request_spec h).1]
    have hfixed : ∀ fd, fd ≠ op.fd → t.kernel fd = s.kernel fd := by
      intro fd hfd
      rw [hkernel, Function.update_of_ne hfd]
    rw [← mask_after_iff h]
    constructor
    · intro ht
      have hfd := ht.registered op.fd hne
      rw [hmask, hctx] at hfd
      exact (interestOf_injective hfd).symm
    · intro hafter
      refine ⟨?_, fun fd hfd => ?_⟩
      · rw [hfixed tickleFd hne.symm, hother tickleFd hne.symm]
        exact ha.pipe
      · by_cases heq : fd = op.fd
        · rw [heq, hmask, hctx, hafter]
        · rw [hfixed fd heq, hother fd heq]
          exact ha.registered fd hfd

theorem agreement_construct (tickleFd : ℕ) :
    Agreement tickleFd (construct (boot tickleFd) : IOManagerState Interest S F C) := by
  have hfresh : ∀ fd, ((construct (boot tickleFd) : IOManagerState Interest S F C).context fd) =
      .fresh fd := by
    intro fd
    rw [construct, context_resize (by simp)]
    rfl
  have hkernel : (construct (boot tickleFd) : IOManagerState Interest S F C).kernel =
      boot tickleFd := rfl
  refine ⟨⟨?_, by rw [hfresh]; rfl⟩, fun fd hne => ?_⟩
  · rw [hkernel, boot, Function.update_self]
  · rw [hfresh, hkernel, boot, Function.update_of_ne hne]
    rfl

/-- Adding an event that is not pending succeeds where the kernel agrees. -/
theorem addEvent_granted {tickleFd : ℕ} {s : IOManagerState Interest S F C}
    (hs : Bookkeeping s) (ha : Agreement tickleFd s) {fd : ℕ} {event : Event}
    (hfd : fd ≠ tickleFd) (h : (s.context fd).events.has event = false) (cb : Option C) (sch : S)
    (self : F) : ∃ t, step epollCtl s (.addEvent fd event cb (some sch) self) =
      some (⟨0, some true⟩, t) := by
  have hok : Allowed s (.addEvent fd event cb (some sch) self) := ⟨h, rfl⟩
  obtain ⟨ans, t, hstep, hset, -⟩ := step_settled epollCtl hs hok
  cases hset with
  | unasked hreq => cases hreq
  | refused hreq hk => exact absurd (refused_pipe ha hreq hk) hfd
  | granted => exact ⟨t, hstep⟩

/-- Every state of a run agrees with the kernel, and there adding an event that is not
pending succeeds, exactly when no dispatch of the run finds some but not all of the
registered events ready. -/
theorem agreement_iff_unmixed (tickleFd : ℕ) (ops : List (Op S F C))
    (hops : StepRuns.Guarded Allowed (step epollCtl) (construct (boot tickleFd)) ops) :
    (∀ n answers s,
      StepRuns.run (step epollCtl) (construct (boot tickleFd)) (ops.take n) = some (answers, s) →
      Agreement tickleFd s ∧
        ∀ fd event cb sch self, fd ≠ tickleFd → (s.context fd).events.has event = false →
          ∃ t, step epollCtl s (.addEvent fd event cb (some sch) self) =
            some (⟨0, some true⟩, t)) ↔
      StepRuns.Guarded Unmixed (step epollCtl) (construct (boot tickleFd)) ops := by
  have hnext : ∀ (s : IOManagerState Interest S F C) op, Bookkeeping s → Allowed s op →
      ∃ ans t, step epollCtl s op = some (ans, t) ∧ Bookkeeping t := by
    intro s op hs hok
    obtain ⟨ans, t, hstep, -, ht⟩ := step_settled epollCtl hs hok
    exact ⟨ans, t, hstep, ht⟩
  have hexact : ∀ (s : IOManagerState Interest S F C) op ans t, Bookkeeping s →
      Agreement tickleFd s → Allowed s op → step epollCtl s op = some (ans, t) →
      (Agreement tickleFd t ↔ Unmixed s op) := by
    intro s op ans t hs ha hok hstep
    obtain ⟨ans', t', hstep', hset, -⟩ := step_settled epollCtl hs hok
    cases hstep.symm.trans hstep'
    exact agreement_step ha hset
  have hiff := StepRuns.forall_prefix_iff_guarded hnext hexact
    (bookkeeping_construct (boot tickleFd)) (agreement_construct tickleFd) hops
  rw [← hiff]
  refine ⟨fun h n answers s hr => (h n answers s hr).1, ?_⟩
  intro h n answers s hr
  have ha := h n answers s hr
  have hs : Bookkeeping s := by
    obtain ⟨answers', s', hr', hs'⟩ := StepRuns.run_total hnext
      (bookkeeping_construct (boot tickleFd)) (StepRuns.guarded_take hops n)
    cases hr.symm.trans hr'
    exact hs'
  exact ⟨ha, fun fd event cb sch self hfd hev => addEvent_granted hs ha hfd hev cb sch self⟩

/-- Both events of a descriptor are registered and become ready together. -/
theorem agreement_both_ready :
    StepRuns.Guarded Allowed (step epollCtl) (construct (boot 3))
      ([.addEvent 5 .read (some 1) (some 0) 7, .addEvent 5 .write (some 2) (some 0) 7,
        .dispatch 5 ⟨true, true, false, false⟩] : List (Op ℕ ℕ ℕ)) ∧
    ∀ n answers s, StepRuns.run (step epollCtl) (construct (boot 3))
        (([.addEvent 5 .read (some 1) (some 0) 7, .addEvent 5 .write (some 2) (some 0) 7,
          .dispatch 5 ⟨true, true, false, false⟩] : List (Op ℕ ℕ ℕ)).take n) = some (answers, s) →
      Agreement 3 s := by
  have hops : StepRuns.Guarded Allowed (step epollCtl) (construct (boot 3))
      ([.addEvent 5 .read (some 1) (some 0) 7, .addEvent 5 .write (some 2) (some 0) 7,
        .dispatch 5 ⟨true, true, false, false⟩] : List (Op ℕ ℕ ℕ)) := by
    refine ⟨by decide, ?_⟩
    intro _ s h
    cases h
    refine ⟨by decide, ?_⟩
    intro _ s h
    cases h
    exact ⟨by decide, fun _ _ _ => trivial⟩
  refine ⟨hops, ?_⟩
  intro n answers s hr
  refine ((agreement_iff_unmixed 3 _ hops).2 ?_ n answers s hr).1
  refine ⟨trivial, ?_⟩
  intro _ s h
  cases h
  refine ⟨trivial, ?_⟩
  intro _ s h
  cases h
  exact ⟨.inr (by decide), fun _ _ _ => trivial⟩

/-- Only reading becomes ready: the kernel still waits for writing, of which the context
knows nothing any more, and writing cannot be added again. -/
theorem agreement_lost_full_duplex :
    StepRuns.Guarded Allowed (step epollCtl) (construct (boot 3))
      ([.addEvent 5 .read (some 1) (some 0) 7, .addEvent 5 .write (some 2) (some 0) 7,
        .dispatch 5 ⟨true, false, false, false⟩] : List (Op ℕ ℕ ℕ)) ∧
    ∃ answers s, StepRuns.run (step epollCtl) (construct (boot 3))
        ([.addEvent 5 .read (some 1) (some 0) 7, .addEvent 5 .write (some 2) (some 0) 7,
          .dispatch 5 ⟨true, false, false, false⟩] : List (Op ℕ ℕ ℕ)) = some (answers, s) ∧
      s.kernel 5 = some ⟨false, true⟩ ∧ (s.context 5).events = .NONE ∧ ¬ Agreement 3 s ∧
      (step epollCtl s (.addEvent 5 .write (some 2) (some 0) 7)).map (·.1) =
        some ⟨-1, some false⟩ := by
  refine ⟨⟨by decide, fun _ s h => ?_⟩, _, _, rfl, by decide, by decide, fun h => ?_, by decide⟩
  · cases h
    refine ⟨by decide, ?_⟩
    intro _ s h
    cases h
    exact ⟨by decide, fun _ _ _ => trivial⟩
  · exact absurd (h.registered 5 (by decide)) (by decide)

/-- The events that an epoll event reports, where an error or a hang-up reports both. -/
def ready (e : EpollEvents) : Event → Bool
  | .read => e.epollin || e.epollerr || e.epollhup
  | .write => e.epollout || e.epollerr || e.epollhup

/-- The registered events that are ready are triggered, each once, and nothing else is. -/
structure ExactWakeup (s t : IOManagerState K S F C) (fd : ℕ) (e : EpollEvents) : Prop where
  scheduled : t.scheduled = s.scheduled ++
    ([.read, .write].filter fun ev => (s.context fd).events.has ev && ready e ev).flatMap
      fun ev => ((s.context fd).getContext ev).tasks
  registered : ∀ ev, (t.context fd).events.has ev =
    ((s.context fd).events.has ev && !ready e ev)
  untouched : ∀ ev, (s.context fd).events.has ev = true → ready e ev = false →
    (t.context fd).getContext ev = (s.context fd).getContext ev
  others : ∀ fd', fd' ≠ fd → t.context fd' = s.context fd'

theorem forall_event {P : Event → Prop} : (∀ ev, P ev) ↔ P .read ∧ P .write := by
  refine ⟨fun h => ⟨h _, h _⟩, ?_⟩
  intro h ev
  cases ev with
  | read => exact h.1
  | write => exact h.2

theorem inter_eq_none_iff (m : EventMask) (e : EpollEvents) :
    m.inter (realEvents m e) = .NONE ↔ ∀ ev, m.has ev = true → ready e ev = false := by
  obtain ⟨mr, mw⟩ := m
  obtain ⟨i, o, r, h⟩ := e
  rw [forall_event]
  revert mr mw i o r h
  decide

theorem diff_eq_none_iff (m : EventMask) (e : EpollEvents) :
    m.diff (realEvents m e) = .NONE ↔ ∀ ev, m.has ev = true → ready e ev = true := by
  obtain ⟨mr, mw⟩ := m
  obtain ⟨i, o, r, h⟩ := e
  rw [forall_event]
  revert mr mw i o r h
  decide

theorem tasks_ne_nil {c : EventContext S F C} (h : Registered c) : c.tasks ≠ [] := by
  obtain ⟨s, f, cb⟩ := c
  obtain ⟨hs, hx⟩ := h
  obtain ⟨sch, rfl⟩ := Option.isSome_iff_exists.1 hs
  cases cb <;> cases f <;> simp_all [EventContext.tasks]

/-- With every registered event ready, waking the ready ones is waking all. -/
theorem wake_all_eq {ctx : FdContext S F C} (hc : Consistent ctx) {e : EpollEvents}
    (h : ∀ ev, ctx.events.has ev = true → ready e ev = true) :
    ([.read, .write].filter fun ev => ctx.events.has ev && ready e ev).flatMap
      (fun ev => (ctx.getContext ev).tasks) = ctx.read.tasks ++ ctx.write.tasks := by
  have hone : ∀ ev, (if ctx.events.has ev && ready e ev then (ctx.getContext ev).tasks else []) =
      (ctx.getContext ev).tasks := by
    intro ev
    cases hev : ctx.events.has ev with
    | false => simp [tasks_of_not_has hc hev]
    | true => simp [h ev hev]
  have hr := hone .read
  have hw := hone .write
  simp only [FdContext.getContext] at hr hw
  rw [← hr, ← hw]
  simp only [List.filter_cons, List.filter_nil]
  split <;> split <;> simp [FdContext.getContext]

theorem wake_none_eq {ctx : FdContext S F C} {e : EpollEvents}
    (h : ∀ ev, ctx.events.has ev = true → ready e ev = false) :
    ([.read, .write].filter fun ev => ctx.events.has ev && ready e ev) = [] := by
  apply List.filter_eq_nil_iff.2
  intro ev _
  cases hev : ctx.events.has ev with
  | false => simp
  | true => simp [h ev hev]

theorem not_exact_of_asleep {s t : IOManagerState K S F C} {fd : ℕ} {e : EpollEvents}
    (hc : Consistent (s.context fd))
    (h : (s.context fd).events.inter (realEvents (s.context fd).events e) ≠ .NONE)
    (hsched : t.scheduled = s.scheduled) : ¬ ExactWakeup s t fd e := by
  intro hexact
  refine h ((inter_eq_none_iff _ e).2 fun ev hev => ?_)
  by_contra hready
  rw [Bool.not_eq_false] at hready
  have hnil := hexact.scheduled
  rw [hsched, List.self_eq_append_right, List.flatMap_eq_nil_iff] at hnil
  have hreg := hc ev
  rw [if_pos hev] at hreg
  refine tasks_ne_nil hreg (hnil ev (List.mem_filter.2 ⟨?_, by simp [hev, hready]⟩))
  cases ev <;> simp

/-- A dispatch wakes exactly what is ready if nothing registered is ready, or if everything
registered is and the kernel lets the descriptor go; in every other case it does not. -/
theorem exact_wakeup_iff (ctl : K → CtlOp → ℕ → EventMask → Bool × K)
    {s : IOManagerState K S F C} (hs : Bookkeeping s) {fd : ℕ} (hfd : fd < s.fdContexts.length)
    (e : EpollEvents) :
    ∃ ans t, step ctl s (.dispatch fd e) = some (ans, t) ∧
      (ExactWakeup s t fd e ↔
        (∀ ev, (s.context fd).events.has ev = true → ready e ev = false) ∨
        ((∀ ev, (s.context fd).events.has ev = true → ready e ev = true) ∧
          (ctl s.kernel .del fd .NONE).1 = true)) := by
  have hok : Allowed s (.dispatch fd e : Op S F C) := hfd
  have hcons := hs.context_consistent fd
  obtain ⟨ans, t, hstep, hset, -⟩ := step_settled ctl hs hok
  refine ⟨ans, t, hstep, ?_⟩
  rw [← inter_eq_none_iff, ← diff_eq_none_iff]
  by_cases hnone : (s.context fd).events.inter (realEvents (s.context fd).events e) = .NONE
  · have hidle := (inter_eq_none_iff _ e).1 hnone
    refine ⟨fun _ => .inl hnone, ?_⟩
    intro _
    cases hset with
    | unasked =>
      refine ⟨by rw [wake_none_eq hidle]; simp, fun ev => ?_, fun _ _ _ => rfl, fun _ _ => rfl⟩
      cases hev : (s.context fd).events.has ev with
      | false => rfl
      | true => simp [hidle ev hev]
    | refused hreq | granted hreq =>
      change Op.request (s.context fd) (.dispatch fd e) = _ at hreq
      simp [Op.request, hnone] at hreq
  · have hreq : Op.request (s.context fd) (.dispatch fd e) = some
        (if (s.context fd).events.diff (realEvents (s.context fd).events e) = .NONE
          then .del else .mod,
          (s.context fd).events.diff (realEvents (s.context fd).events e)) := by
      simp only [Op.request, if_neg hnone]
    rw [or_iff_right hnone]
    cases hset with
    | unasked h => cases hreq.symm.trans h
    | refused h hk hkernel hctx hcount hsched =>
      cases hreq.symm.trans h
      refine ⟨fun hexact => absurd hexact (not_exact_of_asleep hcons hnone hsched), ?_⟩
      rintro ⟨hall, hdel⟩
      rw [if_pos hall, hall] at hk
      change ctl s.kernel .del fd .NONE = _ at hk
      rw [hk] at hdel
      cases hdel
    | granted h hk hkernel hctx hother hsched =>
      cases hreq.symm.trans h
      change t.context fd = .fresh (s.context fd).fd at hctx
      change t.scheduled =
        s.scheduled ++ ((s.context fd).read.tasks ++ (s.context fd).write.tasks) at hsched
      constructor
      · intro hexact
        have hall : (s.context fd).events.diff (realEvents (s.context fd).events e) = .NONE := by
          apply (diff_eq_none_iff _ e).2
          intro ev hev
          have hgone := hexact.registered ev
          rw [hctx, FdContext.fresh, has_none, hev] at hgone
          simpa using hgone
        rw [if_pos hall, hall] at hk
        change ctl s.kernel .del fd .NONE = _ at hk
        exact ⟨hall, by rw [hk]⟩
      · rintro ⟨hall, -⟩
        have hready := (diff_eq_none_iff _ e).1 hall
        refine ⟨by rw [hsched, wake_all_eq hcons hready], fun ev => ?_, fun ev hev hnot => ?_,
          hother⟩
        · rw [hctx, FdContext.fresh, has_none]
          cases hev : (s.context fd).events.has ev with
          | false => rfl
          | true => simp [hready ev hev]
        · rw [hready ev hev] at hnot
          cases hnot

/-- A callback waits for reading and a fiber for writing on one descriptor. -/
def duplex : IOManagerState Unit ℕ ℕ ℕ :=
  put (construct ()) () 5
    (register (register (.fresh 5) .read (some 1) (some 0) 7) .write none (some 0) 7) 2 []

theorem bookkeeping_duplex : Bookkeeping duplex := by
  have hget : (construct () : IOManagerState Unit ℕ ℕ ℕ).fdContexts[5]? = some (.fresh 5) := by
    decide
  have hread := consistent_register (consistent_fresh 5) .read (some 1) 0 7
  have hboth := consistent_register hread .write none 0 7
  exact (bookkeeping_construct ()).put_ctx hget (by rfl) hboth (by rfl) () []

/-- A hang-up wakes both. -/
theorem exact_wakeup_hang_up :
    ∃ ans t, step (fun (_ : Unit) _ _ _ => (true, ())) duplex
        (.dispatch 5 ⟨false, false, false, true⟩) = some (ans, t) ∧
      ExactWakeup duplex t 5 ⟨false, false, false, true⟩ := by
  obtain ⟨ans, t, hstep, hiff⟩ := exact_wakeup_iff (fun (_ : Unit) _ _ _ => (true, ()))
    bookkeeping_duplex (by decide : 5 < _) ⟨false, false, false, true⟩
  exact ⟨ans, t, hstep, hiff.2 (.inr ⟨fun ev _ => by cases ev <;> rfl, rfl⟩)⟩

/-- Only reading is ready, and the fiber that waits for writing is woken all the same. -/
theorem wakeup_of_unready_writer :
    ∃ ans t, step (fun (_ : Unit) _ _ _ => (true, ())) duplex
        (.dispatch 5 ⟨true, false, false, false⟩) = some (ans, t) ∧
      ¬ ExactWakeup duplex t 5 ⟨true, false, false, false⟩ ∧
      t.scheduled = [(0, .cb 1), (0, .fiber 7)] ∧ (t.context 5).events = .NONE := by
  refine ⟨_, _, rfl, fun h => ?_, by decide, by decide⟩
  exact absurd (h.registered .write) (by decide)

end IOManagerInterest
