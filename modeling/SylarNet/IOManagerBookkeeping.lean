import SylarNet.IOManagerEvents

/-!
# Bookkeeping of the I/O manager

Each operation is a transaction on one `FdContext`: it asks the kernel for a new interest
set, and only when that is granted does it replace the context and wake tasks. What holds of
mask, contexts and counter along every run follows from that form.
-/
namespace IOManagerBookkeeping

open IOManagerEvents IOManagerState

variable {K S F C : Type}

/-- A scheduler and exactly one of callback and fiber. -/
def Registered (c : EventContext S F C) : Prop :=
  c.scheduler.isSome ∧ (c.cb.isSome ↔ ¬ c.fiber.isSome)

/-- Every registered event has someone to wake and every other context is empty. -/
def Consistent (ctx : FdContext S F C) : Prop :=
  ∀ event, if ctx.events.has event then Registered (ctx.getContext event)
    else ctx.getContext event = .empty

/-- The context once `event` is registered for the callback, or for the fiber without one. -/
def register (ctx : FdContext S F C) (event : Event) (cb : Option C) (this : Option S)
    (self : F) : FdContext S F C :=
  { ctx with events := ctx.events.add event }.setContext
    (if cb.isSome then ⟨this, none, cb⟩ else ⟨this, some self, none⟩) event

def unregister (ctx : FdContext S F C) (event : Event) : FdContext S F C :=
  { ctx with events := ctx.events.remove event }.resetContext event

theorem consistent_fresh (fd : ℕ) : Consistent (.fresh fd : FdContext S F C) := by
  intro event
  cases event <;> rfl

theorem consistent_register {ctx : FdContext S F C} (hc : Consistent ctx) (event : Event)
    (cb : Option C) (s : S) (self : F) : Consistent (register ctx event cb (some s) self) := by
  intro event'
  have h := hc event'
  have hnew : Registered (if cb.isSome then (⟨some s, none, cb⟩ : EventContext S F C)
      else ⟨some s, some self, none⟩) := by
    cases cb <;> simp [Registered]
  cases event <;> cases event' <;>
    simpa [register, FdContext.setContext, FdContext.getContext, EventMask.has, EventMask.add]
      using by first | exact hnew | exact h

theorem consistent_unregister {ctx : FdContext S F C} (hc : Consistent ctx) (event : Event) :
    Consistent (unregister ctx event) := by
  intro event'
  have h := hc event'
  cases event <;> cases event' <;> first | rfl | exact h

theorem count_register {ctx : FdContext S F C} {event : Event} (h : ctx.events.has event = false)
    (cb : Option C) (this : Option S) (self : F) :
    (register ctx event cb this self).events.count = ctx.events.count + 1 := by
  cases event <;>
    simp_all [register, FdContext.setContext, EventMask.has, EventMask.add, EventMask.count]
  omega

theorem count_unregister (ctx : FdContext S F C) (event : Event) :
    (unregister ctx event).events.count + (ctx.events.has event).toNat = ctx.events.count := by
  cases event <;>
    simp [unregister, FdContext.resetContext, FdContext.setContext, EventMask.has,
      EventMask.remove, EventMask.count]
  omega

theorem unregister_eq_self {ctx : FdContext S F C} (hc : Consistent ctx) {event : Event}
    (h : ctx.events.has event = false) : unregister ctx event = ctx := by
  have he := hc event
  rw [if_neg (by simp [h])] at he
  obtain ⟨r, w, fd, mr, mw⟩ := ctx
  cases event <;> simp_all [unregister, FdContext.resetContext, FdContext.setContext,
    FdContext.getContext, EventMask.has, EventMask.remove]

theorem unregister_both (ctx : FdContext S F C) :
    unregister (unregister ctx .read) .write = .fresh ctx.fd := rfl

/-- On a consistent context what `triggerEvent` swaps out is all there was. -/
theorem triggerEvent_eq {ctx : FdContext S F C} (hc : Consistent ctx) {event : Event}
    (h : ctx.events.has event = true) :
    ctx.triggerEvent event = .ok (unregister ctx event, (ctx.getContext event).tasks) := by
  have hr := hc event
  rw [if_pos h] at hr
  obtain ⟨hs, hx⟩ := hr
  obtain ⟨⟨rs, rf, rc⟩, ⟨ws, wf, wc⟩, fd, m⟩ := ctx
  cases event with
  | read =>
    obtain ⟨s, rfl⟩ := Option.isSome_iff_exists.1 hs
    cases rc <;> cases rf <;> simp_all [FdContext.triggerEvent, unregister,
      FdContext.resetContext, FdContext.setContext, FdContext.getContext, EventContext.empty]
  | write =>
    obtain ⟨s, rfl⟩ := Option.isSome_iff_exists.1 hs
    cases wc <;> cases wf <;> simp_all [FdContext.triggerEvent, unregister,
      FdContext.resetContext, FdContext.setContext, FdContext.getContext, EventContext.empty]

theorem tasks_of_not_has {ctx : FdContext S F C} (hc : Consistent ctx) {event : Event}
    (h : ctx.events.has event = false) : (ctx.getContext event).tasks = [] := by
  have he := hc event
  rw [if_neg (by simp [h])] at he
  rw [he]
  rfl

theorem decrement_succ {n : ℕ} (h : 0 < n) : decrement n = .ok (n - 1) := by
  cases n with
  | zero => omega
  | succ n => rfl

theorem triggerIfSet_eq {ctx : FdContext S F C} (hc : Consistent ctx) (event : Event) {n : ℕ}
    (hn : ctx.events.count ≤ n) (l : List (S × Task F C)) :
    triggerIfSet event (ctx, n, l) = .ok (unregister ctx event,
      n - (ctx.events.has event).toNat, l ++ (ctx.getContext event).tasks) := by
  cases h : ctx.events.has event with
  | false =>
    rw [unregister_eq_self hc h, tasks_of_not_has hc h]
    simp [triggerIfSet, h]
  | true =>
    have hcount := count_unregister ctx event
    rw [h, Bool.toNat_true] at hcount
    have hd : decrement n = .ok (n - 1) := decrement_succ (by omega)
    simp only [triggerIfSet, h, if_true, triggerEvent_eq hc h, Except.bind, bind, hd,
      Bool.toNat_true]

/-- The two tests in a row that end `cancelAll` and a dispatch empty the context. -/
theorem trigger_both_eq {ctx : FdContext S F C} (hc : Consistent ctx) {n : ℕ}
    (hn : ctx.events.count ≤ n) (l : List (S × Task F C)) :
    ∃ r, triggerIfSet .read (ctx, n, l) = .ok r ∧ triggerIfSet .write r =
      .ok (.fresh ctx.fd, n - ctx.events.count, l ++ (ctx.read.tasks ++ ctx.write.tasks)) := by
  have hr := count_unregister ctx .read
  refine ⟨_, triggerIfSet_eq hc .read hn l, ?_⟩
  rw [triggerIfSet_eq (consistent_unregister hc .read) .write (by omega), unregister_both,
    List.append_assoc]
  have hw : n - ctx.events.read.toNat - ctx.events.write.toNat = n - ctx.events.count := by
    rw [EventMask.count]
    omega
  exact congrArg (fun k => Except.ok (_, k, _)) hw

def totalEvents (s : IOManagerState K S F C) : ℕ :=
  (s.fdContexts.map fun ctx => ctx.events.count).sum

/-- Slot `fd` holds the context of `fd`, mask and contexts agree in every slot, and the
counter is the number of registered events. -/
structure Bookkeeping (s : IOManagerState K S F C) : Prop where
  table : 32 ≤ s.fdContexts.length
  counter : s.pendingEventCount = totalEvents s
  owner : ∀ (fd : ℕ) (ctx : FdContext S F C), s.fdContexts[fd]? = some ctx → ctx.fd = fd
  consistent : ∀ (fd : ℕ) (ctx : FdContext S F C), s.fdContexts[fd]? = some ctx → Consistent ctx

/-- The state after a granted request. -/
def put (s : IOManagerState K S F C) (k : K) (fd : ℕ) (ctx : FdContext S F C) (n : ℕ)
    (l : List (S × Task F C)) : IOManagerState K S F C :=
  ⟨k, s.fdContexts.set fd ctx, n, l⟩

theorem sum_map_set {α : Type*} (f : α → ℕ) {l : List α} {i : ℕ} {a : α} (h : l[i]? = some a)
    (b : α) : ((l.set i b).map f).sum + f a = (l.map f).sum + f b := by
  induction l generalizing i with
  | nil => simp at h
  | cons x l ih =>
    cases i with
    | zero =>
      simp only [List.getElem?_cons_zero, Option.some.injEq] at h
      subst h
      simp only [List.set_cons_zero, List.map_cons, List.sum_cons]
      omega
    | succ i =>
      have := ih (by simpa using h)
      simp only [List.set_cons_succ, List.map_cons, List.sum_cons]
      omega

/-- A larger table keeps every slot and has fresh contexts in the new ones. -/
theorem get_resize {s : IOManagerState K S F C} {size : ℕ} (h : s.fdContexts.length ≤ size)
    (fd : ℕ) : (s.contextResize size).fdContexts[fd]? =
      if fd < s.fdContexts.length then s.fdContexts[fd]?
      else if fd < size then some (.fresh fd) else none := by
  rw [contextResize, List.take_of_length_le h, List.getElem?_append]
  by_cases hold : fd < s.fdContexts.length
  · simp only [hold, if_true]
  · by_cases hnew : fd < size
    · simp only [hold, hnew, if_true, if_false, List.getElem?_map]
      rw [List.getElem?_range' (by omega)]
      simp only [Option.map_some, Option.some.injEq]
      congr 1
      omega
    · simp only [hold, hnew, if_false]
      exact List.getElem?_eq_none (by simp; omega)

theorem context_resize {s : IOManagerState K S F C} {size : ℕ} (h : s.fdContexts.length ≤ size)
    (fd : ℕ) : (s.contextResize size).context fd = s.context fd := by
  rw [context, context, get_resize h]
  split
  · rfl
  · rename_i hlt
    rw [List.getElem?_eq_none (by omega : s.fdContexts.length ≤ fd)]
    split <;> rfl

theorem totalEvents_resize {s : IOManagerState K S F C} {size : ℕ}
    (h : s.fdContexts.length ≤ size) : totalEvents (s.contextResize size) = totalEvents s := by
  have hzero : ∀ l : List ℕ, ((l.map FdContext.fresh).map
      fun c : FdContext S F C => c.events.count).sum = 0 := by
    intro l
    induction l with
    | nil => rfl
    | cons a l ih =>
      rw [List.map_cons, List.map_cons, List.sum_cons, ih]
      rfl
  simp only [totalEvents, contextResize, List.take_of_length_le h, List.map_append,
    List.sum_append, hzero, Nat.add_zero]

namespace Bookkeeping

theorem get_count_le {s : IOManagerState K S F C} (hs : Bookkeeping s) {fd : ℕ}
    {ctx : FdContext S F C} (h : s.fdContexts[fd]? = some ctx) :
    ctx.events.count ≤ s.pendingEventCount := by
  have hsum := sum_map_set (fun c : FdContext S F C => c.events.count) h (.fresh fd)
  have hzero : (FdContext.fresh fd : FdContext S F C).events.count = 0 := rfl
  rw [hs.counter, totalEvents]
  omega

theorem kernel {s : IOManagerState K S F C} (hs : Bookkeeping s) (k : K) :
    Bookkeeping { s with kernel := k } :=
  ⟨hs.table, hs.counter, hs.owner, hs.consistent⟩

theorem put_ctx {s : IOManagerState K S F C} (hs : Bookkeeping s) {fd n : ℕ}
    {ctx ctx' : FdContext S F C} (h : s.fdContexts[fd]? = some ctx) (hfd : ctx'.fd = ctx.fd)
    (hc : Consistent ctx') (hn : n + ctx.events.count = s.pendingEventCount + ctx'.events.count)
    (k : K) (l : List (S × Task F C)) : Bookkeeping (put s k fd ctx' n l) where
  table := by simpa [put] using hs.table
  counter := by
    have hsum := sum_map_set (fun c : FdContext S F C => c.events.count) h ctx'
    have hcount := hs.counter
    simp only [totalEvents, put] at hcount ⊢
    omega
  owner := by
    intro fd' c hget
    simp only [put, List.getElem?_set] at hget
    split at hget
    · simp_all [hs.owner fd ctx h]
    · exact hs.owner fd' c hget
  consistent := by
    intro fd' c hget
    simp only [put, List.getElem?_set] at hget
    split at hget
    · simp_all
    · exact hs.consistent fd' c hget

theorem context_consistent {s : IOManagerState K S F C} (hs : Bookkeeping s) (fd : ℕ) :
    Consistent (s.context fd) := by
  cases h : s.fdContexts[fd]? with
  | none => simpa [context, h] using consistent_fresh fd
  | some ctx => simpa [context, h] using hs.consistent fd ctx h

theorem resize {s : IOManagerState K S F C} (hs : Bookkeeping s) {size : ℕ}
    (h : s.fdContexts.length ≤ size) : Bookkeeping (s.contextResize size) where
  table := by
    have := hs.table
    simp only [contextResize, List.length_append, List.length_take, List.length_map,
      List.length_range']
    omega
  counter := by
    rw [totalEvents_resize h]
    exact hs.counter
  owner := by
    intro fd ctx hget
    rw [get_resize h] at hget
    split at hget
    · exact hs.owner fd ctx hget
    · split at hget
      · cases hget
        rfl
      · cases hget
  consistent := by
    intro fd ctx hget
    rw [get_resize h] at hget
    split at hget
    · exact hs.consistent fd ctx hget
    · split at hget
      · cases hget
        exact consistent_fresh fd
      · cases hget

end Bookkeeping

/-- The table `addEvent` works on. -/
def grow (s : IOManagerState K S F C) (fd : ℕ) : IOManagerState K S F C :=
  if fd < s.fdContexts.length then s else s.contextResize (fd * 3 / 2)

/-- `fd * 1.5` makes room for `fd` because the table never has fewer than 32 slots. -/
theorem grow_spec {s : IOManagerState K S F C} (hs : Bookkeeping s) (fd : ℕ) :
    Bookkeeping (grow s fd) ∧ (grow s fd).fdContexts[fd]? = some (s.context fd) ∧
      (∀ fd', (grow s fd).context fd' = s.context fd') ∧ (grow s fd).kernel = s.kernel ∧
      (grow s fd).pendingEventCount = s.pendingEventCount ∧
      (grow s fd).scheduled = s.scheduled := by
  rw [grow]
  split
  · rename_i hlt
    refine ⟨hs, ?_, fun _ => rfl, rfl, rfl, rfl⟩
    simp [context, hlt]
  · rename_i hge
    have hsize : s.fdContexts.length ≤ fd * 3 / 2 := by omega
    have htable := hs.table
    refine ⟨hs.resize hsize, ?_, context_resize hsize, rfl, rfl, rfl⟩
    rw [get_resize hsize, if_neg hge, if_pos (by omega), context,
      List.getElem?_eq_none (by omega)]
    rfl

inductive Op (S F C : Type) where
  | addEvent (fd : ℕ) (event : Event) (cb : Option C) (this : Option S) (self : F)
  | delEvent (fd : ℕ) (event : Event)
  | cancelEvent (fd : ℕ) (event : Event)
  | cancelAll (fd : ℕ)
  | dispatch (fd : ℕ) (e : EpollEvents)
  deriving DecidableEq, Repr

section Step

variable (ctl : K → CtlOp → ℕ → EventMask → Bool × K)

/-- A failed assertion or an invalid access ends the run. -/
def step (s : IOManagerState K S F C) :
    Op S F C → Option (Answer × IOManagerState K S F C)
  | .addEvent fd event cb this self => (s.addEvent ctl fd event cb this self).toOption
  | .delEvent fd event => (s.delEvent ctl fd event).toOption
  | .cancelEvent fd event => (s.cancelEvent ctl fd event).toOption
  | .cancelAll fd => (s.cancelAll ctl fd).toOption
  | .dispatch fd e => (s.dispatch ctl fd e).toOption

/-- An event is added only while it is not registered and by a thread with a scheduler; an
epoll event carries a context of the table. -/
def Allowed (s : IOManagerState K S F C) : Op S F C → Prop
  | .addEvent fd event _ this _ => (s.context fd).events.has event = false ∧ this.isSome
  | .dispatch fd _ => fd < s.fdContexts.length
  | _ => True

instance (s : IOManagerState K S F C) (op : Op S F C) : Decidable (Allowed s op) := by
  cases op <;> simp only [Allowed] <;> infer_instance

namespace Op

def fd : Op S F C → ℕ
  | .addEvent fd .. | .delEvent fd _ | .cancelEvent fd _ | .cancelAll fd | .dispatch fd _ => fd

/-- What an operation asks of the kernel; `none` when it finds nothing to do. -/
def request (ctx : FdContext S F C) : Op S F C → Option (CtlOp × EventMask)
  | .addEvent _ event _ _ _ =>
    some (if ctx.events = .NONE then .add else .mod, ctx.events.add event)
  | .delEvent _ event | .cancelEvent _ event =>
    if ctx.events.has event then
      some (if ctx.events.remove event = .NONE then .del else .mod, ctx.events.remove event)
    else none
  | .cancelAll _ => if ctx.events = .NONE then none else some (.del, .NONE)
  | .dispatch _ e =>
    if ctx.events.inter (realEvents ctx.events e) = .NONE then none
    else
      let left := ctx.events.diff (realEvents ctx.events e)
      some (if left = .NONE then .del else .mod, left)

/-- The context after the kernel granted the request. -/
def after (ctx : FdContext S F C) : Op S F C → FdContext S F C
  | .addEvent _ event cb this self => register ctx event cb this self
  | .delEvent _ event | .cancelEvent _ event => unregister ctx event
  | .cancelAll _ | .dispatch _ _ => .fresh ctx.fd

def wakes (ctx : FdContext S F C) : Op S F C → List (S × Task F C)
  | .addEvent .. | .delEvent .. => []
  | .cancelEvent _ event => (ctx.getContext event).tasks
  | .cancelAll _ | .dispatch _ _ => ctx.read.tasks ++ ctx.write.tasks

def granted : Op S F C → ℤ
  | .addEvent .. | .dispatch .. => 0
  | .delEvent .. | .cancelEvent .. | .cancelAll _ => 1

def refused : Op S F C → ℤ
  | .addEvent .. => -1
  | _ => 0

end Op

/-- The table an operation works on. -/
def prepare (s : IOManagerState K S F C) : Op S F C → IOManagerState K S F C
  | .addEvent fd .. => grow s fd
  | _ => s

/-- The common form of the five operations. -/
def transact (s : IOManagerState K S F C) (op : Op S F C) : Answer × IOManagerState K S F C :=
  let ctx := s.context op.fd
  match op.request ctx with
  | none => (⟨0, none⟩, s)
  | some (c, m) =>
    let r := ctl s.kernel c op.fd m
    if r.1 then
      (⟨op.granted, some true⟩,
        put s r.2 op.fd (op.after ctx)
          (s.pendingEventCount + (op.after ctx).events.count - ctx.events.count)
          (s.scheduled ++ op.wakes ctx))
    else (⟨op.refused, some false⟩, { s with kernel := r.2 })

/-- What one operation does to the table: nothing, nothing but the failed call, or the
replacement of one context. -/
inductive Settled (s : IOManagerState K S F C) (op : Op S F C) :
    Answer → IOManagerState K S F C → Prop where
  | unasked (h : op.request (s.context op.fd) = none) : Settled s op ⟨0, none⟩ s
  | refused {c : CtlOp} {m : EventMask} {k : K} {t : IOManagerState K S F C}
    (h : op.request (s.context op.fd) = some (c, m)) (hk : ctl s.kernel c op.fd m = (false, k))
    (hkernel : t.kernel = k) (hctx : ∀ fd, t.context fd = s.context fd)
    (hcount : t.pendingEventCount = s.pendingEventCount) (hsched : t.scheduled = s.scheduled) :
    Settled s op ⟨op.refused, some false⟩ t
  | granted {c : CtlOp} {m : EventMask} {k : K} {t : IOManagerState K S F C}
    (h : op.request (s.context op.fd) = some (c, m)) (hk : ctl s.kernel c op.fd m = (true, k))
    (hkernel : t.kernel = k) (hctx : t.context op.fd = op.after (s.context op.fd))
    (hother : ∀ fd, fd ≠ op.fd → t.context fd = s.context fd)
    (hsched : t.scheduled = s.scheduled ++ op.wakes (s.context op.fd)) :
    Settled s op ⟨op.granted, some true⟩ t

end Step

variable {ctl : K → CtlOp → ℕ → EventMask → Bool × K}

theorem context_of_get {s : IOManagerState K S F C} {fd : ℕ} {ctx : FdContext S F C}
    (h : s.fdContexts[fd]? = some ctx) : s.context fd = ctx := by
  rw [context, h]
  rfl

theorem context_of_absent {s : IOManagerState K S F C} {fd : ℕ}
    (h : s.fdContexts[fd]? = none) : s.context fd = .fresh fd := by
  rw [context, h]
  rfl

/-- The counter cannot underflow: it counts the event that is taken back. -/
theorem decrement_unregister {s : IOManagerState K S F C} (hs : Bookkeeping s) {fd : ℕ}
    {ctx : FdContext S F C} (h : s.fdContexts[fd]? = some ctx) {event : Event}
    (hev : ctx.events.has event = true) :
    decrement s.pendingEventCount = .ok (s.pendingEventCount +
      (unregister ctx event).events.count - ctx.events.count) := by
  have hle := hs.get_count_le h
  have hcount := count_unregister ctx event
  rw [hev, Bool.toNat_true] at hcount
  rw [decrement_succ (by omega)]
  congr 1
  omega

theorem context_put {s : IOManagerState K S F C} {fd : ℕ} {ctx : FdContext S F C}
    (h : s.fdContexts[fd]? = some ctx) (k : K) (ctx' : FdContext S F C) (n : ℕ)
    (l : List (S × Task F C)) (fd' : ℕ) :
    (put s k fd ctx' n l).context fd' = if fd' = fd then ctx' else s.context fd' := by
  have hlt : fd < s.fdContexts.length := (List.getElem?_eq_some_iff.1 h).1
  rw [context, context, put, List.getElem?_set]
  by_cases heq : fd = fd'
  · subst heq
    simp [hlt]
  · simp [heq, Ne.symm heq]

theorem addEvent_eq {s : IOManagerState K S F C} (hs : Bookkeeping s) {fd : ℕ} {event : Event}
    (h : (s.context fd).events.has event = false) (cb : Option C) (this : Option S) (self : F) :
    s.addEvent ctl fd event cb this self =
      .ok (transact ctl (grow s fd) (.addEvent fd event cb this self)) := by
  obtain ⟨-, hget, hctx, -, -, -⟩ := grow_spec hs fd
  have hempty := hs.context_consistent fd event
  rw [if_neg (by simp [h])] at hempty
  have hcount := count_register h cb this self
  have hn : (grow s fd).pendingEventCount + 1 = (grow s fd).pendingEventCount +
      (register (s.context fd) event cb this self).events.count -
        (s.context fd).events.count := by
    omega
  have hgrow : (if fd < s.fdContexts.length then s else s.contextResize (fd * 3 / 2)) =
      grow s fd := rfl
  simp only [addEvent, hgrow, hget, h, hempty, transact, Op.request, Op.fd, hctx,
    EventContext.empty, hn, Op.after, Op.wakes, Op.granted, Op.refused, put, register]
  generalize ctl (grow s fd).kernel _ fd _ = r
  obtain ⟨ok, k⟩ := r
  cases ok <;> simp

theorem delEvent_eq {s : IOManagerState K S F C} (hs : Bookkeeping s) (fd : ℕ) (event : Event) :
    s.delEvent ctl fd event = .ok (transact ctl s (.delEvent fd event)) := by
  cases hget : s.fdContexts[fd]? with
  | none =>
    have hfresh := context_of_absent hget
    cases event <;> simp [delEvent, hget, transact, Op.request, Op.fd, hfresh, FdContext.fresh,
      EventMask.has, EventMask.NONE]
  | some ctx =>
    have hctx := context_of_get hget
    simp only [delEvent, hget, transact, Op.request, Op.fd, hctx]
    cases hev : ctx.events.has event with
    | false => simp
    | true =>
      have hd := decrement_unregister hs hget hev
      simp only [hd, Op.after, Op.wakes, Op.granted, Op.refused, put, unregister, if_true]
      generalize ctl s.kernel _ fd _ = r
      obtain ⟨ok, k⟩ := r
      cases ok <;> simp [bind, Except.bind]

theorem cancelEvent_eq {s : IOManagerState K S F C} (hs : Bookkeeping s) (fd : ℕ)
    (event : Event) :
    s.cancelEvent ctl fd event = .ok (transact ctl s (.cancelEvent fd event)) := by
  cases hget : s.fdContexts[fd]? with
  | none =>
    have hfresh := context_of_absent hget
    cases event <;> simp [cancelEvent, hget, transact, Op.request, Op.fd, hfresh,
      FdContext.fresh, EventMask.has, EventMask.NONE]
  | some ctx =>
    have hctx := context_of_get hget
    simp only [cancelEvent, hget, transact, Op.request, Op.fd, hctx]
    cases hev : ctx.events.has event with
    | false => simp
    | true =>
      have hd := decrement_unregister hs hget hev
      simp only [triggerEvent_eq (hs.consistent fd ctx hget) hev, hd, Op.after, Op.wakes,
        Op.granted, Op.refused, put, if_true]
      generalize ctl s.kernel _ fd _ = r
      obtain ⟨ok, k⟩ := r
      cases ok <;> simp [bind, Except.bind]

theorem cancelAll_eq {s : IOManagerState K S F C} (hs : Bookkeeping s) (fd : ℕ) :
    s.cancelAll ctl fd = .ok (transact ctl s (.cancelAll fd)) := by
  cases hget : s.fdContexts[fd]? with
  | none =>
    have hfresh := context_of_absent hget
    simp [cancelAll, hget, transact, Op.request, Op.fd, hfresh, FdContext.fresh]
  | some ctx =>
    have hctx := context_of_get hget
    obtain ⟨r, hread, hwrite⟩ := trigger_both_eq (hs.consistent fd ctx hget)
      (hs.get_count_le hget) s.scheduled
    simp only [cancelAll, hget, transact, Op.request, Op.fd, hctx]
    by_cases hev : ctx.events = .NONE
    · simp [hev]
    · simp only [hev, if_false, hread, Op.after, Op.wakes, Op.granted, Op.refused, put]
      generalize ctl s.kernel _ fd _ = r
      obtain ⟨ok, k⟩ := r
      cases ok <;> simp [bind, Except.bind, hwrite, FdContext.fresh, EventMask.count,
        EventMask.NONE]

theorem dispatch_eq {s : IOManagerState K S F C} (hs : Bookkeeping s) {fd : ℕ}
    (h : fd < s.fdContexts.length) (e : EpollEvents) :
    s.dispatch ctl fd e = .ok (transact ctl s (.dispatch fd e)) := by
  have hget : s.fdContexts[fd]? = some (s.context fd) := by simp [context, h]
  have howner := hs.owner fd _ hget
  obtain ⟨r, hread, hwrite⟩ := trigger_both_eq (hs.consistent fd _ hget)
    (hs.get_count_le hget) s.scheduled
  simp only [dispatch, hget, transact, Op.request, Op.fd, howner]
  by_cases hready : (s.context fd).events.inter (realEvents (s.context fd).events e) = .NONE
  · simp only [hready, if_true]
  · simp only [hready, if_false, hread, Op.after, Op.wakes, Op.granted, Op.refused, put]
    by_cases hleft : (s.context fd).events.diff (realEvents (s.context fd).events e) = .NONE
    all_goals
      simp only [hleft, if_true, if_false]
      generalize ctl s.kernel _ fd _ = r
      obtain ⟨ok, k⟩ := r
      cases ok <;> simp [bind, Except.bind, hwrite, FdContext.fresh, EventMask.count,
        EventMask.NONE]

theorem step_eq (ctl : K → CtlOp → ℕ → EventMask → Bool × K) {s : IOManagerState K S F C}
    (hs : Bookkeeping s) {op : Op S F C} (h : Allowed s op) :
    step ctl s op = some (transact ctl (prepare s op) op) := by
  cases op with
  | addEvent fd event cb this self =>
    rw [step, addEvent_eq hs h.1]
    rfl
  | delEvent fd event =>
    rw [step, delEvent_eq hs]
    rfl
  | cancelEvent fd event =>
    rw [step, cancelEvent_eq hs]
    rfl
  | cancelAll fd =>
    rw [step, cancelAll_eq hs]
    rfl
  | dispatch fd e =>
    rw [step, dispatch_eq hs h]
    rfl

theorem prepare_spec {s : IOManagerState K S F C} (hs : Bookkeeping s) (op : Op S F C) :
    Bookkeeping (prepare s op) ∧ (∀ fd, (prepare s op).context fd = s.context fd) ∧
      (prepare s op).kernel = s.kernel ∧
      (prepare s op).pendingEventCount = s.pendingEventCount ∧
      (prepare s op).scheduled = s.scheduled := by
  cases op with
  | addEvent fd event cb this self =>
    obtain ⟨hg, -, hctx, hkernel, hcount, hsched⟩ := grow_spec hs fd
    exact ⟨hg, hctx, hkernel, hcount, hsched⟩
  | delEvent | cancelEvent | cancelAll | dispatch => exact ⟨hs, fun _ => rfl, rfl, rfl, rfl⟩

theorem has_none (event : Event) : EventMask.NONE.has event = false := by
  cases event <;> rfl

theorem inter_none (m : EventMask) : EventMask.NONE.inter m = .NONE := rfl

/-- Only what is in the table has something to ask for. -/
theorem get_of_request {s : IOManagerState K S F C} (hs : Bookkeeping s) {op : Op S F C}
    {c : CtlOp} {m : EventMask} (h : op.request (s.context op.fd) = some (c, m)) :
    (prepare s op).fdContexts[op.fd]? = some (s.context op.fd) := by
  cases op with
  | addEvent fd event cb this self => exact (grow_spec hs fd).2.1
  | delEvent fd event | cancelEvent fd event | cancelAll fd | dispatch fd e =>
    cases hget : s.fdContexts[fd]? with
    | some ctx => simp [prepare, Op.fd, context, hget]
    | none => simp [Op.request, Op.fd, context, hget, FdContext.fresh, has_none,
      inter_none] at h

theorem consistent_after {ctx : FdContext S F C} (hc : Consistent ctx) {s : IOManagerState K S F C}
    {op : Op S F C} (h : Allowed s op) : Consistent (op.after ctx) := by
  cases op with
  | addEvent fd event cb this self =>
    obtain ⟨sch, rfl⟩ := Option.isSome_iff_exists.1 h.2
    exact consistent_register hc event cb sch self
  | delEvent fd event | cancelEvent fd event => exact consistent_unregister hc event
  | cancelAll fd | dispatch fd => exact consistent_fresh ctx.fd

theorem fd_after (ctx : FdContext S F C) (op : Op S F C) : (op.after ctx).fd = ctx.fd := by
  cases op with
  | addEvent fd event | delEvent fd event | cancelEvent fd event => cases event <;> rfl
  | cancelAll | dispatch => rfl

/-- No operation faults, each settles in one of three ways and keeps the books. -/
theorem step_settled (ctl : K → CtlOp → ℕ → EventMask → Bool × K)
    {s : IOManagerState K S F C} (hs : Bookkeeping s) {op : Op S F C} (h : Allowed s op) :
    ∃ ans t, step ctl s op = some (ans, t) ∧ Settled ctl s op ans t ∧ Bookkeeping t := by
  obtain ⟨hp, hctx, hkernel, hcount, hsched⟩ := prepare_spec hs op
  have hstep := step_eq ctl hs h
  simp only [transact, hctx, hkernel] at hstep
  cases hreq : op.request (s.context op.fd) with
  | none =>
    have heq : prepare s op = s := by
      cases op with
      | addEvent => simp [Op.request] at hreq
      | delEvent | cancelEvent | cancelAll | dispatch => rfl
    simp only [hreq, heq] at hstep
    exact ⟨_, _, hstep, .unasked hreq, hs⟩
  | some r =>
    obtain ⟨c, m⟩ := r
    have hget := get_of_request hs hreq
    simp only [hreq] at hstep
    cases hk : ctl s.kernel c op.fd m with
    | mk ok k =>
      cases ok with
      | false =>
        rw [hk, if_neg (by simp)] at hstep
        exact ⟨_, _, hstep, .refused hreq hk rfl hctx hcount hsched, hp.kernel k⟩
      | true =>
        rw [hk, if_pos rfl] at hstep
        have hle := hp.get_count_le hget
        refine ⟨_, _, hstep, .granted hreq hk rfl ?_ ?_ ?_, ?_⟩
        · rw [context_put hget, if_pos rfl]
        · intro fd hne
          rw [context_put hget, if_neg hne, hctx]
        · rw [put, hsched]
        · exact hp.put_ctx hget (fd_after _ op) (consistent_after (hs.context_consistent _) h)
            (by omega) _ _

theorem bookkeeping_construct (k : K) : Bookkeeping (construct k : IOManagerState K S F C) where
  table := by simp [construct, contextResize]
  counter := by rw [construct, totalEvents_resize (by simp)]; rfl
  owner := by
    intro fd ctx hget
    rw [construct, get_resize (by simp)] at hget
    simp only [List.length_nil, Nat.not_lt_zero, if_false] at hget
    split at hget
    · cases hget
      rfl
    · cases hget
  consistent := by
    intro fd ctx hget
    rw [construct, get_resize (by simp)] at hget
    simp only [List.length_nil, Nat.not_lt_zero, if_false] at hget
    split at hget
    · cases hget
      exact consistent_fresh fd
    · cases hget

theorem settled_refused {s t : IOManagerState K S F C} {op : Op S F C} {ans : Answer}
    (h : Settled ctl s op ans t) (hans : ans.ctl = some false) :
    (∀ fd, t.context fd = s.context fd) ∧ t.pendingEventCount = s.pendingEventCount := by
  cases h with
  | unasked => cases hans
  | refused _ _ _ hctx hcount _ => exact ⟨hctx, hcount⟩
  | granted => cases hans

/-- Mask, contexts and counter agree along every run, no assertion fires, and an operation
whose `epoll_ctl` failed has changed nothing. -/
theorem books_balance (ctl : K → CtlOp → ℕ → EventMask → Bool × K) (k : K)
    (ops : List (Op S F C))
    (hops : StepRuns.Guarded Allowed (step ctl) (construct k) ops) :
    ∃ answers s, StepRuns.run (step ctl) (construct k) ops = some (answers, s) ∧
      s.pendingEventCount = (s.fdContexts.map fun ctx => ctx.events.count).sum ∧
      (∀ fd event,
        ((s.context fd).events.has event = true →
          ((s.context fd).getContext event).scheduler.isSome ∧
            (((s.context fd).getContext event).cb.isSome ↔
              ¬ ((s.context fd).getContext event).fiber.isSome)) ∧
        ((s.context fd).events.has event = false → (s.context fd).getContext event = .empty)) ∧
      ∀ op, Allowed s op → ∃ ans t, step ctl s op = some (ans, t) ∧
        (ans.ctl = some false →
          (∀ fd, t.context fd = s.context fd) ∧ t.pendingEventCount = s.pendingEventCount) := by
  obtain ⟨answers, s, hrun, hs⟩ := StepRuns.run_total (P := Bookkeeping)
    (fun s op hs h =>
      let ⟨ans, t, hstep, _, ht⟩ := step_settled ctl hs h
      ⟨ans, t, hstep, ht⟩)
    (bookkeeping_construct k) hops
  refine ⟨answers, s, hrun, hs.counter, ?_, ?_⟩
  · intro fd event
    have hc := hs.context_consistent fd event
    constructor
    · intro hev
      rwa [if_pos hev] at hc
    · intro hev
      rwa [if_neg (by simp [hev])] at hc
  · intro op h
    obtain ⟨ans, t, hstep, hset, -⟩ := step_settled ctl hs h
    exact ⟨ans, t, hstep, settled_refused hset⟩

/-- A callback waits for reading, the kernel refuses a second registration, and a dispatch
that it refuses as well changes nothing. -/
theorem books_balance_refusals :
    ∃ answers s, StepRuns.run
        (step fun (k : List Bool) _ _ _ => (k.headD true, k.tail) :
          _ → Op ℕ ℕ ℕ → Option (Answer × IOManagerState (List Bool) ℕ ℕ ℕ))
        (construct [true, false, false])
        [.addEvent 40 .read (some 1) (some 0) 7, .addEvent 40 .write none (some 0) 7,
          .dispatch 40 ⟨true, false, false, false⟩] = some (answers, s) ∧
      s.pendingEventCount = (s.fdContexts.map fun ctx => ctx.events.count).sum ∧
      (s.context 40).events = ⟨true, false⟩ := by
  have hops : StepRuns.Guarded Allowed
      (step fun (k : List Bool) _ _ _ => (k.headD true, k.tail) :
        _ → Op ℕ ℕ ℕ → Option (Answer × IOManagerState (List Bool) ℕ ℕ ℕ))
      (construct [true, false, false])
      [.addEvent 40 .read (some 1) (some 0) 7, .addEvent 40 .write none (some 0) 7,
        .dispatch 40 ⟨true, false, false, false⟩] := by
    refine ⟨by decide, ?_⟩
    intro _ s h
    cases h
    refine ⟨by decide, ?_⟩
    intro _ s h
    cases h
    exact ⟨by decide, fun _ _ _ => trivial⟩
  obtain ⟨answers, s, hrun, hcount, -, -⟩ := books_balance _ _ _ hops
  refine ⟨answers, s, hrun, hcount, ?_⟩
  have hmask : (StepRuns.run
      (step fun (k : List Bool) _ _ _ => (k.headD true, k.tail) :
        _ → Op ℕ ℕ ℕ → Option (Answer × IOManagerState (List Bool) ℕ ℕ ℕ))
      (construct [true, false, false])
      [.addEvent 40 .read (some 1) (some 0) 7, .addEvent 40 .write none (some 0) 7,
        .dispatch 40 ⟨true, false, false, false⟩]).map (fun r => (r.2.context 40).events) =
      some ⟨true, false⟩ := by decide
  rwa [hrun, Option.map_some, Option.some.injEq] at hmask

end IOManagerBookkeeping
