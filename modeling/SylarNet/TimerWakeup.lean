import SylarNet.TimerDeadlines

/-!
# Waking the thread that waits for the first timer

One thread waits until the earliest deadline it saw in `getNextTimer`; the others call the
manager in any order. Each part of a call that runs under the lock is one step. `refresh`,
`reset` and `getNextTimer` read the clock under the lock, the constructor of `Timer` and
`listExpiredCb` before they take it, so that their reading may be an old one by then.
-/
namespace TimerWakeup

open TimerStore TimerStore.TimerManager TimerExpiry TimerDeadlines

variable {Cb : Type}

/-- What the waiting thread saw in its last `getNextTimer`. -/
inductive Observed where
  | never
  | empty
  | earliest (next : UInt64)
  deriving DecidableEq, Repr

/-- A deadline that the waiting thread would sleep through. -/
def Observed.After : Observed → UInt64 → Prop
  | .never, _ => False
  | .empty, _ => True
  | .earliest seen, next => next.toNat < seen.toNat

instance (o : Observed) (next : UInt64) : Decidable (o.After next) :=
  match o with
  | .never => isFalse id
  | .empty => isTrue trivial
  | .earliest _ => inferInstanceAs (Decidable (_ < _))

theorem Observed.After.of_le {o : Observed} {x y : UInt64} (h : o.After y)
    (hle : x.toNat ≤ y.toNat) : o.After x := by
  cases o with
  | never => exact h
  | empty => trivial
  | earliest seen => exact lt_of_le_of_lt hle h

/-- `notified` says that `onTimerInsertedAtFront` was called, or that a thread which has
released the lock is about to call it, since the last `getNextTimer` of the waiting thread. -/
structure Waiting (Cb : Type) where
  manager : TimerManager Cb
  clock : UInt64
  observed : Observed
  notified : Bool

inductive Event (Cb : Type) where
  | tick (now : UInt64)
  | look
  | call (op : Op Cb)
  deriving DecidableEq, Repr

def Notifies : Answer Cb → Bool
  | .added atFront => atFront
  | .reset _ atFront => atFront
  | .result _ | .timeout _ | .callbacks _ => false

namespace Waiting

def construct (start : UInt64) : Waiting Cb := ⟨TimerManager.construct start, start, .never, false⟩

/-- The first element is the one `getNextTimer` compares with the clock. -/
def observe (m : TimerManager Cb) : Observed :=
  match m.timers with
  | [] => .empty
  | first :: _ => .earliest (m.object first).next

def step (w : Waiting Cb) : Event Cb → Option (Option (Answer Cb) × Waiting Cb)
  | .tick now => some (none, { w with clock := now })
  | .look =>
    let r := w.manager.getNextTimer w.clock
    some (some (.timeout r.1), ⟨r.2, w.clock, observe w.manager, false⟩)
  | .call op =>
    (TimerStore.step w.manager op).map fun r =>
      (some r.1, { w with manager := r.2, notified := w.notified || Notifies r.1 })

/-- The reading a call uses: the present one under the lock, a past one otherwise. -/
def ReadingOk (w : Waiting Cb) : Op Cb → Prop
  | .addTimer _ now _ _ _ => now.toNat ≤ w.clock.toNat
  | .listExpiredCb now _ => now.toNat ≤ w.clock.toNat
  | .refresh _ now | .reset _ now _ _ | .getNextTimer now => now = w.clock
  | .cancel _ => True

/-- No deadline of this call exceeds a `uint64_t`. -/
def SumOk (w : Waiting Cb) : Op Cb → Prop
  | .addTimer _ now ms _ _ => now.toNat + ms.toNat < 2 ^ 64
  | .refresh a now => now.toNat + (w.manager.object a).ms.toNat < 2 ^ 64
  | .reset a now ms fromNow =>
    (resetStart (w.manager.object a) now fromNow).toNat + ms.toNat < 2 ^ 64
  | .listExpiredCb now _ => ∀ a ∈ w.manager.timers, Due w.manager now a →
      (w.manager.object a).recurring = true → now.toNat + (w.manager.object a).ms.toNat < 2 ^ 64
  | .cancel _ | .getNextTimer _ => True

/-- The clock does not go back, and no sum overflows. -/
def Allowed (w : Waiting Cb) : Event Cb → Prop
  | .tick now => w.clock.toNat ≤ now.toNat
  | .look => True
  | .call op => Fresh w.manager op ∧ w.ReadingOk op ∧ w.SumOk op

/-- No stored deadline is before the one the waiting thread saw, or it is notified. -/
def NoLostWakeup (w : Waiting Cb) : Prop :=
  w.notified = true ∨ ∀ a ∈ w.manager.timers, ¬ w.observed.After (w.manager.object a).next

/-- The reading of `listExpiredCb` is not taken for a clock that was set back. -/
def NoRollover (w : Waiting Cb) : Event Cb → Prop
  | .call (.listExpiredCb now _) => (w.manager.detectedClockRollover now).1 = false
  | _ => True

/-- The flag is set only after a notification, and no timer was set at a reading still to come. -/
structure Sound (w : Waiting Cb) : Prop where
  store : Invariant w.manager
  flag : w.manager.tickled = true → w.notified = true
  period : ∀ a ∈ w.manager.timers, (w.manager.object a).ms.toNat ≤ (w.manager.object a).next.toNat
  past : ∀ a ∈ w.manager.timers, (w.manager.object a).next.toNat ≤
    w.clock.toNat + (w.manager.object a).ms.toNat

theorem sound_construct (start : UInt64) : Sound (construct start : Waiting Cb) :=
  ⟨construct_invariant start, by simp [construct, TimerManager.construct],
    by simp [construct, TimerManager.construct], by simp [construct, TimerManager.construct]⟩

theorem noLostWakeup_construct (start : UInt64) : NoLostWakeup (construct start : Waiting Cb) :=
  .inr (by simp [construct, TimerManager.construct])

variable {w : Waiting Cb}

theorem sound_sets (h : Sound w) {m' : TimerManager Cb} {a : ℕ} {t : Timer Cb}
    (hsets : Sets w.manager m' a t) (hinv : Invariant m') {front : Bool}
    (htick : m'.tickled = (w.manager.tickled || front)) (hms : t.ms.toNat ≤ t.next.toNat)
    (hpast : t.next.toNat ≤ w.clock.toNat + t.ms.toNat) :
    Sound { w with manager := m', notified := w.notified || front } := by
  refine ⟨hinv, ?_, ?_, ?_⟩
  · intro htrue
    change m'.tickled = true at htrue
    rw [htick, Bool.or_eq_true] at htrue
    rw [Bool.or_eq_true]
    exact htrue.imp_left h.flag
  · exact hsets.forall_timers (P := fun _ t => t.ms.toNat ≤ t.next.toNat) hms h.period
  · exact hsets.forall_timers
      (P := fun _ t => t.next.toNat ≤ w.clock.toNat + t.ms.toNat) hpast h.past

/-- Setting a timer through `addTimer(timer, lock)`: one that is set before all the others is
the first one, and then the flag lets the notification pass unless it was made before. -/
theorem noLostWakeup_sets (h : Sound w) (hn : NoLostWakeup w) {m' : TimerManager Cb} {a : ℕ}
    {t : Timer Cb} (hsets : Sets w.manager m' a t) (hinv : Invariant m') {front : Bool}
    (hfront : front = true ↔ m'.timers.head? = some a ∧ w.manager.tickled = false) :
    NoLostWakeup { w with manager := m', notified := w.notified || front } := by
  cases hnot : w.notified with
  | true => exact .inl rfl
  | false =>
    have hwait := hn.resolve_left (by simp [hnot])
    have htick : w.manager.tickled = false := by
      by_contra hset
      have := h.flag (by simpa using hset)
      rw [hnot] at this
      cases this
    by_cases hafter : w.observed.After t.next
    · have ha : a ∈ m'.timers := (hsets.timers a).mpr (.inl rfl)
      obtain ⟨first, hfirst⟩ : ∃ first, m'.timers.head? = some first :=
        ⟨m'.timers.head (List.ne_nil_of_mem ha), List.head?_eq_some_head _⟩
      have hle := next_le_of_first hinv hfirst ha
      rw [hsets.object_self] at hle
      by_cases hfa : first = a
      · left
        rw [hfront.mpr ⟨hfa ▸ hfirst, htick⟩]
        rfl
      · -- an older timer that comes first would be early as well
        have hold := ((hsets.timers first).mp (List.mem_of_head? hfirst)).resolve_left hfa
        rw [hsets.object_of_ne hfa] at hle
        exact absurd (hafter.of_le hle) (hwait first hold)
    · exact .inr (hsets.forall_timers (P := fun _ t => ¬ w.observed.After t.next) hafter hwait)

section Calls

theorem step_add (h : Sound w) {a : ℕ} {now ms : UInt64} {cb : Cb} {recurring : Bool}
    (hok : w.Allowed (.call (.addTimer a now ms cb recurring))) :
    ∃ o t, w.step (.call (.addTimer a now ms cb recurring)) = some (o, t) ∧ Sound t ∧
      (NoLostWakeup w → NoLostWakeup t) := by
  obtain ⟨hfresh, hreading, hsum⟩ := hok
  have hinv := addTimer_invariant h.store hfresh now ms cb recurring
  obtain ⟨hsets, htick, hfront⟩ :=
    addTimerLocked_sets w.manager a ⟨recurring, ms, now + ms, some cb⟩
  have hnext : (now + ms).toNat = now.toNat + ms.toNat := Watch.toNat_add_of_lt hsum
  refine ⟨_, _, rfl, sound_sets h hsets hinv htick ?_ ?_, fun hn =>
    noLostWakeup_sets h hn hsets hinv hfront⟩
  · change ms.toNat ≤ (now + ms).toNat
    omega
  · change (now + ms).toNat ≤ w.clock.toNat + ms.toNat
    change now.toNat ≤ w.clock.toNat at hreading
    omega

theorem step_cancel (h : Sound w) (a : ℕ) :
    ∃ o t, w.step (.call (.cancel a)) = some (o, t) ∧ Sound t ∧
      (NoLostWakeup w → NoLostWakeup t) := by
  obtain ⟨r, m', hcall, hkeep, htick, -⟩ := cancel_result h.store a
  obtain ⟨r', m'', hcall', hinv⟩ := cancel_spec h.store a
  cases hcall.symm.trans hcall'
  refine ⟨some (.result r), { w with manager := m', notified := w.notified || false }, ?_,
    ⟨hinv, ?_, ?_, ?_⟩, ?_⟩
  · simp only [step, TimerStore.step, hcall]
    rfl
  · intro htrue
    rw [Bool.or_false]
    exact h.flag (htick ▸ htrue)
  · intro b hb
    rw [(hkeep b hb).2]
    exact h.period b (hkeep b hb).1
  · intro b hb
    rw [(hkeep b hb).2]
    exact h.past b (hkeep b hb).1
  · intro hn
    refine hn.imp (fun hnot => by simp [hnot]) ?_
    intro hall b hb
    rw [(hkeep b hb).2]
    exact hall b (hkeep b hb).1

/-- `refresh` notifies nobody; it sets a timer at a later reading, so not to an earlier deadline. -/
theorem step_refresh (h : Sound w) {a : ℕ} {now : UInt64}
    (hok : w.Allowed (.call (.refresh a now))) :
    ∃ o t, w.step (.call (.refresh a now)) = some (o, t) ∧ Sound t ∧
      (NoLostWakeup w → NoLostWakeup t) := by
  obtain ⟨-, hreading, hsum⟩ := hok
  change now = w.clock at hreading
  rcases refresh_result h.store a now with ⟨-, hkeep⟩ | ⟨ha, m', hset, htick, hsets⟩
  · refine ⟨some (.result false), w, ?_, h, id⟩
    simp only [step, TimerStore.step, hkeep]
    simp [Except.toOption, Notifies]
  · obtain ⟨r, m'', hcall, hinv⟩ := refresh_spec h.store a now
    cases hset.symm.trans hcall
    have hnext := Watch.toNat_add_of_lt hsum
    have hlater := h.past a ha
    rw [← hreading, ← hnext] at hlater
    refine ⟨some (.result true), { w with manager := m', notified := w.notified || false }, ?_,
      sound_sets h hsets hinv (by rw [htick, Bool.or_false]) ?_ ?_, ?_⟩
    · simp only [step, TimerStore.step, hset]
      rfl
    · change (w.manager.object a).ms.toNat ≤ (now + (w.manager.object a).ms).toNat
      omega
    · change (now + (w.manager.object a).ms).toNat ≤ w.clock.toNat + (w.manager.object a).ms.toNat
      rw [hnext, hreading]
    · intro hn
      refine hn.imp (fun hnot => by simp [hnot]) ?_
      intro hall
      exact hsets.forall_timers (P := fun _ t => ¬ w.observed.After t.next)
        (fun hafter => hall a ha (hafter.of_le hlater)) hall

theorem step_reset (h : Sound w) {a : ℕ} {now ms : UInt64} {fromNow : Bool}
    (hok : w.Allowed (.call (.reset a now ms fromNow))) :
    ∃ o t, w.step (.call (.reset a now ms fromNow)) = some (o, t) ∧ Sound t ∧
      (NoLostWakeup w → NoLostWakeup t) := by
  obtain ⟨-, hreading, hsum⟩ := hok
  change now = w.clock at hreading
  rcases reset_result h.store a now ms fromNow with
    ⟨r, -, hkeep⟩ | ⟨ha, front, m', hset, hsets, htick, hfront⟩
  · refine ⟨some (.reset r false), w, ?_, h, id⟩
    simp only [step, TimerStore.step, hkeep]
    simp [Except.toOption, Notifies]
  · obtain ⟨r, m'', hcall, hinv⟩ := reset_spec h.store a now ms fromNow
    cases hset.symm.trans hcall
    have hnext := Watch.toNat_add_of_lt hsum
    have hstart : (resetStart (w.manager.object a) now fromNow).toNat ≤ w.clock.toNat := by
      cases fromNow with
      | true => exact hreading ▸ le_refl _
      | false =>
        have hperiod := h.period a ha
        have hpast := h.past a ha
        simp only [resetStart, Bool.false_eq_true, if_false]
        rw [UInt64.toNat_sub_of_le _ _ (UInt64.le_iff_toNat_le.mpr hperiod)]
        omega
    refine ⟨some (.reset true front), { w with manager := m', notified := w.notified || front }, ?_,
      sound_sets h hsets hinv htick ?_ ?_, fun hn => noLostWakeup_sets h hn hsets hinv hfront⟩
    · simp only [step, TimerStore.step, hset]
      rfl
    · change ms.toNat ≤ (resetStart (w.manager.object a) now fromNow + ms).toNat
      omega
    · change (resetStart (w.manager.object a) now fromNow + ms).toNat ≤ w.clock.toNat + ms.toNat
      omega

/-- Another thread's `getNextTimer` clears the flag and nothing else. -/
theorem step_getNextTimer (h : Sound w) (now : UInt64) :
    ∃ o t, w.step (.call (.getNextTimer now)) = some (o, t) ∧ Sound t ∧
      (NoLostWakeup w → NoLostWakeup t) := by
  refine ⟨_, _, rfl, ?_⟩
  rw [getNextTimer_after, show Notifies (.timeout (w.manager.getNextTimer now).1) = false from rfl,
    Bool.or_false]
  refine ⟨⟨h.store.of_set_eq rfl rfl, ?_, h.period, h.past⟩, id⟩
  intro htrue
  cases htrue

/-- The waiting thread sees the deadline of the first timer, which is the earliest. -/
theorem step_look (h : Sound w) :
    ∃ o t, w.step .look = some (o, t) ∧ Sound t ∧ NoLostWakeup t := by
  refine ⟨_, _, rfl, ?_⟩
  rw [getNextTimer_after]
  refine ⟨⟨h.store.of_set_eq rfl rfl, ?_, h.period, h.past⟩, ?_⟩
  · intro htrue
    cases htrue
  · right
    intro a ha
    change a ∈ w.manager.timers at ha
    change ¬ (observe w.manager).After (w.manager.object a).next
    unfold observe
    cases htimers : w.manager.timers with
    | nil =>
      rw [htimers] at ha
      cases ha
    | cons first rest =>
      have hfirst : w.manager.timers.head? = some first := by rw [htimers]; rfl
      have hle := next_le_of_first h.store hfirst ha
      change ¬ (w.manager.object a).next.toNat < (w.manager.object first).next.toNat
      omega

theorem step_tick (h : Sound w) {now : UInt64} (hok : w.Allowed (.tick now)) :
    ∃ o t, w.step (.tick now) = some (o, t) ∧ Sound t ∧ (NoLostWakeup w → NoLostWakeup t) := by
  refine ⟨_, _, rfl, ⟨h.store, h.flag, h.period, ?_⟩, id⟩
  intro a ha
  have hpast := h.past a ha
  change w.clock.toNat ≤ now.toNat at hok
  change (w.manager.object a).next.toNat ≤ now.toNat + (w.manager.object a).ms.toNat
  omega

/-- Due and recurring, and set to a deadline that a `uint64_t` holds. -/
structure SetAgain (m m' : TimerManager Cb) (now : UInt64) (a : ℕ) : Prop where
  due : Due m now a
  recurring : (m.object a).recurring = true
  object : m'.object a = { m.object a with next := now + (m.object a).ms }
  next : (now + (m.object a).ms).toNat = now.toNat + (m.object a).ms.toNat

/-- What `listExpiredCb` leaves is set again or as it was. -/
theorem listExpiredCb_setAgain {m : TimerManager Cb} (h : Invariant m) {now : UInt64}
    (hsum : ∀ a ∈ m.timers, Due m now a → (m.object a).recurring = true →
      now.toNat + (m.object a).ms.toNat < 2 ^ 64) (probe : ℕ) :
    ∃ callbacks m', m.listExpiredCb now probe = .ok (callbacks, m') ∧ Invariant m' ∧
      m'.tickled = m.tickled ∧
      ∀ a ∈ m'.timers, a ∈ m.timers ∧ (SetAgain m m' now a ∨ m'.object a = m.object a) := by
  obtain ⟨expired, m', hcall, hinv, -, hmem, hobj, htimers, htick, -⟩ :=
    listExpiredCb_result h now probe
  refine ⟨_, m', hcall, hinv, htick, ?_⟩
  intro a ha
  obtain ⟨hin, hwhy⟩ := (htimers a).mp ha
  refine ⟨hin, ?_⟩
  by_cases hexp : a ∈ expired
  · have hdue := ((hmem a).mp hexp).2
    have hrec := hwhy.resolve_left fun hn => hn hexp
    refine .inl ⟨hdue, hrec, ?_, Watch.toNat_add_of_lt (hsum a hin hdue hrec)⟩
    simp only [hobj, hexp, if_true, rearm, hrec]
  · exact .inr ((hobj a).trans (if_neg hexp))

theorem sound_expire (h : Sound w) {now : UInt64} (hreading : now.toNat ≤ w.clock.toNat)
    {m' : TimerManager Cb} (hinv : Invariant m') (htick : m'.tickled = w.manager.tickled)
    (hleft : ∀ a ∈ m'.timers, a ∈ w.manager.timers ∧
      (SetAgain w.manager m' now a ∨ m'.object a = w.manager.object a)) :
    Sound { w with manager := m' } := by
  refine ⟨hinv, fun htrue => h.flag (htick ▸ htrue), ?_, ?_⟩
  · intro a ha
    obtain ⟨hin, hagain | hsame⟩ := hleft a ha
    · have hnext := hagain.next
      simp only [hagain.object]
      omega
    · simp only [hsame]
      exact h.period a hin
  · intro a ha
    obtain ⟨hin, hagain | hsame⟩ := hleft a ha
    · have hnext := hagain.next
      simp only [hagain.object]
      omega
    · simp only [hsame]
      exact h.past a hin

/-- The timers that `listExpiredCb` sets again get later deadlines, as the reading was not below
their old ones. -/
theorem step_expire (h : Sound w) {now : UInt64} {probe : ℕ}
    (hok : w.Allowed (.call (.listExpiredCb now probe)))
    (horder : w.NoRollover (.call (.listExpiredCb now probe))) :
    ∃ o t, w.step (.call (.listExpiredCb now probe)) = some (o, t) ∧ Sound t ∧
      (NoLostWakeup w → NoLostWakeup t) := by
  obtain ⟨-, hreading, hsum⟩ := hok
  change now.toNat ≤ w.clock.toNat at hreading
  change (w.manager.detectedClockRollover now).1 = false at horder
  obtain ⟨callbacks, m', hcall, hinv, htick, hleft⟩ := listExpiredCb_setAgain h.store hsum probe
  refine ⟨some (.callbacks callbacks), { w with manager := m' }, ?_,
    sound_expire h hreading hinv htick hleft, ?_⟩
  · simp only [step, TimerStore.step, hcall]
    change some (_, { w with manager := m', notified := w.notified || false }) = _
    rw [Bool.or_false]
  · refine Or.imp id fun hwait => ?_
    intro a ha
    change ¬ w.observed.After (m'.object a).next
    obtain ⟨hin, hset | hsame⟩ := hleft a ha
    · have hle := hset.due.resolve_left (by simp [horder])
      have hnext := hset.next
      rw [hset.object]
      intro hafter
      have hlater : (w.manager.object a).next.toNat ≤
          (now + (w.manager.object a).ms).toNat := by
        rw [UInt64.le_iff_toNat_le] at hle
        omega
      exact hwait a hin (hafter.of_le hlater)
    · rw [hsame]
      exact hwait a hin

end Calls

/-- No step loses a wakeup, unless it takes an old reading for a rollover. -/
theorem step_keeps (h : Sound w) {e : Event Cb} (hok : w.Allowed e) (horder : w.NoRollover e) :
    ∃ o t, w.step e = some (o, t) ∧ Sound t ∧ (NoLostWakeup w → NoLostWakeup t) := by
  cases e with
  | tick now => exact step_tick h hok
  | look =>
    obtain ⟨o, t, hstep, hs, hn⟩ := step_look h
    exact ⟨o, t, hstep, hs, fun _ => hn⟩
  | call op =>
    cases op with
    | addTimer a now ms cb recurring => exact step_add h hok
    | cancel a => exact step_cancel h a
    | refresh a now => exact step_refresh h hok
    | reset a now ms fromNow => exact step_reset h hok
    | getNextTimer now => exact step_getNextTimer h now
    | listExpiredCb now probe => exact step_expire h hok horder

end Waiting

/-- Along every interleaving in which no reading is taken for a rollover, the waiting thread
misses no earlier deadline. -/
theorem no_lost_wakeup_of_no_rollover (start : UInt64) {evs : List (Event Cb)}
    (hevs : StepRuns.Guarded Waiting.Allowed Waiting.step (Waiting.construct start) evs)
    (horder : StepRuns.Guarded Waiting.NoRollover Waiting.step (Waiting.construct start) evs)
    (n : ℕ) :
    ∃ os w, StepRuns.run Waiting.step (Waiting.construct start : Waiting Cb) (evs.take n) =
        some (os, w) ∧
      (w.notified = true ∨
        ∀ a ∈ w.manager.timers, ¬ w.observed.After (w.manager.object a).next) := by
  have hnext : ∀ (w : Waiting Cb) (e : Event Cb), w.Sound ∧ w.NoLostWakeup →
      w.Allowed e ∧ w.NoRollover e →
      ∃ o t, w.step e = some (o, t) ∧ t.Sound ∧ t.NoLostWakeup := by
    rintro w e ⟨hs, hn⟩ ⟨hok, hin⟩
    obtain ⟨o, t, hstep, ht, hkeep⟩ := Waiting.step_keeps hs hok hin
    exact ⟨o, t, hstep, ht, hkeep hn⟩
  have hguarded := StepRuns.guarded_take (StepRuns.guarded_and hevs horder) n
  obtain ⟨os, w, hrun, -, hwait⟩ := StepRuns.run_total hnext
    ⟨Waiting.sound_construct start, Waiting.noLostWakeup_construct start⟩ hguarded
  exact ⟨os, w, hrun, hwait⟩

/-- The waiting thread looks, then a timer with an earlier deadline is added. -/
theorem no_lost_wakeup_added :
    StepRuns.Guarded Waiting.Allowed Waiting.step (Waiting.construct 100)
      ([.call (.addTimer 8 100 50 1 false), .look, .call (.addTimer 4 100 20 2 false)] :
        List (Event ℕ)) ∧
    ∀ n, ∃ os w, StepRuns.run Waiting.step (Waiting.construct 100 : Waiting ℕ)
        (([.call (.addTimer 8 100 50 1 false), .look, .call (.addTimer 4 100 20 2 false)] :
          List (Event ℕ)).take n) = some (os, w) ∧
      (w.notified = true ∨
        ∀ a ∈ w.manager.timers, ¬ w.observed.After (w.manager.object a).next) := by
  have hevs : StepRuns.Guarded Waiting.Allowed Waiting.step (Waiting.construct 100)
      ([.call (.addTimer 8 100 50 1 false), .look, .call (.addTimer 4 100 20 2 false)] :
        List (Event ℕ)) := by
    have hsum : (100 : UInt64).toNat + (50 : UInt64).toNat < 2 ^ 64 := by decide
    refine ⟨⟨by decide, le_refl _, hsum⟩, ?_⟩
    intro _ w h
    cases h
    refine ⟨trivial, ?_⟩
    intro _ w h
    cases h
    exact ⟨⟨by decide, le_refl _,
      show (100 : UInt64).toNat + (20 : UInt64).toNat < 2 ^ 64 by decide⟩, fun _ _ _ => trivial⟩
  refine ⟨hevs, no_lost_wakeup_of_no_rollover 100 hevs ?_⟩
  exact ⟨trivial, fun _ _ _ => ⟨trivial, fun _ _ _ => ⟨trivial, fun _ _ _ => trivial⟩⟩⟩

/-- Two threads expire timers; the first one read the clock and was then held up for more than
an hour before it took the lock. It finds a rollover, and sets the timer back by that hour
behind the back of the waiting thread. -/
theorem wakeup_lost_by_old_reading :
    StepRuns.Guarded Waiting.Allowed Waiting.step (Waiting.construct 10000000)
      ([.call (.addTimer 8 10000000 1000 1 true), .tick 14000000,
        .call (.listExpiredCb 14000000 6), .look, .call (.listExpiredCb 10000000 7)] :
        List (Event ℕ)) ∧
    ∃ os w, StepRuns.run Waiting.step (Waiting.construct 10000000 : Waiting ℕ)
        [.call (.addTimer 8 10000000 1000 1 true), .tick 14000000,
          .call (.listExpiredCb 14000000 6), .look, .call (.listExpiredCb 10000000 7)] =
          some (os, w) ∧
      w.observed = .earliest 14001000 ∧ (w.manager.object 8).next = 10001000 ∧
      ¬ (w.notified = true ∨
        ∀ a ∈ w.manager.timers, ¬ w.observed.After (w.manager.object a).next) := by
  constructor
  · refine ⟨⟨by decide, le_refl _,
      show (10000000 : UInt64).toNat + (1000 : UInt64).toNat < 2 ^ 64 by decide⟩, fun _ w h => ?_⟩
    cases h
    refine ⟨show (10000000 : UInt64).toNat ≤ (14000000 : UInt64).toNat by decide, ?_⟩
    intro _ w h
    cases h
    refine ⟨⟨trivial, le_refl _, ?_⟩, fun _ w h => ?_⟩
    · intro a ha _ _
      cases List.mem_singleton.mp ha
      decide
    cases h
    refine ⟨trivial, ?_⟩
    intro _ w h
    cases h
    refine ⟨⟨trivial, show (10000000 : UInt64).toNat ≤ (14000000 : UInt64).toNat by decide, ?_⟩,
      fun _ _ _ => trivial⟩
    intro a ha _ _
    cases List.mem_singleton.mp ha
    decide
  · exact ⟨_, _, rfl, rfl, rfl, by decide⟩

end TimerWakeup
