import Mathlib.Algebra.GroupWithZero.Nat
import SylarNet.TimerExpiry

/-!
# Deadlines

Beside the manager two things are recorded that the code does not keep: the reading at which
each timer was last set, and the reading that `listExpiredCb` or the constructor saw last.
The code stores the sum of the first with the period modulo `2 ^ 64` and, unless the set is
empty, the second one.
-/
namespace TimerDeadlines

open TimerStore TimerStore.TimerManager TimerExpiry

variable {Cb : Type}

/-- The timer at `a` has been written and put into the set. -/
structure Sets (m m' : TimerManager Cb) (a : ℕ) (t : Timer Cb) : Prop where
  object : m'.object = Function.update m.object a t
  timers : ∀ b, b ∈ m'.timers ↔ b = a ∨ b ∈ m.timers
  previousTime : m'.previousTime = m.previousTime

namespace Sets

variable {m m' : TimerManager Cb} {a : ℕ} {t : Timer Cb}

theorem object_self (h : Sets m m' a t) : m'.object a = t := by
  rw [h.object, Function.update_self]

theorem object_of_ne (h : Sets m m' a t) {b : ℕ} (hb : b ≠ a) : m'.object b = m.object b := by
  rw [h.object, Function.update_of_ne hb]

/-- What holds of the new timer and of all stored ones holds of all stored ones after. -/
theorem forall_timers (h : Sets m m' a t) {P : ℕ → Timer Cb → Prop} (ht : P a t)
    (hall : ∀ b ∈ m.timers, P b (m.object b)) : ∀ b ∈ m'.timers, P b (m'.object b) := by
  intro b hb
  by_cases hba : b = a
  · subst hba
    rw [h.object_self]
    exact ht
  · rw [h.object_of_ne hba]
    exact hall b (((h.timers b).mp hb).resolve_left hba)

end Sets

section Effects

variable {m : TimerManager Cb} {a : ℕ}

theorem insert_sets (m : TimerManager Cb) (a : ℕ) (t : Timer Cb) :
    Sets m ((m.setTimer a t).insert a) a t :=
  ⟨rfl, fun _ => OrderedSet.mem_insert (less_strictTotal (m.setTimer a t)), rfl⟩

theorem addTimerLocked_eq {m : TimerManager Cb} {a : ℕ} {front : Bool}
    (h : ((m.insert a).timers.head? = some a && !m.tickled) = front) :
    m.addTimerLocked a =
      (front, if front then { m.insert a with tickled := true } else m.insert a) := by
  unfold TimerManager.addTimerLocked
  exact congrArg (fun b : Bool =>
    (b, if b then { m.insert a with tickled := true } else m.insert a)) h

/-- The locked part of `addTimer` calls `onTimerInsertedAtFront` for a first timer, unless the
flag says that this was done already. -/
theorem addTimerLocked_sets (m : TimerManager Cb) (a : ℕ) (t : Timer Cb) :
    Sets m ((m.setTimer a t).addTimerLocked a).2 a t ∧
      ((m.setTimer a t).addTimerLocked a).2.tickled =
        (m.tickled || ((m.setTimer a t).addTimerLocked a).1) ∧
      (((m.setTimer a t).addTimerLocked a).1 = true ↔
        ((m.setTimer a t).addTimerLocked a).2.timers.head? = some a ∧ m.tickled = false) := by
  have hsets := insert_sets m a t
  by_cases hfront : ((m.setTimer a t).insert a).timers.head? = some a && !m.tickled
  · rw [addTimerLocked_eq hfront]
    refine ⟨⟨hsets.object, hsets.timers, hsets.previousTime⟩, by simp, ?_⟩
    simpa using hfront
  · rw [addTimerLocked_eq (eq_false_of_ne_true hfront)]
    refine ⟨hsets, by simp; rfl, ?_⟩
    simpa using hfront

/-- `refresh` does nothing to a timer without a callback. -/
theorem refresh_result (h : Invariant m) (a : ℕ) (now : UInt64) :
    ((m.object a).cb = none ∧ m.refresh a now = .ok (false, m)) ∨
      (a ∈ m.timers ∧ ∃ m', m.refresh a now = .ok (true, m') ∧ m'.tickled = m.tickled ∧
        Sets m m' a { m.object a with next := now + (m.object a).ms }) := by
  unfold TimerManager.refresh
  cases hcb : (m.object a).cb with
  | none => exact .inl ⟨rfl, rfl⟩
  | some cb =>
    have hsome : (m.object a).cb.isSome = true := by rw [hcb]; rfl
    have hmem := (h.mem_iff a).mpr hsome
    have hout := Ordered.takeOut h hmem
    simp only [Option.isNone_some, Bool.false_eq_true, if_false, h.find_armed hsome, hout.setKey_ok]
    refine .inr ⟨hmem, _, rfl, rfl, rfl, ?_, rfl⟩
    intro b
    have hera := OrderedSet.mem_erase (y := b) (less_strictTotal m) h.sorted hmem
    refine (OrderedSet.mem_insert (y := b) (x := a) (less_strictTotal ((m.erase a).setTimer a
      { m.object a with next := now + (m.object a).ms }))).trans ?_
    change b = a ∨ b ∈ OrderedSet.erase m.less a m.timers ↔ _
    rw [hera]
    tauto

/-- `reset` counts from the reading or from where the timer was last set. -/
def resetStart (t : Timer Cb) (now : UInt64) (fromNow : Bool) : UInt64 :=
  if fromNow then now else t.next - t.ms

theorem reset_result (h : Invariant m) (a : ℕ) (now ms : UInt64) (fromNow : Bool) :
    (∃ r, ((m.object a).cb = none ∨ (ms = (m.object a).ms ∧ fromNow = false)) ∧
        m.reset a now ms fromNow = .ok ((r, false), m)) ∨
      (a ∈ m.timers ∧ ∃ front m', m.reset a now ms fromNow = .ok ((true, front), m') ∧
        Sets m m' a { m.object a with
          ms := ms, next := resetStart (m.object a) now fromNow + ms } ∧
        m'.tickled = (m.tickled || front) ∧
        (front = true ↔ m'.timers.head? = some a ∧ m.tickled = false)) := by
  unfold TimerManager.reset
  by_cases hsame : (ms = (m.object a).ms && !fromNow) = true
  · rw [if_pos hsame]
    rw [Bool.and_eq_true, decide_eq_true_eq, Bool.not_eq_true'] at hsame
    exact .inl ⟨true, .inr hsame, rfl⟩
  rw [if_neg hsame]
  cases hcb : (m.object a).cb with
  | none => exact .inl ⟨false, .inl rfl, rfl⟩
  | some cb =>
    have hsome : (m.object a).cb.isSome = true := by rw [hcb]; rfl
    have hmem := (h.mem_iff a).mpr hsome
    have hout := Ordered.takeOut h hmem
    simp only [Option.isNone_some, Bool.false_eq_true, if_false, h.find_armed hsome, hout.setKey_ok]
    obtain ⟨hsets, htick, hfront⟩ := addTimerLocked_sets (m.erase a) a
      { m.object a with ms := ms, next := resetStart (m.object a) now fromNow + ms }
    refine .inr ⟨hmem, _, _, rfl, ⟨hsets.object, ?_, hsets.previousTime⟩, htick, hfront⟩
    intro b
    have hera := OrderedSet.mem_erase (y := b) (less_strictTotal m) h.sorted hmem
    apply (hsets.timers b).trans
    change b = a ∨ b ∈ OrderedSet.erase m.less a m.timers ↔ _
    rw [hera]
    tauto

theorem cancel_result (h : Invariant m) (a : ℕ) :
    ∃ r m', m.cancel a = .ok (r, m') ∧ (∀ b ∈ m'.timers, b ∈ m.timers ∧ m'.object b = m.object b) ∧
      m'.tickled = m.tickled ∧ m'.previousTime = m.previousTime := by
  obtain ⟨r, m', hcall, hinv⟩ := cancel_spec h a
  refine ⟨r, m', hcall, ?_⟩
  unfold TimerManager.cancel at hcall
  by_cases hcb : (m.object a).cb.isSome = true
  · rw [if_pos hcb] at hcall
    cases hfind : (m.setTimer a { m.object a with cb := none }).find a with
    | none =>
      simp only [hfind] at hcall
      cases hcall
    | some it =>
      simp only [hfind] at hcall
      cases hcall
      refine ⟨fun b hb => ⟨OrderedSet.erase_sublist.subset hb, ?_⟩, rfl, rfl⟩
      -- the cancelled timer has no callback left, so it is not stored any more
      have hba : b ≠ a := by
        rintro rfl
        have hleft := (hinv.mem_iff b).mp hb
        simp at hleft
      exact setTimer_object_of_ne _ hba
  · rw [if_neg hcb] at hcall
    cases hcall
    exact ⟨fun b hb => ⟨hb, rfl⟩, rfl, rfl⟩

theorem getNextTimer_after (m : TimerManager Cb) (now : UInt64) :
    (m.getNextTimer now).2 = { m with tickled := false } := by
  unfold TimerManager.getNextTimer
  dsimp only
  split
  · rfl
  · split_ifs
    · rfl
    · rfl

end Effects

structure Watch (Cb : Type) where
  manager : TimerManager Cb
  armedAt : ℕ → UInt64
  seen : UInt64

instance (m : TimerManager Cb) (now : UInt64) (a : ℕ) : Decidable (Due m now a) :=
  inferInstanceAs (Decidable (_ ∨ _))

namespace Watch

def construct (start : UInt64) : Watch Cb := ⟨TimerManager.construct start, fun _ => 0, start⟩

/-- The readings at which the timers were last set, after a call. -/
def armed (w : Watch Cb) : Op Cb → ℕ → UInt64
  | .addTimer a now _ _ _ => Function.update w.armedAt a now
  | .refresh a now =>
    if (w.manager.object a).cb.isSome then Function.update w.armedAt a now else w.armedAt
  | .reset a now _ fromNow =>
    if fromNow && (w.manager.object a).cb.isSome then Function.update w.armedAt a now
    else w.armedAt
  | .listExpiredCb now _ => fun a =>
    if a ∈ w.manager.timers ∧ Due w.manager now a ∧ (w.manager.object a).recurring = true then now
    else w.armedAt a
  | .cancel _ | .getNextTimer _ => w.armedAt

def step (w : Watch Cb) (op : Op Cb) : Option (Answer Cb × Watch Cb) :=
  (TimerStore.step w.manager op).map fun r =>
    (r.1, ⟨r.2, w.armed op, match op with | .listExpiredCb now _ => now | _ => w.seen⟩)

/-- When the clock goes back, the reading kept by the code is at least an hour, so that the
difference does not wrap around, and no later one was seen and not kept. -/
def Genuine (w : Watch Cb) (now : UInt64) : Prop :=
  w.manager.timers ≠ [] → now < w.manager.previousTime →
    3600000 ≤ w.manager.previousTime.toNat ∧ w.manager.previousTime.toNat ≤ w.seen.toNat

/-- No deadline of this call wraps around, and no rollover is found where there is none. -/
def Clean (w : Watch Cb) : Op Cb → Prop
  | .addTimer _ now ms _ _ => now.toNat + ms.toNat < 2 ^ 64
  | .refresh a now => now.toNat + (w.manager.object a).ms.toNat < 2 ^ 64
  | .reset a now ms fromNow =>
    (if fromNow then now else w.armedAt a).toNat + ms.toNat < 2 ^ 64
  | .listExpiredCb now _ => w.Genuine now ∧ ∀ a ∈ w.manager.timers, Due w.manager now a →
      (w.manager.object a).recurring = true → now.toNat + (w.manager.object a).ms.toNat < 2 ^ 64
  | .cancel _ | .getNextTimer _ => True

/-- Every stored deadline is the sum it was meant to be. -/
structure Timed (w : Watch Cb) : Prop where
  store : Invariant w.manager
  deadline : ∀ a ∈ w.manager.timers, (w.manager.object a).next.toNat =
    (w.armedAt a).toNat + (w.manager.object a).ms.toNat

theorem timed_construct (start : UInt64) : Timed (construct start : Watch Cb) :=
  ⟨construct_invariant start, by simp [construct, TimerManager.construct]⟩

theorem toNat_add_of_lt {x y : UInt64} (h : x.toNat + y.toNat < 2 ^ 64) :
    (x + y).toNat = x.toNat + y.toNat := by
  rw [UInt64.toNat_add, Nat.mod_eq_of_lt h]

variable {w : Watch Cb}

section Stored

variable {P : UInt64 → Timer Cb → Prop}

/-- What a call says of the timers it sets, each with the reading from which it counts. -/
def Setting (P : UInt64 → Timer Cb → Prop) (w : Watch Cb) : Op Cb → Prop
  | .addTimer _ now ms cb recurring => P now ⟨recurring, ms, now + ms, some cb⟩
  | .refresh a now => a ∈ w.manager.timers →
      P now { w.manager.object a with next := now + (w.manager.object a).ms }
  | .reset a now ms fromNow => a ∈ w.manager.timers →
      P (if fromNow then now else w.armedAt a) { w.manager.object a with
        ms := ms, next := resetStart (w.manager.object a) now fromNow + ms }
  | .listExpiredCb now _ => ∀ a ∈ w.manager.timers, Due w.manager now a →
      (w.manager.object a).recurring = true → P now (rearm now (w.manager.object a))
  | .cancel _ | .getNextTimer _ => True

/-- Every stored timer, with the reading at which it was set. -/
def Stored (P : UInt64 → Timer Cb → Prop) (w : Watch Cb) : Prop :=
  ∀ a ∈ w.manager.timers, P (w.armedAt a) (w.manager.object a)

theorem stored_sets (h : Stored P w) {m' : TimerManager Cb} {a : ℕ} {t : Timer Cb}
    (hsets : Sets w.manager m' a t) {reading : UInt64} (ht : P reading t) (seen : UInt64) :
    Stored P ⟨m', Function.update w.armedAt a reading, seen⟩ := by
  intro b hb
  change P (Function.update w.armedAt a reading b) (m'.object b)
  by_cases hba : b = a
  · subst hba
    rw [hsets.object_self, Function.update_self]
    exact ht
  · rw [hsets.object_of_ne hba, Function.update_of_ne hba]
    exact h b (((hsets.timers b).mp hb).resolve_left hba)

theorem stored_refresh (hinv : Invariant w.manager) (h : Stored P w) {a : ℕ} {now : UInt64}
    (hset : w.Setting P (.refresh a now)) {r : Bool} {m' : TimerManager Cb}
    (hcall : w.manager.refresh a now = .ok (r, m')) (seen : UInt64) :
    Stored P ⟨m', w.armed (.refresh a now), seen⟩ := by
  rcases refresh_result hinv a now with ⟨hcb, hkeep⟩ | ⟨ha, m₁, hok, -, hsets⟩
  · cases hcall.symm.trans hkeep
    simp only [armed, hcb, Option.isSome_none, Bool.false_eq_true, if_false]
    exact h
  · cases hcall.symm.trans hok
    simp only [armed, (hinv.mem_iff a).mp ha, if_true]
    exact stored_sets h hsets (hset ha) seen

theorem stored_reset (hinv : Invariant w.manager) (h : Stored P w) {a : ℕ} {now ms : UInt64}
    {fromNow : Bool} (hset : w.Setting P (.reset a now ms fromNow)) {r : Bool × Bool}
    {m' : TimerManager Cb} (hcall : w.manager.reset a now ms fromNow = .ok (r, m'))
    (seen : UInt64) : Stored P ⟨m', w.armed (.reset a now ms fromNow), seen⟩ := by
  rcases reset_result hinv a now ms fromNow with
    ⟨r₁, hwhy, hkeep⟩ | ⟨ha, front, m₁, hok, hsets, -⟩
  · cases hcall.symm.trans hkeep
    have hsame : w.armed (.reset a now ms fromNow) = w.armedAt := by
      rcases hwhy with hcb | ⟨-, hfrom⟩
      · simp [armed, hcb]
      · simp [armed, hfrom]
    rw [hsame]
    exact h
  · cases hcall.symm.trans hok
    have hafter : w.armed (.reset a now ms fromNow) =
        Function.update w.armedAt a (if fromNow then now else w.armedAt a) := by
      cases fromNow with
      | true => simp [armed, (hinv.mem_iff a).mp ha]
      | false => simp [armed]
    rw [hafter]
    exact stored_sets h hsets (hset ha) seen

theorem stored_expire (hinv : Invariant w.manager) (h : Stored P w) {now : UInt64} {probe : ℕ}
    (hset : w.Setting P (.listExpiredCb now probe)) {cbs : List (Option Cb)}
    {m' : TimerManager Cb} (hcall : w.manager.listExpiredCb now probe = .ok (cbs, m'))
    (seen : UInt64) : Stored P ⟨m', w.armed (.listExpiredCb now probe), seen⟩ := by
  obtain ⟨expired, m'', hcall', -, -, hmem, hobj, htimers, -⟩ :=
    listExpiredCb_result hinv now probe
  cases hcall.symm.trans hcall'
  intro a ha
  obtain ⟨hin, hwhy⟩ := (htimers a).mp ha
  change P (if _ then now else w.armedAt a) (m'.object a)
  rw [hobj a]
  by_cases hexp : a ∈ expired
  · have hdue := ((hmem a).mp hexp).2
    have hrec : (w.manager.object a).recurring = true := hwhy.resolve_left fun hn => hn hexp
    rw [if_pos hexp, if_pos ⟨hin, hdue, hrec⟩]
    exact hset a hin hdue hrec
  · have hnot : ¬ (a ∈ w.manager.timers ∧ Due w.manager now a ∧
        (w.manager.object a).recurring = true) := fun hn => hexp ((hmem a).mpr ⟨hin, hn.2.1⟩)
    rw [if_neg hexp, if_neg hnot]
    exact h a hin

/-- What holds of every stored timer and of those that a call sets holds of every stored timer
after the call. -/
theorem stored_step (hinv : Invariant w.manager) (h : Stored P w) {op : Op Cb}
    (hf : Fresh w.manager op) (hset : w.Setting P op) :
    ∃ r w', w.step op = some (r, w') ∧ Invariant w'.manager ∧ Stored P w' := by
  obtain ⟨r, m', hstep, hinv'⟩ := step_invariant hinv hf
  refine ⟨r, _, by simp only [step, hstep]; rfl, hinv', ?_⟩
  cases op with
  | addTimer a now ms cb recurring =>
    cases hstep
    exact stored_sets h (addTimerLocked_sets w.manager a ⟨recurring, ms, now + ms, some cb⟩).1
      hset _
  | cancel a =>
    obtain ⟨r', m₁, hcall, hkeep, -, -⟩ := cancel_result hinv a
    simp only [TimerStore.step, hcall] at hstep
    cases hstep
    intro b hb
    change P (w.armedAt b) (m₁.object b)
    rw [(hkeep b hb).2]
    exact h b (hkeep b hb).1
  | refresh a now =>
    obtain ⟨r', m₁, hcall, -⟩ := refresh_spec hinv a now
    simp only [TimerStore.step, hcall] at hstep
    cases hstep
    exact stored_refresh hinv h hset hcall _
  | reset a now ms fromNow =>
    obtain ⟨r', m₁, hcall, -⟩ := reset_spec hinv a now ms fromNow
    simp only [TimerStore.step, hcall] at hstep
    cases hstep
    exact stored_reset hinv h hset hcall _
  | getNextTimer now =>
    cases hstep
    rw [getNextTimer_after]
    exact h
  | listExpiredCb now probe =>
    obtain ⟨cbs, m₁, hcall, -⟩ := listExpiredCb_spec hinv now probe
    simp only [TimerStore.step, hcall] at hstep
    cases hstep
    exact stored_expire hinv h hset hcall _

end Stored

theorem resetStart_toNat (h : Timed w) {a : ℕ} (ha : a ∈ w.manager.timers) (now : UInt64)
    (fromNow : Bool) : (resetStart (w.manager.object a) now fromNow).toNat =
      (if fromNow then now else w.armedAt a).toNat := by
  cases fromNow with
  | true => rfl
  | false =>
    have hnext := h.deadline a ha
    have hle : (w.manager.object a).ms ≤ (w.manager.object a).next := by
      rw [UInt64.le_iff_toNat_le]
      omega
    simp only [resetStart, Bool.false_eq_true, if_false]
    rw [UInt64.toNat_sub_of_le _ _ hle]
    omega

/-- A clean call keeps every stored deadline the sum it was meant to be. -/
theorem timed_step (h : Timed w) {op : Op Cb} (hf : Fresh w.manager op) (hc : w.Clean op) :
    ∃ r w', w.step op = some (r, w') ∧ Timed w' := by
  have hset : w.Setting (fun reading t => t.next.toNat = reading.toNat + t.ms.toNat) op := by
    cases op with
    | addTimer a now ms cb recurring => exact toNat_add_of_lt hc
    | cancel a => trivial
    | refresh a now => exact fun _ => toNat_add_of_lt hc
    | reset a now ms fromNow =>
      intro ha
      have hstart := resetStart_toNat h ha now fromNow
      have hsum : (if fromNow then now else w.armedAt a).toNat + ms.toNat < 2 ^ 64 := hc
      rw [← hstart] at hsum ⊢
      exact toNat_add_of_lt hsum
    | getNextTimer now => trivial
    | listExpiredCb now probe =>
      intro a ha hdue hrec
      rw [rearm, if_pos hrec]
      exact toNat_add_of_lt (hc.2 a ha hdue hrec)
  obtain ⟨r, w', hstep, hinv, hdeadline⟩ := stored_step
    (P := fun reading t => t.next.toNat = reading.toNat + t.ms.toNat) h.store h.deadline hf hset
  exact ⟨r, w', hstep, hinv, hdeadline⟩

/-- A rollover that is found under the condition is one. -/
theorem rollover_genuine {now : UInt64} (hg : w.Genuine now) (hne : w.manager.timers ≠ [])
    (hroll : (w.manager.detectedClockRollover now).1 = true) :
    now.toNat + 3600000 < w.seen.toNat := by
  simp only [detectedClockRollover, Bool.and_eq_true, decide_eq_true_eq] at hroll
  obtain ⟨hhour, hseen⟩ := hg hne hroll.1
  have hsub := hroll.2
  have hconst : (60 * 60 * 1000 : UInt64).toNat = 3600000 := by decide
  rw [UInt64.lt_iff_toNat_lt, UInt64.toNat_sub_of_le _ _
    (by rw [UInt64.le_iff_toNat_le, hconst]; exact hhour), hconst] at hsub
  omega

end Watch

/-- In every run without a sum or a difference that wraps around, no callback is handed out
before its period is over, except after a rollover. -/
theorem no_early_firing (start : UInt64) {ops : List (Op Cb)}
    (hops : StepRuns.Guarded (fun w op => Fresh w.manager op ∧ w.Clean op) Watch.step
      (Watch.construct start) ops)
    {rs : List (Answer Cb)} {w : Watch Cb}
    (hrun : StepRuns.run Watch.step (Watch.construct start) ops = some (rs, w)) {now : UInt64}
    (hnow : w.Genuine now) (probe : ℕ) :
    ∃ (expired : List ℕ) (m' : TimerManager Cb),
      w.manager.listExpiredCb now probe =
        .ok (expired.map fun a => (w.manager.object a).cb, m') ∧
      ∀ a ∈ expired, (w.armedAt a).toNat + (w.manager.object a).ms.toNat ≤ now.toNat ∨
        now.toNat + 3600000 < w.seen.toNat := by
  have h : w.Timed := StepRuns.run_invariant
    (fun s op o t hs hok hstep => by
      obtain ⟨r, t', hstep', ht⟩ := Watch.timed_step hs hok.1 hok.2
      cases hstep.symm.trans hstep'
      exact ht)
    (Watch.timed_construct start) hops hrun
  obtain ⟨expired, m', hcall, -, -, hmem, -⟩ := listExpiredCb_result h.store now probe
  refine ⟨expired, m', hcall, ?_⟩
  intro a ha
  obtain ⟨hin, hdue⟩ := (hmem a).mp ha
  rcases hdue with hroll | hle
  · exact .inr (Watch.rollover_genuine hnow (List.ne_nil_of_mem hin) hroll)
  · rw [UInt64.le_iff_toNat_le, h.deadline a hin] at hle
    exact .inl hle

/-- A timer is due, a recurring one is set again, and a clock that went back by two hours lets
that one expire once more. -/
theorem no_early_firing_two_hours :
    ∃ rs w, StepRuns.run Watch.step (Watch.construct 10000000 : Watch ℕ)
        [.addTimer 8 10000000 50 1 true, .listExpiredCb 10000060 6] = some (rs, w) ∧
      ∃ (expired : List ℕ) (m' : TimerManager ℕ),
        w.manager.listExpiredCb 2800000 6 =
          .ok (expired.map fun a => (w.manager.object a).cb, m') ∧
        ∀ a ∈ expired, (w.armedAt a).toNat + (w.manager.object a).ms.toNat ≤
            (2800000 : UInt64).toNat ∨
          (2800000 : UInt64).toNat + 3600000 < w.seen.toNat := by
  have hops : StepRuns.Guarded (fun w op => Fresh w.manager op ∧ w.Clean op) Watch.step
      (Watch.construct 10000000 : Watch ℕ)
      [.addTimer 8 10000000 50 1 true, .listExpiredCb 10000060 6] := by
    refine ⟨⟨by decide, by simp [Watch.Clean]⟩, ?_⟩
    intro _ w h
    cases h
    refine ⟨⟨trivial, fun _ hlt => absurd hlt (by decide), ?_⟩, fun _ _ _ => trivial⟩
    intro a ha _ _
    cases List.mem_singleton.mp ha
    decide
  refine ⟨_, _, rfl, ?_⟩
  exact no_early_firing 10000000 hops rfl (fun _ _ => ⟨by decide, by decide⟩) 6

/-- A deadline that wraps around; a clock that goes back by one millisecond in its first hour;
a rollover found against a reading that is no longer the last one seen. -/
theorem early_firing_after_wrap :
    (∃ rs w, StepRuns.run Watch.step (Watch.construct 100 : Watch ℕ)
        [.addTimer 8 100 18446744073709551566 1 false] = some (rs, w) ∧
      (w.manager.listExpiredCb 100 6).map Prod.fst = .ok [some 1] ∧
      ¬ ((w.armedAt 8).toNat + (w.manager.object 8).ms.toNat ≤ (100 : UInt64).toNat ∨
        (100 : UInt64).toNat + 3600000 < w.seen.toNat)) ∧
    (∃ rs w, StepRuns.run Watch.step (Watch.construct 1000 : Watch ℕ)
        [.addTimer 8 1000 500 1 false] = some (rs, w) ∧
      (w.manager.listExpiredCb 999 6).map Prod.fst = .ok [some 1] ∧
      ¬ ((w.armedAt 8).toNat + (w.manager.object 8).ms.toNat ≤ (999 : UInt64).toNat ∨
        (999 : UInt64).toNat + 3600000 < w.seen.toNat)) ∧
    (∃ rs w, StepRuns.run Watch.step (Watch.construct 20000000 : Watch ℕ)
        [.listExpiredCb 10000000 6, .addTimer 8 10000000 500 1 false] = some (rs, w) ∧
      (w.manager.listExpiredCb 10000001 6).map Prod.fst = .ok [some 1] ∧
      ¬ ((w.armedAt 8).toNat + (w.manager.object 8).ms.toNat ≤ (10000001 : UInt64).toNat ∨
        (10000001 : UInt64).toNat + 3600000 < w.seen.toNat)) :=
  ⟨⟨_, _, rfl, rfl, by decide⟩, ⟨_, _, rfl, rfl, by decide⟩, ⟨_, _, rfl, rfl, by decide⟩⟩

end TimerDeadlines
