import SylarNet.TimerDeadlines

/-!
# What the operations on a timer answer

`cancel`, `refresh` and `reset` answer whether the timer was pending. `reset` has a shortcut in
front of its lock, which answers for a timer that it has not looked at.
-/
namespace TimerResults

open TimerStore TimerStore.TimerManager TimerExpiry TimerDeadlines

variable {Cb : Type}

def Pending (m : TimerManager Cb) (a : ℕ) : Prop := a ∈ m.timers ∧ (m.object a).cb ≠ none

/-- The memory of the timer is not used for another one. -/
def Keeps (a : ℕ) : Op Cb → Prop
  | .addTimer b _ _ _ _ => b ≠ a
  | _ => True

/-- No later call of `listExpiredCb` takes the timer. -/
def NeverHandedOut (m : TimerManager Cb) (a : ℕ) : Prop :=
  ∀ (ops : List (Op Cb)) (rs : List (Answer Cb)) (m' : TimerManager Cb),
    StepRuns.Guarded (fun m op => Fresh m op ∧ Keeps a op) step m ops →
    StepRuns.run step m ops = some (rs, m') → ∀ (now : UInt64) (probe : ℕ),
    ∃ (expired : List ℕ) (m'' : TimerManager Cb),
      m'.listExpiredCb now probe = .ok (expired.map fun b => (m'.object b).cb, m'') ∧
      (∀ b, b ∈ expired ↔ b ∈ m'.timers ∧ Due m' now b) ∧ a ∉ expired

/-- The answer is right, and the timer then is as the answer says. -/
def AnswersRight (w : Watch Cb) : Op Cb → Prop
  | .cancel a => ∃ (r : Bool) (m' : TimerManager Cb), w.manager.cancel a = .ok (r, m') ∧
      (r = true ↔ Pending w.manager a) ∧ (r = true → NeverHandedOut m' a)
  | .refresh a now => ∃ (r : Bool) (m' : TimerManager Cb),
      w.manager.refresh a now = .ok (r, m') ∧ (r = true ↔ Pending w.manager a) ∧
      (r = true → Pending m' a ∧ (m'.object a).ms = (w.manager.object a).ms ∧
        (m'.object a).next = now + (w.manager.object a).ms)
  | .reset a now ms fromNow => ∃ (r front : Bool) (m' : TimerManager Cb),
      w.manager.reset a now ms fromNow = .ok ((r, front), m') ∧
      (r = true ↔ Pending w.manager a) ∧
      (r = true → Pending m' a ∧ (m'.object a).ms = ms ∧
        (m'.object a).next = (if fromNow then now else w.armedAt a) + ms)
  | .addTimer _ _ _ _ _ | .getNextTimer _ | .listExpiredCb _ _ => True

/-- `reset` of a timer that is not pending to the period it had, from its old start. -/
def KeepsDead (m : TimerManager Cb) : Op Cb → Prop
  | .reset a _ ms fromNow => ¬ Pending m a ∧ ms = (m.object a).ms ∧ fromNow = false
  | _ => False

section Store

variable {m : TimerManager Cb} {a : ℕ}

theorem pending_iff (h : Invariant m) : Pending m a ↔ (m.object a).cb ≠ none := by
  constructor
  · intro hp
    exact hp.2
  · intro hcb
    exact ⟨(h.mem_iff a).2 (Option.isSome_iff_ne_none.2 hcb), hcb⟩

theorem pending_of_mem (h : Invariant m) (ha : a ∈ m.timers) : Pending m a :=
  ⟨ha, Option.isSome_iff_ne_none.1 ((h.mem_iff a).1 ha)⟩

theorem cancel_answer (h : Invariant m) (a : ℕ) :
    ∃ (r : Bool) (m' : TimerManager Cb), m.cancel a = .ok (r, m') ∧ Invariant m' ∧
      (r = true ↔ Pending m a) ∧
      m'.object = Function.update m.object a { m.object a with cb := none } := by
  obtain ⟨r, m', hcall, hinv⟩ := cancel_spec h a
  refine ⟨r, m', hcall, hinv, ?_⟩
  rw [pending_iff h]
  unfold TimerManager.cancel at hcall
  cases hcb : (m.object a).cb with
  | none =>
    rw [hcb] at hcall
    cases hcall
    refine ⟨by simp, ?_⟩
    rw [← hcb]
    exact (Function.update_eq_self a m.object).symm
  | some cb =>
    rw [hcb, Option.isSome_some, if_pos rfl] at hcall
    dsimp only at hcall
    split at hcall
    · cases hcall
    · cases hcall
      exact ⟨by simp, rfl⟩

/-- Behind the shortcut a timer without a callback is refused. -/
theorem reset_dead (hcb : (m.object a).cb = none) {now ms : UInt64} {fromNow : Bool}
    (hother : ¬ (ms = (m.object a).ms ∧ fromNow = false)) :
    m.reset a now ms fromNow = .ok ((false, false), m) := by
  have hsame : ¬ (ms = (m.object a).ms && !fromNow) = true := by
    simpa using hother
  unfold TimerManager.reset
  rw [if_neg hsame, hcb]
  rfl

/-- A timer without a callback does not get one. -/
theorem step_dead (h : Invariant m) (hdead : (m.object a).cb = none) {op : Op Cb}
    (hf : Fresh m op) (hkeep : Keeps a op) :
    ∃ r m', step m op = some (r, m') ∧ Invariant m' ∧ (m'.object a).cb = none := by
  obtain ⟨r, m', hstep, hinv⟩ := step_invariant h hf
  refine ⟨r, m', hstep, hinv, ?_⟩
  have hout : a ∉ m.timers := by
    intro ha
    exact (pending_of_mem h ha).2 hdead
  -- a timer that is set was stored, so it is another one
  have hother : ∀ {b : ℕ} {t : Timer Cb}, b ∈ m.timers → Sets m m' b t →
      (m'.object a).cb = none := by
    intro b t hb hsets
    have hne : a ≠ b := by
      rintro rfl
      exact hout hb
    rw [hsets.object_of_ne hne]
    exact hdead
  cases op with
  | addTimer b now ms cb recurring =>
    cases hstep
    have hsets := (addTimerLocked_sets m b ⟨recurring, ms, now + ms, some cb⟩).1
    exact (congrArg Timer.cb (hsets.object_of_ne (Ne.symm hkeep))).trans hdead
  | cancel b =>
    obtain ⟨r', m₁, hcall, -, -, hobj⟩ := cancel_answer h b
    simp only [step, hcall] at hstep
    cases hstep
    by_cases hab : a = b
    · subst hab
      rw [hobj, Function.update_self]
    · rw [hobj, Function.update_of_ne hab]
      exact hdead
  | refresh b now =>
    rcases refresh_result h b now with ⟨-, hcall⟩ | ⟨hb, m₁, hcall, -, hsets⟩
    · simp only [step, hcall] at hstep
      cases hstep
      exact hdead
    · simp only [step, hcall] at hstep
      cases hstep
      exact hother hb hsets
  | reset b now ms fromNow =>
    rcases reset_result h b now ms fromNow with ⟨r₁, -, hcall⟩ | ⟨hb, front, m₁, hcall, hsets, -⟩
    · simp only [step, hcall] at hstep
      cases hstep
      exact hdead
    · simp only [step, hcall] at hstep
      cases hstep
      exact hother hb hsets
  | getNextTimer now =>
    cases hstep
    rw [getNextTimer_after]
    exact hdead
  | listExpiredCb now probe =>
    obtain ⟨expired, m₁, hcall, -, hsub, -, hobj, -⟩ := listExpiredCb_result h now probe
    simp only [step, hcall] at hstep
    cases hstep
    rw [hobj a, if_neg fun ha => hout (hsub.subset ha)]
    exact hdead

/-- Once the callback is gone, no run hands it out. -/
theorem neverHandedOut (h : Invariant m) (hdead : (m.object a).cb = none) :
    NeverHandedOut m a := by
  intro ops rs m' hops hrun now probe
  have hend : Invariant m' ∧ (m'.object a).cb = none := StepRuns.run_invariant
    (P := fun m => Invariant m ∧ (m.object a).cb = none)
    (fun s op o t hs hok hstep => by
      obtain ⟨r, t', hstep', ht⟩ := step_dead hs.1 hs.2 hok.1 hok.2
      cases hstep.symm.trans hstep'
      exact ht)
    ⟨h, hdead⟩ hops hrun
  obtain ⟨expired, m'', hcall, -, -, hmem, -⟩ := listExpiredCb_result hend.1 now probe
  refine ⟨expired, m'', hcall, hmem, ?_⟩
  intro ha
  exact (pending_of_mem hend.1 ((hmem a).1 ha).1).2 hend.2

end Store

/-- Every stored deadline is the reading from which it counts plus the period. Neither a sum
nor a difference is kept from wrapping around. -/
structure Counted (w : Watch Cb) : Prop where
  store : Invariant w.manager
  deadline : w.Stored fun reading t => t.next = reading + t.ms

theorem counted_construct (start : UInt64) : Counted (Watch.construct start : Watch Cb) := by
  refine ⟨construct_invariant start, ?_⟩
  intro a ha
  cases ha

section Watched

variable {w : Watch Cb}

theorem resetStart_eq (h : Counted w) {a : ℕ} (ha : a ∈ w.manager.timers) (now : UInt64)
    (fromNow : Bool) : resetStart (w.manager.object a) now fromNow =
      if fromNow then now else w.armedAt a := by
  cases fromNow with
  | true => rfl
  | false =>
    change (w.manager.object a).next - (w.manager.object a).ms = w.armedAt a
    rw [h.deadline a ha, UInt64.add_sub_cancel]

theorem counted_step (h : Counted w) {op : Op Cb} (hf : Fresh w.manager op) :
    ∃ r w', w.step op = some (r, w') ∧ Counted w' := by
  have hset : w.Setting (fun reading t => t.next = reading + t.ms) op := by
    cases op with
    | addTimer a now ms cb recurring => rfl
    | cancel a => trivial
    | refresh a now => exact fun _ => rfl
    | reset a now ms fromNow =>
      intro ha
      rw [resetStart_eq h ha now fromNow]
    | getNextTimer now => trivial
    | listExpiredCb now probe =>
      intro a ha hdue hrec
      rw [rearm, if_pos hrec]
  obtain ⟨r, w', hstep, hinv, hdeadline⟩ := Watch.stored_step h.store h.deadline hf hset
  exact ⟨r, w', hstep, hinv, hdeadline⟩

theorem cancel_right (h : Counted w) (a : ℕ) : AnswersRight w (.cancel a) := by
  obtain ⟨r, m', hcall, hinv, hr, hobj⟩ := cancel_answer h.store a
  refine ⟨r, m', hcall, hr, ?_⟩
  intro _
  apply neverHandedOut hinv
  rw [hobj, Function.update_self]

theorem refresh_right (h : Counted w) (a : ℕ) (now : UInt64) :
    AnswersRight w (.refresh a now) := by
  obtain ⟨r, m', hcall, hinv⟩ := refresh_spec h.store a now
  refine ⟨r, m', hcall, ?_⟩
  rcases refresh_result h.store a now with ⟨hcb, hok⟩ | ⟨ha, m₁, hok, -, hsets⟩
  · cases hcall.symm.trans hok
    refine ⟨⟨by simp, fun hp => absurd hcb hp.2⟩, by simp⟩
  · cases hcall.symm.trans hok
    have hself := hsets.object_self
    refine ⟨⟨fun _ => pending_of_mem h.store ha, fun _ => rfl⟩, ?_⟩
    intro _
    refine ⟨pending_of_mem hinv ((hsets.timers a).2 (.inl rfl)), ?_, ?_⟩
    · rw [hself]
    · rw [hself]

theorem reset_right_iff (h : Counted w) (a : ℕ) (now ms : UInt64) (fromNow : Bool) :
    AnswersRight w (.reset a now ms fromNow) ↔
      ¬ KeepsDead w.manager (.reset a now ms fromNow) := by
  by_cases hsame : ms = (w.manager.object a).ms ∧ fromNow = false
  · -- the shortcut says yes and changes nothing
    obtain ⟨hms, hfrom⟩ := hsame
    have hcall : w.manager.reset a now ms fromNow = .ok ((true, false), w.manager) := by
      unfold TimerManager.reset
      rw [if_pos (by simp [hms, hfrom])]
    constructor
    · rintro ⟨r, front, m', hok, hr, -⟩ ⟨hdead, -, -⟩
      cases hcall.symm.trans hok
      exact hdead (hr.1 rfl)
    · intro hlive
      have hp : Pending w.manager a := by
        by_contra hdead
        exact hlive ⟨hdead, hms, hfrom⟩
      refine ⟨true, false, w.manager, hcall, ⟨fun _ => hp, fun _ => rfl⟩, ?_⟩
      intro _
      refine ⟨hp, hms.symm, ?_⟩
      rw [hfrom, hms]
      exact h.deadline a hp.1
  · constructor
    · rintro - ⟨-, hms, hfrom⟩
      exact hsame ⟨hms, hfrom⟩
    · intro _
      obtain ⟨⟨r, front⟩, m', hcall, hinv⟩ := reset_spec h.store a now ms fromNow
      refine ⟨r, front, m', hcall, ?_⟩
      rcases reset_result h.store a now ms fromNow with
        ⟨r₁, hwhy, -⟩ | ⟨ha, front₁, m₁, hok, hsets, -⟩
      · have hcb := hwhy.resolve_right hsame
        cases hcall.symm.trans (reset_dead hcb hsame)
        exact ⟨⟨by simp, fun hp => absurd hcb hp.2⟩, by simp⟩
      · cases hcall.symm.trans hok
        have hself := hsets.object_self
        refine ⟨⟨fun _ => pending_of_mem h.store ha, fun _ => rfl⟩, ?_⟩
        intro _
        refine ⟨pending_of_mem hinv ((hsets.timers a).2 (.inl rfl)), ?_, ?_⟩
        · rw [hself]
        · rw [hself, resetStart_eq h ha]

end Watched

/-- In every state that a run reaches, the answer of a call is right, and what it promises then
holds, if and only if the call is not a `reset` that keeps a dead timer as it is. -/
theorem answers_right_iff (start : UInt64) {ops : List (Op Cb)}
    (hops : StepRuns.Guarded (fun w op => Fresh w.manager op) Watch.step
      (Watch.construct start) ops)
    {rs : List (Answer Cb)} {w : Watch Cb}
    (hrun : StepRuns.run Watch.step (Watch.construct start) ops = some (rs, w)) (op : Op Cb) :
    AnswersRight w op ↔ ¬ KeepsDead w.manager op := by
  have h : Counted w := StepRuns.run_invariant
    (fun s op o t hs hok hstep => by
      obtain ⟨r, t', hstep', ht⟩ := counted_step hs hok
      cases hstep.symm.trans hstep'
      exact ht)
    (counted_construct start) hops hrun
  cases op with
  | cancel a => exact iff_of_true (cancel_right h a) id
  | refresh a now => exact iff_of_true (refresh_right h a now) id
  | reset a now ms fromNow => exact reset_right_iff h a now ms fromNow
  | addTimer a now ms cb recurring => exact iff_of_true trivial id
  | getNextTimer now => exact iff_of_true trivial id
  | listExpiredCb now probe => exact iff_of_true trivial id

/-- A timer that was set again from its old start and is set once more to the same period. -/
theorem answers_right_twice :
    ∃ rs w, StepRuns.run Watch.step (Watch.construct 100 : Watch ℕ)
        [.addTimer 8 100 50 1 false, .reset 8 120 80 false] = some (rs, w) ∧
      (AnswersRight w (.reset 8 130 80 false) ↔ ¬ KeepsDead w.manager (.reset 8 130 80 false)) := by
  have hops : StepRuns.Guarded (fun w op => Fresh w.manager op) Watch.step
      (Watch.construct 100 : Watch ℕ) [.addTimer 8 100 50 1 false, .reset 8 120 80 false] :=
    ⟨by decide, fun _ _ _ => ⟨trivial, fun _ _ _ => trivial⟩⟩
  exact ⟨_, _, rfl, answers_right_iff 100 hops rfl (.reset 8 130 80 false)⟩

/-- A timer that has expired, and is then set to the period it had. -/
theorem expired_timer_reset :
    ¬ ∀ (start : UInt64) (ops : List (Op ℕ)) (rs : List (Answer ℕ)) (w : Watch ℕ) (op : Op ℕ),
      StepRuns.Guarded (fun w op => Fresh w.manager op) Watch.step (Watch.construct start) ops →
      StepRuns.run Watch.step (Watch.construct start) ops = some (rs, w) → AnswersRight w op := by
  intro h
  obtain ⟨r, front, m', hcall, hr, -⟩ := h 100 [.addTimer 8 100 50 1 false, .listExpiredCb 150 6]
    _ _ (.reset 8 200 50 false) ⟨by decide, fun _ _ _ => ⟨trivial, fun _ _ _ => trivial⟩⟩ rfl
  have hyes : r = true := by
    cases hcall
    rfl
  have hin := (hr.1 hyes).1
  exact absurd hin (by decide)

end TimerResults
