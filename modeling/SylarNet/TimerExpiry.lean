import SylarNet.TimerStore

/-!
# What an expiry hands out

`listExpiredCb` looks for the first timer behind a probe whose address breaks ties, and then
skips the timers that are due at this very reading. The timers before that point are exactly
those that are due, and the loop over them changes no other timer.
-/
namespace TimerExpiry

open TimerStore TimerStore.TimerManager

variable {Cb : Type}

/-- An expired timer after the loop: set again, or without its callback. -/
def rearm (now : UInt64) (t : Timer Cb) : Timer Cb :=
  if t.recurring then { t with next := now + t.ms } else { t with cb := none }

/-- A timer that expires at this reading. -/
def Due (m : TimerManager Cb) (now : UInt64) (a : ℕ) : Prop :=
  (m.detectedClockRollover now).1 = true ∨ (m.object a).next ≤ now

section Loop

variable {m : TimerManager Cb}

/-- One round of the loop changes the first timer only and puts it back if it recurs. -/
theorem expireLoop_cons (now : UInt64) {a : ℕ} {expired : List ℕ} (h : Ordered m (a :: expired)) :
    ∃ m₁ : TimerManager Cb, Ordered m₁ expired ∧
      m₁.object = Function.update m.object a (rearm now (m.object a)) ∧
      (∀ b, b ∈ m₁.timers ↔ b ∈ m.timers ∨ (b = a ∧ (m.object a).recurring = true)) ∧
      m₁.tickled = m.tickled ∧ m₁.previousTime = m.previousTime ∧
      expireLoop now (a :: expired) m =
        (expireLoop now expired m₁).map fun r => ((m.object a).cb :: r.1, r.2) := by
  have hsome : (m.object a).cb.isSome = true := (h.armed a).mp (Or.inr List.mem_cons_self)
  by_cases hrec : (m.object a).recurring = true
  · have hback := (h.change (t := { m.object a with next := now + (m.object a).ms }) hsome).putBack
    refine ⟨_, hback, ?_, ?_, rfl, rfl, ?_⟩
    · simp only [rearm, hrec, if_true]
      rfl
    · intro b
      refine (OrderedSet.mem_insert (y := b) (x := a) (less_strictTotal
        (m.setTimer a { m.object a with next := now + (m.object a).ms }))).trans ?_
      simp only [hrec, and_true]
      exact or_comm
    · rw [expireLoop]
      simp only [if_pos hrec, h.setKey_ok, bind, Except.bind]
      cases expireLoop now expired ((m.setTimer a
        { m.object a with next := now + (m.object a).ms }).insert a) with
      | error e => rfl
      | ok r => rfl
  · refine ⟨_, h.giveUp (t := { m.object a with cb := none }) rfl, ?_, ?_, rfl, rfl, ?_⟩
    · simp only [rearm, hrec]
      rfl
    · intro b
      simp [hrec]
    · rw [expireLoop]
      simp only [if_neg hrec]
      cases expireLoop now expired (m.setTimer a { m.object a with cb := none }) with
      | error e => rfl
      | ok r => rfl

theorem expireLoop_result (now : UInt64) {expired : List ℕ} (h : Ordered m expired) :
    ∃ m' : TimerManager Cb,
      expireLoop now expired m = .ok (expired.map fun a => (m.object a).cb, m') ∧
      Invariant m' ∧
      (∀ b, m'.object b = if b ∈ expired then rearm now (m.object b) else m.object b) ∧
      (∀ b, b ∈ m'.timers ↔ b ∈ m.timers ∨ (b ∈ expired ∧ (m.object b).recurring = true)) ∧
      m'.tickled = m.tickled ∧ m'.previousTime = m.previousTime := by
  induction expired generalizing m with
  | nil => exact ⟨m, rfl, h, by simp, by simp, rfl, rfl⟩
  | cons a expired ih =>
    obtain ⟨m₁, h₁, hobj, htimers, htick, hprev, hloop⟩ := expireLoop_cons now h
    obtain ⟨m', hrest, hinv, hobj', htimers', htick', hprev'⟩ := ih h₁
    have hna : a ∉ expired := (List.nodup_cons.mp h.nodup).1
    have hother : ∀ b, b ≠ a → m₁.object b = m.object b := by
      intro b hb
      rw [hobj, Function.update_of_ne hb]
    refine ⟨m', ?_, hinv, ?_, ?_, htick'.trans htick, hprev'.trans hprev⟩
    · have hcbs : expired.map (fun b => (m₁.object b).cb) =
          expired.map (fun b => (m.object b).cb) := by
        apply List.map_congr_left
        intro b hb
        rw [hother b fun he => hna (he ▸ hb)]
      rw [hloop, hrest, hcbs]
      rfl
    · intro b
      rw [hobj' b]
      by_cases hb : b = a
      · subst hb
        simp [hna, hobj]
      · rw [hother b hb]
        simp [hb]
    · intro b
      rw [htimers' b, htimers b]
      by_cases hb : b = a
      · subst hb
        simp [hna]
      · rw [hother b hb]
        simp [hb]

end Loop

section Split

variable {m : TimerManager Cb}

/-- The timers before the probe and those due at the reading itself are the due ones. -/
theorem mem_splitExpired (h : Invariant m) (now : UInt64) (probe : ℕ) (a : ℕ) :
    a ∈ (m.splitExpired now probe false).1 ↔ a ∈ m.timers ∧ (m.object a).next ≤ now := by
  have hbefore : ∀ b, Comparator (some (m.key b)) (some (now, probe)) = true ↔
      (m.object b).next.toNat < now.toNat ∨
        ((m.object b).next.toNat = now.toNat ∧ b < probe) := by
    intro b
    change (if (m.object b).next < now then true
      else if now < (m.object b).next then false else decide (b < probe)) = true ↔ _
    simp only [UInt64.lt_iff_toNat_lt]
    split_ifs with h1 h2
    · simp [h1]
    · simp only [false_iff]
      omega
    · rw [decide_eq_true_eq]
      omega
  have hclosed : ∀ b ∈ m.timers, ∀ c ∈ m.timers, m.less b c = true →
      Comparator (some (m.key c)) (some (now, probe)) = true →
      Comparator (some (m.key b)) (some (now, probe)) = true := by
    intro b _ c _ hbc hc
    rw [less_iff] at hbc
    rw [hbefore] at hc ⊢
    omega
  have hsub : (m.timers.dropWhile fun b => Comparator (some (m.key b)) (some (now, probe))).Sublist
      m.timers := List.dropWhile_sublist _
  have hmem : ∀ b, b ∈ m.timers.dropWhile
      (fun b => Comparator (some (m.key b)) (some (now, probe))) ↔ _ := fun b =>
    OrderedSet.mem_dropWhile (less_strictTotal m) h.sorted hclosed
  have hrest : ∀ b ∈ m.timers.dropWhile
      (fun b => Comparator (some (m.key b)) (some (now, probe))), ∀ c ∈ m.timers.dropWhile
      (fun b => Comparator (some (m.key b)) (some (now, probe))), m.less b c = true →
      decide ((m.object c).next = now) = true → decide ((m.object b).next = now) = true := by
    intro b hb c _ hbc hc
    have hnot := ((hmem b).1 hb).2
    rw [← Bool.not_eq_true, hbefore] at hnot
    rw [less_iff] at hbc
    simp only [decide_eq_true_eq, ← UInt64.toNat_inj] at hc ⊢
    omega
  simp only [splitExpired, Bool.false_eq_true, if_false, List.mem_append]
  rw [OrderedSet.mem_takeWhile h.sorted hclosed,
    OrderedSet.mem_takeWhile (List.Pairwise.sublist hsub h.sorted) hrest, hmem a,
    ← Bool.not_eq_true, hbefore, decide_eq_true_eq, UInt64.le_iff_toNat_le, ← UInt64.toNat_inj]
  constructor
  · rintro (⟨ha, hlt⟩ | ⟨⟨ha, -⟩, heq⟩)
    · exact ⟨ha, by omega⟩
    · exact ⟨ha, by omega⟩
  · rintro ⟨ha, hle⟩
    by_cases hlt : (m.object a).next.toNat < now.toNat ∨
        ((m.object a).next.toNat = now.toNat ∧ a < probe)
    · exact .inl ⟨ha, hlt⟩
    · exact .inr ⟨⟨ha, hlt⟩, by omega⟩

theorem mem_expired (h : Invariant m) (now : UInt64) (probe : ℕ) (a : ℕ) :
    a ∈ (m.splitExpired now probe (m.detectedClockRollover now).1).1 ↔
      a ∈ m.timers ∧ Due m now a := by
  unfold Due
  cases hroll : (m.detectedClockRollover now).1 with
  | true => simp [splitExpired]
  | false =>
    rw [mem_splitExpired h]
    simp

/-- The first timer has the earliest deadline. -/
theorem next_le_of_first (h : Invariant m) {first : ℕ} (hfirst : m.timers.head? = some first)
    {a : ℕ} (ha : a ∈ m.timers) : (m.object first).next.toNat ≤ (m.object a).next.toNat := by
  obtain ⟨rest, hrest⟩ := List.head?_eq_some_iff.mp hfirst
  have hsorted := h.sorted
  rw [hrest] at ha hsorted
  rcases List.mem_cons.mp ha with rfl | ha
  · exact le_refl _
  · have hless := hsorted.head a ha
    rw [less_iff] at hless
    omega

end Split

/-- No timer is due before the first one, unless the clock went back. -/
theorem none_due {m : TimerManager Cb} (h : Invariant m) {first : ℕ} {now : UInt64}
    (hfirst : m.timers.head? = some first)
    (hearly : (!(m.detectedClockRollover now).1 && decide (now < (m.object first).next)) = true)
    (a : ℕ) : ¬ (a ∈ m.timers ∧ Due m now a) := by
  rintro ⟨ha, hdue⟩
  rw [Bool.and_eq_true, Bool.not_eq_true', decide_eq_true_eq, UInt64.lt_iff_toNat_lt] at hearly
  have hle := next_le_of_first h hfirst ha
  rcases hdue with hdue | hdue
  · rw [hearly.1] at hdue
    cases hdue
  · rw [UInt64.le_iff_toNat_le] at hdue
    omega

/-- What a call of `listExpiredCb` does, rollover or not. -/
theorem listExpiredCb_result {m : TimerManager Cb} (h : Invariant m) (now : UInt64) (probe : ℕ) :
    ∃ (expired : List ℕ) (m' : TimerManager Cb),
      m.listExpiredCb now probe = .ok (expired.map fun a => (m.object a).cb, m') ∧
      Invariant m' ∧ expired.Sublist m.timers ∧
      (∀ a, a ∈ expired ↔ a ∈ m.timers ∧ Due m now a) ∧
      (∀ a, m'.object a = if a ∈ expired then rearm now (m.object a) else m.object a) ∧
      (∀ a, a ∈ m'.timers ↔ a ∈ m.timers ∧ (a ∉ expired ∨ (m.object a).recurring = true)) ∧
      m'.tickled = m.tickled ∧
      m'.previousTime = if m.timers = [] then m.previousTime else now := by
  unfold TimerManager.listExpiredCb
  cases htimers : m.timers with
  | nil => exact ⟨[], m, rfl, h, by simp, by simp, by simp, by simp [htimers], rfl, by simp⟩
  | cons first rest =>
    have hfirst : m.timers.head? = some first := by simp [htimers]
    have hroll : Invariant (m.detectedClockRollover now).2 := h.of_set_eq rfl rfl
    by_cases hearly :
        (!(m.detectedClockRollover now).1 && decide (now < (m.object first).next)) = true
    · have hnone : ∀ a, ¬ (a ∈ m.timers ∧ Due m now a) := none_due h hfirst hearly
      rw [htimers] at hnone
      refine ⟨[], (m.detectedClockRollover now).2, ?_, hroll, by simp, ?_, ?_, ?_, rfl, ?_⟩
      · exact if_pos hearly
      · intro a
        simpa using hnone a
      · intro a
        simp [detectedClockRollover]
      · intro a
        simp only [List.not_mem_nil, not_false_eq_true, true_or, and_true]
        rw [← htimers]
        rfl
      · simp [detectedClockRollover]
    · have hsplit := splitExpired_append (m.detectedClockRollover now).2 now probe
        (m.detectedClockRollover now).1
      obtain ⟨m', hloop, hinv, hobj, hmem, htick, hprev⟩ :=
        expireLoop_result now (hroll.splitOff hsplit)
      have hexpired := mem_expired h now probe
      rw [htimers] at hexpired
      refine ⟨(m.splitExpired now probe (m.detectedClockRollover now).1).1, m', ?_, hinv, ?_,
        hexpired, hobj, ?_, htick, ?_⟩
      · exact (if_neg hearly).trans hloop
      · rw [← htimers]
        refine List.IsPrefix.sublist ⟨_, hsplit⟩
      · intro a
        rw [hmem a]
        have hmid : a ∈ (m.splitExpired now probe (m.detectedClockRollover now).1).1 ∨
            a ∈ (m.splitExpired now probe (m.detectedClockRollover now).1).2 ↔
              a ∈ first :: rest := by
          rw [← List.mem_append, ← htimers]
          exact iff_of_eq (congrArg (a ∈ ·) hsplit)
        have hdisj : a ∈ (m.splitExpired now probe (m.detectedClockRollover now).1).1 →
            a ∉ (m.splitExpired now probe (m.detectedClockRollover now).1).2 :=
          fun ha => (hroll.splitOff hsplit).taken a ha
        change a ∈ (m.splitExpired now probe (m.detectedClockRollover now).1).2 ∨
          (a ∈ (m.splitExpired now probe (m.detectedClockRollover now).1).1 ∧
            (m.object a).recurring = true) ↔ _
        rw [← hmid]
        tauto
      · rw [hprev]
        simp [detectedClockRollover]

/-- In every reachable state the callbacks handed out are those of the due timers, each once
and in the order of the deadlines; the others stay as they are, and a due timer is set again
or loses its callback. -/
theorem expiry_exact (start : UInt64) {ops : List (Op Cb)}
    (hf : StepRuns.Guarded Fresh step (construct start) ops) {rs : List (Answer Cb)}
    {m : TimerManager Cb} (hrun : StepRuns.run step (construct start) ops = some (rs, m))
    (now : UInt64) (probe : ℕ) :
    ∃ (expired : List ℕ) (cbs : List (Option Cb)) (m' : TimerManager Cb),
      m.listExpiredCb now probe = .ok (cbs, m') ∧
      cbs = expired.map (fun a => (m.object a).cb) ∧ (∀ cb ∈ cbs, cb ≠ none) ∧
      (∀ a, a ∈ expired ↔ a ∈ m.timers ∧
        ((m.detectedClockRollover now).1 = true ∨ (m.object a).next ≤ now)) ∧
      expired.Nodup ∧ expired.Pairwise (fun a b => (m.object a).next ≤ (m.object b).next) ∧
      (∀ a, a ∈ m'.timers ↔ a ∈ m.timers ∧ (a ∉ expired ∨ (m.object a).recurring = true)) ∧
      (∀ a, a ∉ expired → m'.object a = m.object a) ∧
      (∀ a ∈ expired, (m.object a).recurring = true →
        m'.object a = { m.object a with next := now + (m.object a).ms }) ∧
      ∀ a ∈ expired, (m.object a).recurring = false →
        m'.object a = { m.object a with cb := none } := by
  have h : Invariant m := StepRuns.run_invariant
    (fun s op o t hs hok hstep => by
      obtain ⟨r, t', hstep', ht⟩ := step_invariant hs hok
      cases hstep.symm.trans hstep'
      exact ht)
    (construct_invariant start) hf hrun
  obtain ⟨expired, m', hcall, -, hsub, hmem, hobj, htimers, -, -⟩ :=
    listExpiredCb_result h now probe
  have hsorted : expired.Pairwise fun a b => m.less a b = true :=
    List.Pairwise.sublist hsub h.sorted
  refine ⟨expired, _, m', hcall, rfl, ?_, hmem, hsub.nodup (h.sorted.nodup (less_strictTotal m)),
    ?_, htimers, ?_, ?_, ?_⟩
  · intro cb hcb
    obtain ⟨a, ha, rfl⟩ := List.mem_map.mp hcb
    rw [← Option.isSome_iff_ne_none]
    exact (h.mem_iff a).mp ((hmem a).mp ha).1
  · apply hsorted.imp
    intro a b hab
    rw [less_iff] at hab
    rw [UInt64.le_iff_toNat_le]
    omega
  · intro a ha
    rw [hobj a, if_neg ha]
  · intro a ha hrec
    rw [hobj a, if_pos ha, rearm, if_pos hrec]
  · intro a ha hrec
    rw [hobj a, if_pos ha, rearm, if_neg (by simp [hrec])]

/-- A recurring timer with period zero and one that is due at the reading itself expire, a
third one does not. -/
theorem expiry_period_zero :
    ∃ rs m, StepRuns.run step (construct 100 : TimerManager ℕ)
        [.addTimer 8 100 0 1 true, .addTimer 4 100 50 2 false, .addTimer 2 100 90 3 false] =
          some (rs, m) ∧
      ∃ (expired : List ℕ) (m' : TimerManager ℕ), m.listExpiredCb 150 6 =
          .ok ([some 1, some 2], m') ∧
        [some 1, some 2] = expired.map (fun a => (m.object a).cb) ∧
        ∀ a, a ∈ m'.timers ↔ a ∈ m.timers ∧ (a ∉ expired ∨ (m.object a).recurring = true) := by
  have hf : StepRuns.Guarded Fresh step (construct 100 : TimerManager ℕ)
      [.addTimer 8 100 0 1 true, .addTimer 4 100 50 2 false, .addTimer 2 100 90 3 false] := by
    refine ⟨by decide, ?_⟩
    intro _ m h
    cases h
    refine ⟨by decide, ?_⟩
    intro _ m h
    cases h
    exact ⟨by decide, fun _ _ _ => trivial⟩
  refine ⟨_, _, rfl, ?_⟩
  obtain ⟨expired, cbs, m', hcall, hcbs, -, -, -, -, htimers, -⟩ := expiry_exact 100 hf rfl 150 6
  have hlist : cbs = [some 1, some 2] := by
    have hmap := congrArg (Except.map Prod.fst) hcall
    exact (Except.ok.inj hmap).symm
  subst hlist
  exact ⟨expired, m', hcall, hcbs, htimers⟩

end TimerExpiry
