import SylarNet.SchedulerExclusion
import Mathlib.Data.List.Nodup

/-!
# One entry for a fiber that waits

Fibers that wait for a wake-up, and may be given it before they have been switched out. If no
other caller of `schedule` names a fiber that somebody has, a fiber waits or is queued once, and
the thread that still has it then is on its way to put it on hold.
-/
namespace ParkedFibers

open SylarScheduler SchedulerDelivery SchedulerExclusion

variable {F C : Type} {n : ℕ}

/-- From the wait to the end of `run`'s pass, with the state still `EXEC`. -/
def Parks (yielding : Bool) (f : F) : Pc F C → Prop
  | .inside _ g => yielding = true ∧ g = f
  | .leaving _ g | .left _ g | .settle _ g | .hold _ g => g = f
  | _ => False

/-- The fiber of the queue that a worker has. -/
def given : Pc F C → Option F
  | .took ft => ft.fiber
  | .enter .fiber f | .inside .fiber f | .leaving .fiber f | .left .fiber f | .settle .fiber f
  | .putBack .fiber f | .hold .fiber f => some f
  | _ => none

/-- What a worker relies on about the fiber it has. -/
def Sane [DecidableEq F] (s : State n F C) (w : Worker F C) : Prop :=
  (∀ f, given w.pc = some f → w.cbFiber ≠ some f) ∧
  match w.pc with
  | .took ft => ∀ f, ft.fiber = some f → s.Runnable f
  | .inside _ f => s.Executing f
  | .putBack _ f => s.Runnable f
  | _ => True

/-- `waiting` are the fibers that wait for a wake-up; `yielding` are the threads whose fiber is
among them and yields next. -/
structure Sole [DecidableEq F] (s : State n F C) (waiting : List F) (yielding : Fin n → Bool) :
    Prop where
  base : Invariant s
  once : (queued s ++ waiting).Nodup
  made : ∀ f ∈ waiting, f ∈ s.made
  runnable : ∀ f ∈ queued s ++ waiting, s.Runnable f
  held : ∀ i f, Has (s.workers i) f → f ∈ queued s ++ waiting →
    s.Executing f ∧ Parks (yielding i) f (s.workers i).pc
  sane : ∀ i, Sane s (s.workers i)

/-- Nobody has the fiber and it neither waits nor has an entry; it is not at its end. -/
def Idle [DecidableEq F] (s : State n F C) (waiting : List F) (f : F) : Prop :=
  f ∉ queued s ++ waiting ∧ (∀ i, ¬ Has (s.workers i) f) ∧ s.Runnable f

/-- Other callers of `schedule` name only idle fibers, none of them twice. -/
def SparesWaiting [DecidableEq F] (s : State n F C) (waiting : List F) : Label n F C → Prop
  | .schedule (.fiber (some f)) _ => Idle s waiting f
  | .scheduleAll ts => (ts.filterMap fun t => (FiberAndThread.ofTask t (-1)).fiber).Nodup ∧
      ∀ t ∈ ts, ∀ f, t = .fiber (some f) → Idle s waiting f
  | _ => True

/-- A thread whose fiber waits lets it do nothing but yield. -/
def Yields (yielding : Fin n → Bool) : Label n F C → Prop
  | .body i act => yielding i = true → act = .yieldToHold
  | _ => True

instance (yielding : Fin n → Bool) (l : Label n F C) : Decidable (Yields yielding l) :=
  match l with
  | .body _ _ => inferInstanceAs (Decidable (_ → _))
  | .create _ | .schedule _ _ | .scheduleAll _ | .worker _ | .allocate _ _ | .start | .autoStop
  | .stop => isTrue trivial

/-- The threads whose fiber still has to yield after a step. -/
def cleared (yielding : Fin n → Bool) : Label n F C → Fin n → Bool
  | .body i _ => Function.update yielding i false
  | _ => yielding

variable [DecidableEq F] {tid : Fin n → ℤ} {s t : State n F C} {waiting : List F}
  {yielding yielding' : Fin n → Bool} {l : Label n F C}

theorem sole_initial : Sole (initial : State n F C) [] fun _ => false := by
  refine ⟨invariant_initial, ?_, ?_, ?_, ?_, ?_⟩ <;>
    simp [initial, queued, Sane, given]

omit [DecidableEq F] in
/-- An executing fiber is neither at its end nor free for a worker to take. -/
theorem runnable_of_executing {f : F} (h : s.Executing f) : s.Runnable f := by
  rw [State.Executing] at h
  rw [State.Runnable, h]
  decide

/-- No worker takes a fiber that another one still has. -/
theorem Sole.takesFree (h : Sole s waiting yielding) (l : Label n F C) : TakesFree tid s l := by
  cases l with
  | worker i =>
    intro hpc x rest hscan f hf
    obtain ⟨pre, post, hsplit, -, heligible, -⟩ := scan_some hscan
    have hqueued : f ∈ queued s := by
      refine List.mem_filterMap.2 ⟨x, ?_, hf⟩
      rw [hsplit]
      exact List.mem_append_right _ List.mem_cons_self
    rintro ⟨j, -, hj⟩
    have hhas : Has (s.workers j) f := hj.elim .inr fun hj => .inl hj.2
    exact heligible.2 ⟨f, hf, (h.held j f hhas (List.mem_append_left _ hqueued)).1⟩
  | _ => trivial

/-- A worker that does not park the fiber it has did not leave it to anybody. -/
theorem Sole.not_pending (h : Sole s waiting yielding) {i : Fin n} {f : F}
    (hi : Has (s.workers i) f) (hpc : ¬ Parks (yielding i) f (s.workers i).pc) :
    f ∉ queued s ++ waiting :=
  fun hf => hpc (h.held i f hi hf).2

theorem Sane.congr {w : Worker F C} (h : Sane s w)
    (hobject : ∀ f, Has w f → t.object f = s.object f) : Sane t w := by
  refine ⟨h.1, ?_⟩
  have hpc := h.2
  unfold State.Runnable State.Executing at hpc ⊢
  cases heq : w.pc with
  | took ft =>
    rw [heq] at hpc
    intro f hf
    rw [hobject f (.inl (by rw [heq]; exact hf))]
    exact hpc f hf
  | inside job f | putBack job f =>
    rw [heq] at hpc
    dsimp only at hpc ⊢
    rw [hobject f (.inl (by rw [heq]; rfl))]
    exact hpc
  | _ => trivial

/-- The step of one worker that puts no fiber into the queue and takes none from it. -/
theorem Sole.update (h : Sole s waiting yielding) (hm : Move tid s l t) {i : Fin n}
    (hi : l.actor = some i) (hq : queued t = queued s)
    (hmade : ∀ f, f ∈ s.made → f ∈ t.made) (hy : ∀ j, j ≠ i → yielding' j = yielding j)
    (hrun : ∀ f ∈ queued s ++ waiting, t.Runnable f)
    (hheld : ∀ f, Has (t.workers i) f → f ∈ queued s ++ waiting →
      t.Executing f ∧ Parks (yielding' i) f (t.workers i).pc)
    (hsane : Sane t (t.workers i)) : Sole t waiting yielding' := by
  have hframe : ∀ j, j ≠ i → ∀ f, Has (s.workers j) f → t.object f = s.object f := by
    intro j hj f hf
    refine h.base.object_frame hm ?_ hf
    rw [hi]
    exact fun heq => hj (Option.some.inj heq).symm
  refine ⟨invariant_move h.base (h.takesFree l) hm, by rw [hq]; exact h.once,
    fun f hf => hmade f (h.made f hf), by rw [hq]; exact hrun, ?_, ?_⟩
  · intro j f hf hpending
    rw [hq] at hpending
    by_cases hj : j = i
    · subst hj
      exact hheld f hf hpending
    · rw [hm.others hi j hj] at hf ⊢
      rw [hy j hj, State.Executing, hframe j hj f hf]
      exact h.held j f hf hpending
  · intro j
    by_cases hj : j = i
    · subst hj
      exact hsane
    · rw [hm.others hi j hj]
      exact (h.sane j).congr (hframe j hj)

/-- The worker changes a fiber, and nobody is to wake any that it has. -/
theorem Sole.change (h : Sole s waiting yielding) (hm : Move tid s l t) {i : Fin n} {f : F}
    {o : Fiber} (hi : l.actor = some i) (hq : queued t = queued s)
    (hobject : t.object = Function.update s.object f o) (hmade : ∀ g, g ∈ s.made → g ∈ t.made)
    (hf : f ∉ queued s ++ waiting)
    (hhas : ∀ g, Has (t.workers i) g → g ∉ queued s ++ waiting)
    (hsane : Sane t (t.workers i)) (hy : ∀ j, j ≠ i → yielding' j = yielding j) :
    Sole t waiting yielding' := by
  refine h.update hm hi hq hmade hy ?_ ?_ hsane
  · intro g hg
    have hgf : g ≠ f := fun heq => hf (heq ▸ hg)
    rw [State.Runnable, hobject, Function.update_of_ne hgf]
    exact h.runnable g hg
  · intro g hg hpending
    exact absurd hpending (hhas g hg)

/-- The worker moves on with the fiber it has, or lets go of it. -/
theorem Sole.goto (h : Sole s waiting yielding) (hm : Move tid s l t) {i : Fin n}
    (hi : l.actor = some i) (hq : queued t = queued s) (hobject : t.object = s.object)
    (hmade : t.made = s.made) (hcb : (t.workers i).cbFiber = (s.workers i).cbFiber)
    (hhand : ∀ f, inHand (t.workers i).pc = some f → inHand (s.workers i).pc = some f)
    (hparks : ∀ f, s.Executing f → Parks (yielding i) f (s.workers i).pc →
      Parks (yielding i) f (t.workers i).pc)
    (hsane : Sane t (t.workers i)) : Sole t waiting yielding := by
  refine h.update hm hi hq (by rw [hmade]; exact fun _ => id) (fun _ _ => rfl) ?_ ?_ hsane
  · intro f hf
    rw [State.Runnable, hobject]
    exact h.runnable f hf
  · intro f hf hpending
    have hhas : Has (s.workers i) f := hf.imp (hhand f) fun hf => hcb.symm.trans hf
    obtain ⟨hexec, hpc⟩ := h.held i f hhas hpending
    rw [State.Executing, hobject]
    exact ⟨hexec, hparks f hexec hpc⟩

omit [DecidableEq F] in
@[simp] theorem queued_schedule (ft : FiberAndThread F C) :
    queued (s.scheduleNoLock ft) = queued s ++ ft.fiber.toList := by
  unfold State.scheduleNoLock
  split
  · cases hf : ft.fiber <;> simp [queued, hf]
  · rename_i hnull
    have hf : ft.fiber = none := by
      cases hf : ft.fiber with
      | none => rfl
      | some f => exact absurd (.inl (by rw [hf]; rfl)) hnull
    rw [hf]
    exact (List.append_nil _).symm

/-- A fiber that nobody has and nobody is to wake gets its entry. -/
theorem Sole.push (h : Sole s waiting yielding) {f : F} (base : Invariant t)
    (hq : queued t = queued s ++ [f]) (hpending : f ∉ queued s ++ waiting)
    (hfree : ∀ i, ¬ Has (t.workers i) f) (hrun : s.Runnable f) (hobject : t.object = s.object)
    (hmade : t.made = s.made)
    (hheld : ∀ i g, Has (t.workers i) g → g ∈ queued s ++ waiting →
      s.Executing g ∧ Parks (yielding i) g (t.workers i).pc)
    (hsane : ∀ i, Sane t (t.workers i)) : Sole t waiting yielding := by
  have hmem : ∀ {g}, g ∈ queued t ++ waiting → g = f ∨ g ∈ queued s ++ waiting := by
    intro g hg
    rw [hq] at hg
    simp only [List.mem_append, List.mem_singleton] at hg ⊢
    tauto
  refine ⟨base, ?_, by rw [hmade]; exact h.made, ?_, ?_, hsane⟩
  · have hperm : (queued s ++ [f] ++ waiting).Perm (f :: (queued s ++ waiting)) := by
      rw [List.append_assoc]
      exact List.perm_middle
    rw [hq, hperm.nodup_iff]
    exact List.nodup_cons.2 ⟨hpending, h.once⟩
  · intro g hg
    rw [State.Runnable, hobject]
    rcases hmem hg with rfl | hg
    · exact hrun
    · exact h.runnable g hg
  · intro i g hi hg
    rcases hmem hg with rfl | hg
    · exact absurd hi (hfree i)
    · rw [State.Executing, hobject]
      exact hheld i g hi hg

theorem Sole.schedule (h : Sole s waiting yielding) {task : Task F C} (thread : ℤ)
    (known : s.Known task) (hidle : ∀ f, task = .fiber (some f) → Idle s waiting f) :
    Sole (s.scheduleNoLock (.ofTask task thread)) waiting yielding := by
  obtain ⟨q, r, hframe⟩ := s.scheduleNoLock_frame (.ofTask task thread)
  have base : Invariant (s.scheduleNoLock (.ofTask task thread)) := by
    refine h.base.same (by rw [hframe]) (by intros; rw [hframe]) (by rw [hframe]; exact fun _ => id)
      ?_
    intro f hf
    have hmade := queued_known h.base known hf
    rwa [hframe]
  have hq := queued_schedule (s := s) (.ofTask task thread)
  by_cases hnone : (FiberAndThread.ofTask task thread).fiber = none
  · rw [hnone, Option.toList_none, List.append_nil] at hq
    refine ⟨base, by rw [hq]; exact h.once, ?_, ?_, ?_, ?_⟩
    · rw [hframe]; exact h.made
    · rw [hq, hframe]; exact h.runnable
    · rw [hq, hframe]; exact h.held
    · rw [hframe]; exact fun i => (h.sane i).congr fun _ _ => rfl
  · obtain ⟨f, rfl⟩ : ∃ f, task = .fiber (some f) := by
      cases task with
      | fiber f => cases f with
        | none => exact absurd rfl hnone
        | some f => exact ⟨f, rfl⟩
      | cb c => exact absurd rfl hnone
    obtain ⟨hpending, hfree, hrun⟩ := hidle f rfl
    refine h.push base hq hpending ?_ hrun (by rw [hframe]) (by rw [hframe]) ?_ ?_
    · rw [hframe]; exact hfree
    · rw [hframe]; exact h.held
    · rw [hframe]; exact fun i => (h.sane i).congr fun _ _ => rfl

/-- What was idle stays so when another fiber gets an entry. -/
theorem Idle.schedule {task : Task F C} {thread : ℤ} {g : F} (h : Idle s waiting g)
    (hne : task ≠ .fiber (some g)) :
    Idle (s.scheduleNoLock (.ofTask task thread)) waiting g := by
  obtain ⟨q, r, hframe⟩ := s.scheduleNoLock_frame (.ofTask task thread)
  obtain ⟨hpending, hfree, hrun⟩ := h
  refine ⟨?_, by rw [hframe]; exact hfree, by rw [hframe]; exact hrun⟩
  have hg : g ∉ (FiberAndThread.ofTask task thread).fiber.toList := by
    cases task with
    | fiber f =>
      rw [Option.mem_toList]
      rintro ⟨⟩
      exact hne rfl
    | cb c => exact List.not_mem_nil
  rw [queued_schedule]
  simp only [List.mem_append] at hpending hg ⊢
  tauto

theorem Sole.scheduleAll (h : Sole s waiting yielding) {ts : List (Task F C)}
    (known : ∀ t ∈ ts, s.Known t)
    (hnodup : (ts.filterMap fun t => (FiberAndThread.ofTask t (-1)).fiber).Nodup)
    (hidle : ∀ t ∈ ts, ∀ f, t = .fiber (some f) → Idle s waiting f) :
    Sole (scheduleAll s ts).2 waiting yielding := by
  unfold SylarScheduler.scheduleAll
  dsimp only
  induction ts generalizing s with
  | nil => exact h
  | cons t ts ih =>
    rw [List.foldl_cons, ofPointer_eq_ofTask]
    obtain ⟨q, r, hframe⟩ := s.scheduleNoLock_frame (.ofTask t (-1))
    rw [List.forall_mem_cons] at known hidle
    rw [List.filterMap_cons] at hnodup
    refine ih (h.schedule (-1) known.1 hidle.1) ?_ ?_ ?_
    · rw [hframe]
      exact known.2
    · split at hnodup
      · exact hnodup
      · exact (List.nodup_cons.1 hnodup).2
    · intro u hu f hf
      refine (hidle.2 u hu f hf).schedule ?_
      rintro rfl
      refine (List.nodup_cons.1 hnodup).1 (List.mem_filterMap.2 ⟨u, hu, ?_⟩)
      rw [hf]
      rfl

/-- The fiber of the entry that a worker takes is nobody's and does not wait any more. -/
theorem Sole.take (h : Sole s waiting yielding) {i : Fin n} {x : Ticket F C}
    {rest : List (Ticket F C)} (hm : Move tid s l t) (hi : l.actor = some i)
    (at_pc : (s.workers i).pc = .top)
    (found : scan (tid i) s.Executing s.queue = .ok (some (x, rest)))
    (hself : t.workers i = { s.workers i with pc := .took x.2 }) (hobject : t.object = s.object)
    (hmade : t.made = s.made) (hqueue : t.queue = rest) : Sole t waiting yielding := by
  obtain ⟨pre, post, hsplit, rfl, heligible, -⟩ := scan_some found
  have hqs : queued s = pre.filterMap (·.2.fiber) ++ (x.2.fiber.toList ++
      post.filterMap (·.2.fiber)) := by
    rw [queued, hsplit, List.filterMap_append]
    cases hf : x.2.fiber <;> simp [hf]
  have hqt : queued t = pre.filterMap (·.2.fiber) ++ post.filterMap (·.2.fiber) := by
    rw [queued, hqueue, List.filterMap_append]
  have hsub : (queued t ++ waiting).Sublist (queued s ++ waiting) := by
    rw [hqs, hqt]
    exact ((List.sublist_append_right _ _).append_left _).append_right _
  have htaken : ∀ f, x.2.fiber = some f → f ∈ queued s ++ waiting ∧ f ∉ queued t ++ waiting := by
    intro f hf
    have honce := h.once
    rw [hqs, hf, Option.toList_some, List.singleton_append, List.append_assoc,
      List.cons_append, List.nodup_middle, List.nodup_cons] at honce
    rw [hqs, hqt, hf]
    refine ⟨by simp, ?_⟩
    rw [List.append_assoc]
    exact honce.1
  have hidle : ∀ f, (s.workers i).cbFiber = some f → f ∉ queued s ++ waiting := by
    intro f hf
    refine h.not_pending (.inr hf) ?_
    rw [at_pc]
    exact id
  refine ⟨invariant_move h.base (h.takesFree l) hm, h.once.sublist hsub,
    by rw [hmade]; exact h.made, ?_, ?_, ?_⟩
  · intro f hf
    rw [State.Runnable, hobject]
    exact h.runnable f (hsub.subset hf)
  · intro j f hf hpending
    rw [State.Executing, hobject]
    by_cases hj : j = i
    · subst hj
      rw [hself] at hf
      rcases hf with hf | hf
      · exact absurd hpending (htaken f hf).2
      · exact absurd (hsub.subset hpending) (hidle f hf)
    · rw [hm.others hi j hj] at hf ⊢
      exact h.held j f hf (hsub.subset hpending)
  · intro j
    by_cases hj : j = i
    · subst hj
      rw [hself]
      refine ⟨fun f hf hcb => hidle f hcb (htaken f hf).1, ?_⟩
      intro f hf
      rw [State.Runnable, hobject]
      exact h.runnable f (htaken f hf).1
    · rw [hm.others hi j hj]
      exact (h.sane j).congr fun _ _ => by rw [hobject]

omit [DecidableEq F] in
/-- What a worker still has after a pass with `job`. -/
theorem has_release {w : Worker F C} {job : Job C} {f g : F} (hgiven : job = .fiber →
    w.cbFiber ≠ some f) (hown : ∀ c, job = .cb c → w.cbFiber = some f)
    (h : Has ({ w.release job with pc := .top } : Worker F C) g) : g ≠ f ∧ w.cbFiber = some g := by
  have hcb : (w.release job).cbFiber = some g := h.resolve_left (by rintro ⟨⟩)
  cases job with
  | fiber =>
    refine ⟨?_, hcb⟩
    rintro rfl
    exact hgiven rfl hcb
  | cb c => cases hcb

theorem Sole.putBack (h : Sole s waiting yielding) {i : Fin n} {job : Job C} {f : F}
    (hm : Move tid s l t) (hi : l.actor = some i) (at_pc : (s.workers i).pc = .putBack job f)
    (hself : t.workers i = { (s.workers i).release job with pc := .top })
    (hobject : t.object = s.object) (hmade : t.made = s.made)
    (hq : queued t = queued s ++ [f]) : Sole t waiting yielding := by
  have hsane := h.sane i
  have hown := h.base.pcs i
  rw [PcOk, at_pc] at hown
  rw [Sane, at_pc] at hsane
  have hhas : Has (s.workers i) f := .inl (by rw [at_pc]; rfl)
  have hrelease : ∀ g, Has (t.workers i) g → g ≠ f ∧ (s.workers i).cbFiber = some g := by
    intro g hg
    rw [hself] at hg
    exact has_release (fun hjob => hsane.1 f (by rw [hjob]; rfl)) hown hg
  have hpark : ∀ g, ¬ Parks (yielding i) g (s.workers i).pc := by
    intro g
    rw [at_pc]
    exact id
  refine h.push (invariant_move h.base (h.takesFree l) hm) hq
    (h.not_pending hhas (hpark f)) ?_ hsane.2 hobject hmade ?_ ?_
  · intro j hj
    by_cases hji : j = i
    · subst hji
      exact (hrelease f hj).1 rfl
    · rw [hm.others hi j hji] at hj
      exact (h.base.alone i j f (Ne.symm hji) hhas hj).1 hsane.2
  · intro j g hj hg
    by_cases hji : j = i
    · subst hji
      exact absurd hg (h.not_pending (.inr (hrelease g hj).2) (hpark g))
    · rw [hm.others hi j hji] at hj ⊢
      exact h.held j g hj hg
  · intro j
    by_cases hji : j = i
    · subst hji
      rw [hself]
      exact ⟨fun g hg => (by cases hg), trivial⟩
    · rw [hm.others hi j hji]
      exact (h.sane j).congr fun _ _ => by rw [hobject]

/-- A worker that parks no fiber has left none of those it has to anybody. -/
theorem Sole.none_pending (h : Sole s waiting yielding) {i : Fin n}
    (hpc : ∀ f, ¬ Parks (yielding i) f (s.workers i).pc) :
    ∀ f, Has (s.workers i) f → f ∉ queued s ++ waiting :=
  fun f hf => h.not_pending hf (hpc f)

theorem Sole.sane_at (h : Sole s waiting yielding) {i : Fin n} {pc : Pc F C}
    (at_pc : (s.workers i).pc = pc) : Sane s { s.workers i with pc := pc } :=
  at_pc ▸ h.sane i

theorem Sole.create (h : Sole s waiting yielding) {f : F} (fresh : f ∉ s.made)
    (hm : Move tid s (.create f) { s.setFiber f .construct with made := f :: s.made }) :
    Sole { s.setFiber f .construct with made := f :: s.made } waiting yielding := by
  have hne : ∀ {g}, g ∈ s.made → g ≠ f := fun hg heq => fresh (heq ▸ hg)
  have hobject : ∀ {g}, g ∈ s.made → Function.update s.object f .construct g = s.object g :=
    fun hg => Function.update_of_ne (hne hg) _ _
  have hpending : ∀ {g}, g ∈ queued s ++ waiting → g ∈ s.made := by
    intro g hg
    exact (List.mem_append.1 hg).elim (h.base.queue g) (h.made g)
  refine ⟨invariant_move h.base (h.takesFree _) hm, h.once,
    fun g hg => List.mem_cons_of_mem _ (h.made g hg), ?_, ?_, ?_⟩
  · intro g hg
    rw [State.Runnable]
    dsimp only [State.setFiber]
    rw [hobject (hpending hg)]
    exact h.runnable g hg
  · intro i g hi hg
    rw [State.Executing]
    dsimp only [State.setFiber]
    rw [hobject (hpending hg)]
    exact h.held i g hi hg
  · exact fun i => (h.sane i).congr fun g hg => hobject (h.base.made i g hg)

theorem Sole.choose (h : Sole s waiting yielding) {i : Fin n} {ft : FiberAndThread F C}
    (at_pc : (s.workers i).pc = .took ft)
    (hm : Move tid s (.worker i) (s.goto i (s.choose ft))) :
    Sole (s.goto i (s.choose ft)) waiting yielding := by
  refine h.goto hm rfl rfl rfl rfl (by simp) ?_ (by simp [at_pc, Parks]) ?_
  · rcases s.choose_cases ft with ⟨f, hft, -, hchoose⟩ | ⟨c, -, hchoose⟩ | hchoose <;>
      simp [hchoose, at_pc, inHand, entered]
    exact hft
  · rw [State.goto_self]
    rcases s.choose_cases ft with ⟨f, hft, -, hchoose⟩ | ⟨c, -, hchoose⟩ | hchoose
    · rw [hchoose]
      refine ⟨fun g hg => (h.sane_at at_pc).1 g ?_, trivial⟩
      cases hg
      exact hft
    · rw [hchoose]
      exact ⟨fun g hg => (by cases hg), trivial⟩
    · rw [hchoose]
      exact ⟨fun g hg => (by cases hg), trivial⟩

theorem Sole.reuse (h : Sole s waiting yielding) {i : Fin n} {c : C} {f : F} {o : Fiber}
    (at_pc : (s.workers i).pc = .startCb c) (own : (s.workers i).cbFiber = some f)
    (hm : Move tid s (.worker i) ((s.setFiber f o).goto i (.enter (.cb c) f))) :
    Sole ((s.setFiber f o).goto i (.enter (.cb c) f)) waiting yielding := by
  have hf := h.not_pending (.inr own) (by rw [at_pc]; exact id)
  refine h.change hm rfl rfl rfl (fun _ => id) hf ?_ ?_ fun _ _ => rfl
  · intro g hg
    rw [State.goto_self] at hg
    rcases hg with hg | hg
    · cases hg
      exact hf
    · cases hg.symm.trans own
      exact hf
  · rw [State.goto_self]
    exact ⟨fun g hg => (by cases hg), trivial⟩

theorem Sole.allocate (h : Sole s waiting yielding) {i : Fin n} {c : C} {f : F}
    (fresh : f ∉ s.made)
    (hm : Move tid s (.allocate i f) ({ s.setFiber f .construct with made := f :: s.made }.setWorker
      i { s.workers i with cbFiber := some f, pc := .enter (.cb c) f })) :
    Sole ({ s.setFiber f .construct with made := f :: s.made }.setWorker i
      { s.workers i with cbFiber := some f, pc := .enter (.cb c) f }) waiting yielding := by
  have hf : f ∉ queued s ++ waiting := by
    intro hf
    exact fresh ((List.mem_append.1 hf).elim (h.base.queue f) (h.made f))
  refine h.change hm rfl rfl rfl (fun _ => List.mem_cons_of_mem _) hf ?_ ?_ fun _ _ => rfl
  · intro g hg
    rw [State.setWorker_self] at hg
    rcases hg with hg | hg <;>
    · cases hg
      exact hf
  · rw [State.setWorker_self]
    exact ⟨fun g hg => (by cases hg), trivial⟩

theorem Sole.swapIn (h : Sole s waiting yielding) {i : Fin n} {job : Job C} {f : F} {o : Fiber}
    (at_pc : (s.workers i).pc = .enter job f) (ok : (s.object f).swapIn = .ok o)
    (hm : Move tid s (.worker i)
      { (s.setFiber f o).goto i (.inside job f) with begun := s.begun ++ job.begins i }) :
    Sole { (s.setFiber f o).goto i (.inside job f) with begun := s.begun ++ job.begins i }
      waiting yielding := by
  have hidle := h.none_pending (i := i) (by rw [at_pc]; exact fun _ => id)
  have hhas : Has (s.workers i) f := .inl (by rw [at_pc]; rfl)
  have hself : ({ (s.setFiber f o).goto i (.inside job f) with
      begun := s.begun ++ job.begins i } : State n F C).workers i = _ :=
    State.goto_self (s.setFiber f o) i _
  refine h.change hm rfl rfl rfl (fun _ => id) (hidle f hhas) ?_ ?_ fun _ _ => rfl
  · intro g hg
    rw [hself] at hg
    exact hidle g (hg.imp (fun hg => by rw [at_pc]; exact hg) id)
  · rw [hself]
    refine ⟨?_, ?_⟩
    · cases job with
      | fiber => exact (h.sane_at at_pc).1
      | cb c => exact fun g hg => (by cases hg)
    · obtain ⟨-, -, rfl⟩ := Fiber.swapIn_ok ok
      simp [State.Executing, State.goto, State.setWorker, State.setFiber]

/-- The fiber waits, and all it does is to give up its thread. -/
theorem Sole.yield (h : Sole s waiting yielding) {i : Fin n} {job : Job C} {f : F} {o : Fiber}
    (at_pc : (s.workers i).pc = .inside job f)
    (ok : Act.yieldToHold.apply (s.object f) = .ok o)
    (hm : Move tid s (.body i .yieldToHold) ((s.setFiber f o).goto i (.leaving job f)))
    (hy : ∀ j, j ≠ i → yielding' j = yielding j)
    (hsane : Sane ((s.setFiber f o).goto i (.leaving job f))
      { s.workers i with pc := .leaving job f }) :
    Sole ((s.setFiber f o).goto i (.leaving job f)) waiting yielding' := by
  have hobject : ((s.setFiber f o).goto i (.leaving job f)).object = s.object := by
    have ho : o = s.object f := by
      dsimp only [Act.apply, Fiber.yieldToHold] at ok
      split at ok <;> cases ok
      rfl
    rw [ho]
    exact Function.update_eq_self f s.object
  refine h.update hm rfl rfl (fun _ => id) hy ?_ ?_ ?_
  · intro g hg
    rw [State.Runnable, hobject]
    exact h.runnable g hg
  · intro g hg hpending
    rw [State.goto_self] at hg ⊢
    have hhas : Has (s.workers i) g := hg.imp (fun hg => by rw [at_pc]; exact hg) id
    obtain ⟨hexec, hpark⟩ := h.held i g hhas hpending
    rw [at_pc] at hpark
    rw [State.Executing, hobject]
    exact ⟨hexec, hpark.2⟩
  · rw [State.goto_self]
    exact hsane

theorem Sole.act (h : Sole s waiting yielding) {i : Fin n} {job : Job C} {f : F} {o : Fiber}
    {act : Act} (at_pc : (s.workers i).pc = .inside job f)
    (ok : act.apply (s.object f) = .ok o) (yields : Yields yielding (.body i act : Label n F C))
    (hm : Move tid s (.body i act) ((s.setFiber f o).goto i (.leaving job f))) :
    Sole ((s.setFiber f o).goto i (.leaving job f)) waiting
      (cleared yielding (.body i act : Label n F C)) := by
  have hy : ∀ j, j ≠ i → cleared yielding (.body i act : Label n F C) j = yielding j :=
    fun j hj => Function.update_of_ne hj _ _
  have hleaving : Sane ((s.setFiber f o).goto i (.leaving job f))
      { s.workers i with pc := .leaving job f } := by
    refine ⟨?_, trivial⟩
    cases job with
    | fiber => exact (h.sane_at at_pc).1
    | cb c => exact fun g hg => (by cases hg)
  cases hyield : yielding i with
  | true =>
    obtain rfl : act = .yieldToHold := yields hyield
    exact h.yield at_pc ok hm hy hleaving
  | false =>
    have hidle := h.none_pending (i := i) (by
      rw [at_pc, hyield]
      exact fun g hpark => Bool.false_ne_true hpark.1)
    have hhas : ∀ g, Has { s.workers i with pc := .leaving job f } g → Has (s.workers i) g :=
      fun g hg => hg.imp (fun hg => by rw [at_pc]; exact hg) id
    refine h.change hm rfl rfl rfl (fun _ => id) (hidle f (hhas f (.inl rfl))) ?_ ?_ hy
    · intro g hg
      rw [State.goto_self] at hg
      exact hidle g (hhas g hg)
    · rw [State.goto_self]
      exact hleaving

theorem Sole.settle (h : Sole s waiting yielding) {i : Fin n} {job : Job C} {f : F}
    (at_pc : (s.workers i).pc = .settle job f)
    (hm : Move tid s (.worker i) (s.goto i (s.settle job f))) :
    Sole (s.goto i (s.settle job f)) waiting yielding := by
  have hgiven : ∀ g, given (.settle job f : Pc F C) = some g → (s.workers i).cbFiber ≠ some g :=
    (h.sane_at at_pc).1
  rcases s.settle_cases job f with ⟨hstate, hpc⟩ | ⟨hend, hpc⟩ | ⟨-, hrun, hpc⟩
  · have hrun : s.Runnable f := by
      rw [State.Runnable, hstate]
      decide
    refine h.goto hm rfl rfl rfl rfl (by simp) (by simp [hpc, at_pc, inHand, entered]) ?_ ?_
    · intro g hexec hg
      rw [at_pc] at hg
      obtain rfl : f = g := hg
      rw [State.Executing, hstate] at hexec
      cases hexec
    · rw [State.goto_self, hpc]
      refine ⟨?_, hrun⟩
      cases job <;> exact hgiven
  · have hparks : ∀ g, s.Executing g → ¬ Parks (yielding i) g (s.workers i).pc := by
      intro g hexec hg
      rw [at_pc] at hg
      obtain rfl : f = g := hg
      exact hend (runnable_of_executing hexec)
    rcases hpc with ⟨-, hpc⟩ | ⟨-, hpc⟩
    all_goals
      refine h.goto hm rfl rfl rfl rfl (by simp) (by simp [hpc, at_pc, inHand, entered])
        (fun g hexec hg => absurd hg (hparks g hexec)) ?_
      rw [State.goto_self, hpc]
      exact ⟨fun g hg => (by cases hg), trivial⟩
  · refine h.goto hm rfl rfl rfl rfl (by simp) (by simp [hpc, at_pc, inHand, entered])
      (by simp [hpc, at_pc, Parks]) ?_
    rw [State.goto_self, hpc]
    refine ⟨?_, trivial⟩
    cases job <;> exact hgiven

theorem Sole.hold (h : Sole s waiting yielding) {i : Fin n} {job : Job C} {f : F}
    (at_pc : (s.workers i).pc = .hold job f)
    (hm : Move tid s (.worker i) ((s.setFiber f { s.object f with state := .HOLD }).setWorker i
      { (s.workers i).release job with pc := .top })) :
    Sole ((s.setFiber f { s.object f with state := .HOLD }).setWorker i
      { (s.workers i).release job with pc := .top }) waiting yielding := by
  have hown := h.base.pcs i
  rw [PcOk, at_pc] at hown
  have hgiven : ∀ g, given (.hold job f : Pc F C) = some g → (s.workers i).cbFiber ≠ some g :=
    (h.sane_at at_pc).1
  have hpark : ∀ g, Parks (yielding i) g (s.workers i).pc → g = f := by
    intro g hg
    rw [at_pc] at hg
    exact hg.symm
  refine h.update hm rfl rfl (fun _ => id) (fun _ _ => rfl) ?_ ?_ ?_
  · intro g hg
    by_cases hgf : g = f
    · rw [hgf, State.Runnable]
      simp [State.setFiber, State.setWorker]
    · have hrun := h.runnable g hg
      rw [State.Runnable] at hrun ⊢
      simpa [State.setFiber, State.setWorker, hgf] using hrun
  · intro g hg hpending
    rw [State.setWorker_self] at hg
    obtain ⟨hgf, hcb⟩ := has_release (fun hjob => hgiven f (by rw [hjob]; rfl)) hown.2 hg
    exact absurd (hpark g (h.held i g (.inr hcb) hpending).2) hgf
  · rw [State.setWorker_self]
    exact ⟨fun g hg => (by cases hg), trivial⟩

theorem Sole.recycle (h : Sole s waiting yielding) {i : Fin n} {f : F} {o : Fiber}
    (at_pc : (s.workers i).pc = .recycle f)
    (hm : Move tid s (.worker i) ((s.setFiber f o).goto i .top)) :
    Sole ((s.setFiber f o).goto i .top) waiting yielding := by
  have hown := h.base.pcs i
  rw [PcOk, at_pc] at hown
  have hidle := h.none_pending (i := i) (by rw [at_pc]; exact fun _ => id)
  refine h.change hm rfl rfl rfl (fun _ => id) (hidle f (.inr hown)) ?_ ?_ fun _ _ => rfl
  · intro g hg
    rw [State.goto_self] at hg
    exact hidle g (.inr (hg.resolve_left (by rintro ⟨⟩)))
  · rw [State.goto_self]
    exact ⟨fun g hg => (by cases hg), trivial⟩

/-- What a step of a scheduler keeps, with the flags that it leaves. -/
theorem sole_move (h : Sole s waiting yielding) (spares : SparesWaiting s waiting l)
    (yields : Yields yielding l) (hm : Move tid s l t) :
    Sole t waiting (cleared yielding l) := by
  have hm' := hm
  cases hm with
  | schedule known =>
    refine h.schedule _ known ?_
    rintro f rfl
    exact spares
  | scheduleAll known => exact h.scheduleAll known spares.1 spares.2
  | start | autoStop | stop =>
    exact ⟨invariant_move h.base (h.takesFree _) hm', h.once, h.made, h.runnable, h.held,
      fun i => (h.sane i).congr fun _ _ => rfl⟩
  | null | reuseFails | swapInFails | recycleFails =>
    exact ⟨invariant_move h.base (h.takesFree _) hm', h.once, h.made, h.runnable, h.held,
      fun i => (h.sane i).congr fun _ _ => rfl⟩
  | actFails at_pc fails => exact absurd (h.sane_at at_pc).2 (Act.apply_error fails).1
  | create fresh => exact h.create fresh hm'
  | take at_pc found => exact h.take hm' rfl at_pc found (State.goto_self _ _ _) rfl rfl rfl
  | @putBack i job f at_pc =>
    obtain ⟨q, r, hframe⟩ := s.scheduleNoLock_frame (.ofTask (.fiber (some f)) (-1))
    refine h.putBack hm' rfl at_pc ?_ ?_ ?_ ?_
    · rw [hframe, State.setWorker_self]
    · rw [hframe]; rfl
    · rw [hframe]; rfl
    · exact queued_schedule (.ofTask (.fiber (some f)) (-1))
  | @rest i at_pc =>
    refine h.goto hm' rfl rfl rfl rfl (by simp) ?_ (by simp [at_pc, Parks]) ?_
    · rw [State.goto_self]
      dsimp only
      split <;> simp [inHand, entered]
    · rw [State.goto_self]
      dsimp only
      split <;> exact ⟨fun f hf => (by cases hf), trivial⟩
  | choose at_pc => exact h.choose at_pc hm'
  | reuse at_pc own ok => exact h.reuse at_pc own hm'
  | allocate at_pc own fresh => exact h.allocate fresh hm'
  | swapIn at_pc ok => exact h.swapIn at_pc ok hm'
  | act at_pc ok => exact h.act at_pc ok yields hm'
  | @swapOut i job f at_pc | @uncount i job f at_pc =>
    refine h.goto hm' rfl rfl rfl rfl (by simp) (by simp [at_pc, inHand, entered])
      (by simp [at_pc, Parks]) ?_
    rw [State.goto_self]
    refine ⟨?_, trivial⟩
    cases job with
    | fiber => exact (h.sane_at at_pc).1
    | cb c => exact fun g hg => (by cases hg)
  | settle at_pc => exact h.settle at_pc hm'
  | hold at_pc => exact h.hold at_pc hm'
  | recycle at_pc ok => exact h.recycle at_pc hm'
  | @drop i at_pc | @idle i at_pc =>
    refine h.goto hm' rfl rfl rfl rfl (by simp) (by simp [inHand, entered])
      (by simp [at_pc, Parks]) ?_
    simp [Sane, given]

/-- A running fiber puts itself among those that wait. -/
theorem Sole.park (h : Sole s waiting yielding) {i : Fin n} {job : Job C} {f : F}
    (at_pc : (s.workers i).pc = .inside job f) (hi : yielding i = false) :
    Sole s (waiting ++ [f]) (Function.update yielding i true) := by
  have hsane := h.sane i
  rw [Sane, at_pc] at hsane
  have hhas : Has (s.workers i) f := .inl (by rw [at_pc]; rfl)
  have hrun := runnable_of_executing hsane.2
  have hidle := h.none_pending (i := i) (by
    rw [at_pc, hi]
    exact fun g hpark => Bool.false_ne_true hpark.1)
  have hmem : ∀ {g}, g ∈ queued s ++ (waiting ++ [f]) → g ∈ queued s ++ waiting ∨ g = f := by
    intro g hg
    rwa [← List.append_assoc, List.mem_append, List.mem_singleton] at hg
  refine ⟨h.base, ?_, ?_, ?_, ?_, h.sane⟩
  · rw [← List.append_assoc, List.perm_append_singleton f _ |>.nodup_iff]
    exact List.nodup_cons.2 ⟨hidle f hhas, h.once⟩
  · intro g hg
    rcases List.mem_append.1 hg with hg | hg
    · exact h.made g hg
    · rw [List.mem_singleton.1 hg]
      exact h.base.made i f hhas
  · intro g hg
    rcases hmem hg with hg | rfl
    · exact h.runnable g hg
    · exact hrun
  · intro j g hj hg
    by_cases hji : j = i
    · subst hji
      rcases hmem hg with hg | rfl
      · exact absurd hg (hidle g hj)
      · rw [at_pc, Function.update_self]
        exact ⟨hsane.2, rfl, rfl⟩
    · rw [Function.update_of_ne hji]
      rcases hmem hg with hg | rfl
      · exact h.held j g hj hg
      · exact absurd hrun (h.base.alone i j g (Ne.symm hji) hhas hj).1

/-- A fiber that waits gets its entry. -/
theorem Sole.wake {f : F} (h : Sole s (f :: waiting) yielding) :
    Sole (s.scheduleNoLock (.ofTask (.fiber (some f)) (-1))) waiting yielding := by
  obtain ⟨q, r, hframe⟩ := s.scheduleNoLock_frame (.ofTask (.fiber (some f)) (-1))
  have hq := queued_schedule (s := s) (.ofTask (.fiber (some f)) (-1))
  have heq : queued (s.scheduleNoLock (.ofTask (.fiber (some f)) (-1))) ++ waiting =
      queued s ++ f :: waiting := by
    rw [hq, List.append_assoc]
    rfl
  refine ⟨?_, by rw [heq]; exact h.once, ?_, ?_, ?_, ?_⟩
  · refine h.base.same (by rw [hframe]) (by intros; rw [hframe])
      (by rw [hframe]; exact fun _ => id) ?_
    intro g hg
    have hknown : s.Known (.fiber (some f)) := h.made f List.mem_cons_self
    have hmade := queued_known h.base hknown hg
    rwa [hframe]
  · rw [hframe]
    exact fun g hg => h.made g (List.mem_cons_of_mem _ hg)
  · rw [heq, hframe]
    exact h.runnable
  · rw [heq, hframe]
    exact h.held
  · rw [hframe]
    exact fun i => (h.sane i).congr fun _ _ => rfl

/-- A worker does not drop the fiber of an entry that it has taken, nor finds it in `EXEC`. -/
theorem Sole.enters (h : Sole s waiting yielding) {i : Fin n} {ft : FiberAndThread F C} {f : F}
    (at_pc : (s.workers i).pc = .took ft) (hf : ft.fiber = some f) :
    ¬ s.Executing f ∧ s.choose ft = .enter .fiber f := by
  have hpc := h.base.pcs i
  rw [PcOk, at_pc] at hpc
  have hsane := h.sane i
  rw [Sane, at_pc] at hsane
  refine ⟨hpc f hf, ?_⟩
  unfold State.choose
  rw [hf]
  cases ft.cb <;> exact if_pos (hsane.2 f hf)

end ParkedFibers
