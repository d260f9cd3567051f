import SylarNet.SchedulerDelivery

/-!
# One thread for a fiber

The scan leaves out a fiber whose state is `EXEC`, but a worker that has taken a fiber sets
that state only later, in `swapIn`, and a fiber that yields `READY` gives it up before it is
switched out. In between, a second entry of the fiber can be taken by another worker.
-/
namespace SchedulerExclusion

open SylarScheduler SchedulerDelivery

variable {F C : Type} {n : ℕ}

/-- The fiber a worker has passed the check of its state with. -/
def entered : Pc F C → Option F
  | .enter _ f | .inside _ f | .leaving _ f | .left _ f | .settle _ f | .putBack _ f
  | .hold _ f | .recycle f => some f
  | .top | .took _ | .startCb _ | .drop | .idling | .ended => none

/-- The fiber a worker has in `ft.fiber`, or as the one it works with. -/
def inHand : Pc F C → Option F
  | .took ft => ft.fiber
  | pc => entered pc

/-- A worker keeps its own `cb_fiber` also between two callbacks. -/
def Has (w : Worker F C) (f : F) : Prop := inHand w.pc = some f ∨ w.cbFiber = some f

/-- From the call of `swapIn` to its return. -/
def InSwapIn (s : State n F C) (i : Fin n) (f : F) : Prop :=
  ∃ job, (s.workers i).pc = .enter job f ∨ (s.workers i).pc = .inside job f ∨
    (s.workers i).pc = .leaving job f

/-- The fibers of the queue. -/
def queued (s : State n F C) : List F := s.queue.filterMap (·.2.fiber)

/-- No two workers are in `swapIn` for one fiber, and it was not called on one in `EXEC`. -/
def Exclusive (s : State n F C) : Prop :=
  (∀ i j f, i ≠ j → InSwapIn s i f → ¬ InSwapIn s j f) ∧ s.aborted ≠ some .swapInExec

/-- Another worker has the fiber, and it is not one that has ended and stays so. -/
def HeldElsewhere [DecidableEq F] (s : State n F C) (i : Fin n) (f : F) : Prop :=
  ∃ j, j ≠ i ∧ ((s.workers j).cbFiber = some f ∨ s.Runnable f ∧ inHand (s.workers j).pc = some f)

/-- A worker that takes an entry takes no fiber that another worker still has. -/
def TakesFree [DecidableEq F] (tid : Fin n → ℤ) (s : State n F C) : Label n F C → Prop
  | .worker i => (s.workers i).pc = .top → ∀ x rest,
      scan (tid i) s.Executing s.queue = .ok (some (x, rest)) →
        ∀ f, x.2.fiber = some f → ¬ HeldElsewhere s i f
  | _ => True

/-- A callback runs in the worker's own fiber. -/
def Own (w : Worker F C) (job : Job C) (f : F) : Prop := ∀ c, job = .cb c → w.cbFiber = some f

/-- What a worker relies on about the fiber it has. -/
def PcOk [DecidableEq F] (s : State n F C) (w : Worker F C) : Prop :=
  match w.pc with
  | .took ft => ∀ f, ft.fiber = some f → (s.object f).state ≠ .EXEC
  | .enter job f => s.Runnable f ∧ (s.object f).state ≠ .EXEC ∧ Own w job f
  | .inside job f => s.Runnable f ∧ Own w job f
  | .leaving job f | .left job f | .settle job f | .putBack job f => Own w job f
  | .hold job f => s.Runnable f ∧ Own w job f
  | .recycle f => w.cbFiber = some f
  | .top | .startCb _ | .drop | .idling | .ended => True

structure Invariant [DecidableEq F] (s : State n F C) : Prop where
  pcs : ∀ i, PcOk s (s.workers i)
  alone : ∀ i j f, i ≠ j → Has (s.workers i) f → Has (s.workers j) f →
    ¬ s.Runnable f ∧ (s.workers i).cbFiber ≠ some f
  one : ∀ i j f, i ≠ j → entered (s.workers i).pc = some f → entered (s.workers j).pc ≠ some f
  made : ∀ i f, Has (s.workers i) f → f ∈ s.made
  queue : ∀ f ∈ queued s, f ∈ s.made

variable [DecidableEq F] {tid : Fin n → ℤ} {s t : State n F C}

theorem invariant_initial : Invariant (initial : State n F C) := by
  refine ⟨fun _ => trivial, ?_, ?_, ?_, ?_⟩ <;>
    simp [initial, Has, inHand, entered, queued]

omit [DecidableEq F] in
theorem inHand_of_entered {pc : Pc F C} {f : F} (h : entered pc = some f) :
    inHand pc = some f := by
  cases pc <;> first | exact h | cases h

theorem PcOk.congr {w : Worker F C} (h : PcOk s w)
    (hobject : ∀ f, inHand w.pc = some f → t.object f = s.object f) : PcOk t w := by
  unfold PcOk at h ⊢
  unfold State.Runnable at h ⊢
  cases hpc : w.pc with
  | took ft =>
    rw [hpc] at h hobject
    intro f hf
    rw [hobject f hf]
    exact h f hf
  | enter job f | inside job f | hold job f =>
    rw [hpc] at h hobject
    dsimp only at h ⊢
    rw [hobject f rfl]
    exact h
  | leaving | left | settle | putBack | recycle => rw [hpc] at h; exact h
  | top | startCb | drop | idling | ended => trivial

/-- The step of one worker, which changes only fibers that no other worker has. -/
theorem Invariant.update (h : Invariant s) {i : Fin n}
    (hother : ∀ j, j ≠ i → t.workers j = s.workers j)
    (hobject : ∀ j f, j ≠ i → Has (s.workers j) f → t.object f = s.object f)
    (hpc : PcOk t (t.workers i))
    (halone : ∀ j f, j ≠ i → Has (t.workers i) f → Has (s.workers j) f →
      ¬ s.Runnable f ∧ (t.workers i).cbFiber ≠ some f ∧ (s.workers j).cbFiber ≠ some f)
    (hone : ∀ j f, j ≠ i → entered (t.workers i).pc = some f →
      entered (s.workers j).pc ≠ some f)
    (hmade : ∀ f, f ∈ s.made → f ∈ t.made) (hhas : ∀ f, Has (t.workers i) f → f ∈ t.made)
    (hqueue : ∀ f ∈ queued t, f ∈ t.made) : Invariant t := by
  have hrun : ∀ j f, j ≠ i → Has (s.workers j) f → (t.Runnable f ↔ s.Runnable f) := by
    intro j f hj hf
    rw [State.Runnable, State.Runnable, hobject j f hj hf]
  refine ⟨?_, ?_, ?_, ?_, hqueue⟩
  · intro j
    by_cases hj : j = i
    · rw [hj]; exact hpc
    · rw [hother j hj]
      exact (h.pcs j).congr fun f hf => hobject j f hj (.inl hf)
  · intro a b f hab ha hb
    by_cases hai : a = i
    · have hbi : b ≠ i := fun hbi => hab (hai.trans hbi.symm)
      rw [hother b hbi] at hb
      rw [hai] at ha ⊢
      obtain ⟨hr, hcb, -⟩ := halone b f hbi ha hb
      exact ⟨fun hrt => hr ((hrun b f hbi hb).1 hrt), hcb⟩
    · rw [hother a hai] at ha ⊢
      by_cases hbi : b = i
      · rw [hbi] at hb
        obtain ⟨hr, -, hcb⟩ := halone a f hai hb ha
        exact ⟨fun hrt => hr ((hrun a f hai ha).1 hrt), hcb⟩
      · rw [hother b hbi] at hb
        obtain ⟨hr, hcb⟩ := h.alone a b f hab ha hb
        exact ⟨fun hrt => hr ((hrun a f hai ha).1 hrt), hcb⟩
  · intro a b f hab ha hb
    by_cases hai : a = i
    · have hbi : b ≠ i := fun hbi => hab (hai.trans hbi.symm)
      rw [hother b hbi] at hb
      rw [hai] at ha
      exact hone b f hbi ha hb
    · rw [hother a hai] at ha
      by_cases hbi : b = i
      · rw [hbi] at hb
        exact hone a f hai hb ha
      · rw [hother b hbi] at hb
        exact h.one a b f hab ha hb
  · intro j f hf
    by_cases hj : j = i
    · exact hhas f (hj ▸ hf)
    · rw [hother j hj] at hf
      exact hmade f (h.made j f hf)

/-- A step with which the worker gets no fiber that it did not have. -/
theorem Invariant.keep (h : Invariant s) {i : Fin n}
    (hother : ∀ j, j ≠ i → t.workers j = s.workers j)
    (hobject : ∀ j f, j ≠ i → Has (s.workers j) f → t.object f = s.object f)
    (hpc : PcOk t (t.workers i)) (hhas : ∀ f, Has (t.workers i) f → Has (s.workers i) f)
    (hcb : ∀ f, (t.workers i).cbFiber = some f → (s.workers i).cbFiber = some f)
    (hone : ∀ f, entered (t.workers i).pc = some f → entered (s.workers i).pc = some f)
    (hmade : t.made = s.made) (hqueue : ∀ f ∈ queued t, f ∈ s.made) : Invariant t := by
  refine h.update hother hobject hpc ?_ ?_ (by rw [hmade]; exact fun _ => id) ?_ ?_
  · intro j f hj hi hf
    obtain ⟨hr, hcbi⟩ := h.alone i j f (Ne.symm hj) (hhas f hi) hf
    exact ⟨hr, fun hc => hcbi (hcb f hc), (h.alone j i f hj hf (hhas f hi)).2⟩
  · intro j f hj hi
    exact h.one i j f (Ne.symm hj) (hone f hi)
  · intro f hf
    rw [hmade]
    exact h.made i f (hhas f hf)
  · rw [hmade]; exact hqueue

/-- The worker moves on with the fiber it has, or lets go of it. -/
theorem Invariant.goto (h : Invariant s) {i : Fin n} {pc : Pc F C}
    (hother : ∀ j, j ≠ i → t.workers j = s.workers j)
    (hself : t.workers i = { s.workers i with pc := pc })
    (hobject : ∀ j f, j ≠ i → Has (s.workers j) f → t.object f = s.object f)
    (hpc : PcOk t { s.workers i with pc := pc })
    (hhand : ∀ f, inHand pc = some f → inHand (s.workers i).pc = some f)
    (hone : ∀ f, entered pc = some f → entered (s.workers i).pc = some f)
    (hmade : t.made = s.made) (hq : t.queue = s.queue) : Invariant t := by
  refine h.keep hother hobject (by rw [hself]; exact hpc) ?_ ?_ ?_ hmade ?_
  · intro f hf
    rw [hself] at hf
    exact hf.imp (hhand f) id
  · intro f hf
    rw [hself] at hf
    exact hf
  · intro f hf
    rw [hself] at hf
    exact hone f hf
  · intro f hf
    rw [queued, hq] at hf
    exact h.queue f hf

/-- Where a worker is with the fiber in its hand does not matter to the others. -/
theorem Invariant.goOn (h : Invariant s) {i : Fin n} {before pc : Pc F C}
    (at_pc : (s.workers i).pc = before) (hother : ∀ j, j ≠ i → t.workers j = s.workers j)
    (hself : t.workers i = { s.workers i with pc := pc })
    (hobject : ∀ j f, j ≠ i → Has (s.workers j) f → t.object f = s.object f)
    (hpc : PcOk t { s.workers i with pc := pc }) (hhand : inHand pc = inHand before)
    (hone : entered pc = entered before) (hmade : t.made = s.made) (hq : t.queue = s.queue) :
    Invariant t := by
  refine h.goto hother hself hobject hpc ?_ ?_ hmade hq
  · intro f hf
    rw [at_pc, ← hhand, hf]
  · intro f hf
    rw [at_pc, ← hone, hf]

theorem Invariant.letGo (h : Invariant s) {i : Fin n} {pc : Pc F C}
    (hother : ∀ j, j ≠ i → t.workers j = s.workers j)
    (hself : t.workers i = { s.workers i with pc := pc })
    (hobject : ∀ j f, j ≠ i → Has (s.workers j) f → t.object f = s.object f)
    (hpc : PcOk t { s.workers i with pc := pc }) (hhand : inHand pc = none)
    (hone : entered pc = none) (hmade : t.made = s.made) (hq : t.queue = s.queue) :
    Invariant t := by
  refine h.goto hother hself hobject hpc ?_ ?_ hmade hq
  · intro f hf
    rw [hhand] at hf
    cases hf
  · intro f hf
    rw [hone] at hf
    cases hf

/-- The worker gives the fiber away and goes on with the next entry. -/
theorem Invariant.release (h : Invariant s) {i : Fin n} {job : Job C}
    (hother : ∀ j, j ≠ i → t.workers j = s.workers j)
    (hself : t.workers i = { (s.workers i).release job with pc := .top })
    (hobject : ∀ j f, j ≠ i → Has (s.workers j) f → t.object f = s.object f)
    (hmade : t.made = s.made) (hqueue : ∀ f ∈ queued t, f ∈ s.made) : Invariant t := by
  have hcb : ∀ f, (t.workers i).cbFiber = some f → (s.workers i).cbFiber = some f := by
    intro f hf
    rw [hself] at hf
    cases job with
    | fiber => exact hf
    | cb c => cases hf
  refine h.keep hother hobject (by rw [hself]; trivial) ?_ hcb ?_ hmade hqueue
  · intro f hf
    refine .inr (hcb f (hf.resolve_left ?_))
    rw [hself]
    exact fun heq => by cases heq
  · intro f hf
    rw [hself] at hf
    cases hf

/-- Steps of the environment. -/
theorem Invariant.same (h : Invariant s) (hw : t.workers = s.workers)
    (hobject : ∀ i f, Has (s.workers i) f → t.object f = s.object f)
    (hmade : ∀ f, f ∈ s.made → f ∈ t.made) (hqueue : ∀ f ∈ queued t, f ∈ t.made) :
    Invariant t := by
  have hrun : ∀ i f, Has (s.workers i) f → (t.Runnable f ↔ s.Runnable f) := by
    intro i f hf
    rw [State.Runnable, State.Runnable, hobject i f hf]
  refine ⟨?_, ?_, ?_, ?_, hqueue⟩
  · intro i
    rw [hw]
    exact (h.pcs i).congr fun f hf => hobject i f (.inl hf)
  · intro i j f hij hi hj
    rw [hw] at hi hj ⊢
    rw [hrun i f hi]
    exact h.alone i j f hij hi hj
  · rw [hw]; exact h.one
  · intro i f hf
    rw [hw] at hf
    exact hmade f (h.made i f hf)

/-- Changing a fiber that no other worker has. -/
theorem Invariant.setFiber_other (h : Invariant s) {i : Fin n} {f : F} (hi : Has (s.workers i) f)
    (hf : s.Runnable f ∨ (s.workers i).cbFiber = some f) (o : Fiber) (j : Fin n) (g : F)
    (hj : j ≠ i) (hg : Has (s.workers j) g) : (s.setFiber f o).object g = s.object g := by
  have hgf : g ≠ f := by
    rintro rfl
    obtain ⟨hr, hcb⟩ := h.alone i j g (Ne.symm hj) hi hg
    exact hf.elim hr hcb
  simp [State.setFiber, hgf]

omit [DecidableEq F] in
theorem queued_scheduleNoLock {ft : FiberAndThread F C} {f : F}
    (h : f ∈ queued (s.scheduleNoLock ft)) : f ∈ queued s ∨ ft.fiber = some f := by
  unfold State.scheduleNoLock at h
  split at h
  · simpa [queued, List.filterMap_append, or_comm] using h
  · exact .inl h

omit [DecidableEq F] in
theorem queued_scheduleAll {ts : List (Task F C)} {f : F}
    (h : f ∈ queued (scheduleAll s ts).2) : f ∈ queued s ∨ .fiber (some f) ∈ ts := by
  unfold scheduleAll at h
  dsimp only at h
  induction ts generalizing s with
  | nil => exact .inl h
  | cons t ts ih =>
    rw [List.foldl_cons] at h
    rcases ih h with h | h
    · rcases queued_scheduleNoLock h with h | h
      · exact .inl h
      · rw [ofPointer_eq_ofTask] at h
        cases t with
        | fiber f' =>
          cases h
          exact .inr List.mem_cons_self
        | cb c => cases h
    · exact .inr (List.mem_cons_of_mem _ h)

theorem Invariant.take (h : Invariant s) {i : Fin n} {x : Ticket F C}
    {rest : List (Ticket F C)}
    (found : scan (tid i) s.Executing s.queue = .ok (some (x, rest)))
    (free : ∀ f, x.2.fiber = some f → ¬ HeldElsewhere s i f)
    (hother : ∀ j, j ≠ i → t.workers j = s.workers j)
    (hself : t.workers i = { s.workers i with pc := .took x.2 }) (hobject : t.object = s.object)
    (hmade : t.made = s.made) (hq : t.queue = rest) : Invariant t := by
  obtain ⟨pre, post, hsplit, rfl, hx, -⟩ := scan_some found
  have hmem : ∀ y ∈ t.queue, y ∈ s.queue := by
    rw [hq, hsplit]
    intro y hy
    rcases List.mem_append.1 hy with hy | hy
    · exact List.mem_append_left _ hy
    · exact List.mem_append_right _ (List.mem_cons_of_mem _ hy)
  have hxq : x ∈ s.queue := by
    rw [hsplit]
    exact List.mem_append_right _ List.mem_cons_self
  refine h.update hother (fun _ _ _ _ => by rw [hobject]) ?_ ?_ ?_
    (by rw [hmade]; exact fun _ => id) ?_ ?_
  · rw [hself]
    intro f hf hexec
    rw [hobject] at hexec
    exact hx.2 ⟨f, hf, hexec⟩
  · intro j f hj hi hf
    rw [hself] at hi ⊢
    rcases hi with hi | hi
    · have hfree := free f hi
      refine ⟨fun hr => ?_, fun hcb => ?_, fun hcb => hfree ⟨j, hj, .inl hcb⟩⟩
      · rcases hf with hf | hf
        · exact hfree ⟨j, hj, .inr ⟨hr, hf⟩⟩
        · exact hfree ⟨j, hj, .inl hf⟩
      · exact (h.alone i j f (Ne.symm hj) (.inr hcb) hf).2 hcb
    · exact absurd hi (h.alone i j f (Ne.symm hj) (.inr hi) hf).2
  · intro j f hj hi
    rw [hself] at hi
    cases hi
  · intro f hf
    rw [hself] at hf
    rw [hmade]
    rcases hf with hf | hf
    · exact h.queue f (List.mem_filterMap.2 ⟨x, hxq, hf⟩)
    · exact h.made i f (.inr hf)
  · intro f hf
    obtain ⟨y, hy, hyf⟩ := List.mem_filterMap.1 hf
    rw [hmade]
    exact h.queue f (List.mem_filterMap.2 ⟨y, hmem y hy, hyf⟩)

theorem Invariant.choose (h : Invariant s) {i : Fin n} {ft : FiberAndThread F C}
    (at_pc : (s.workers i).pc = .took ft) : Invariant (s.goto i (s.choose ft)) := by
  have hpc := h.pcs i
  rw [PcOk, at_pc] at hpc
  rcases s.choose_cases ft with ⟨f, hft, hrun, hchoose⟩ | ⟨c, -, hchoose⟩ | hchoose
  · rw [hchoose]
    have hi : Has (s.workers i) f := .inl (by rw [at_pc]; exact hft)
    refine h.update (fun j hj => s.goto_of_ne i _ hj) (fun _ _ _ _ => rfl) ?_ ?_ ?_
      (fun _ => id) ?_ h.queue
    · rw [State.goto_self]
      exact ⟨hrun, hpc f hft, fun c hc => by cases hc⟩
    · intro j g hj hig hg
      rw [State.goto_self] at hig ⊢
      have hig : Has (s.workers i) g := by
        rcases hig with hig | hig
        · cases hig; exact hi
        · exact .inr hig
      exact ⟨(h.alone i j g (Ne.symm hj) hig hg).1, (h.alone i j g (Ne.symm hj) hig hg).2,
        (h.alone j i g hj hg hig).2⟩
    · intro j g hj hig hg
      rw [State.goto_self] at hig
      cases hig
      exact (h.alone i j f (Ne.symm hj) hi (.inl (inHand_of_entered hg))).1 hrun
    · intro g hg
      rw [State.goto_self] at hg
      rcases hg with hg | hg
      · cases hg; exact h.made i f hi
      · exact h.made i g (.inr hg)
  all_goals
    rw [hchoose]
    exact h.letGo (fun j hj => s.goto_of_ne i _ hj) (State.goto_self _ _ _) (fun _ _ _ _ => rfl)
      trivial rfl rfl rfl rfl

theorem Invariant.settle (h : Invariant s) {i : Fin n} {job : Job C} {f : F}
    (at_pc : (s.workers i).pc = .settle job f) : Invariant (s.goto i (s.settle job f)) := by
  have hpc := h.pcs i
  rw [PcOk, at_pc] at hpc
  have hother : ∀ pc j, j ≠ i → (s.goto i pc).workers j = s.workers j := fun pc _ =>
    s.goto_of_ne i pc
  rcases s.settle_cases job f with ⟨-, hset⟩ | ⟨-, ⟨-, hset⟩ | ⟨⟨c, rfl⟩, hset⟩⟩ | ⟨-, hrun, hset⟩
  · rw [hset]
    exact h.goOn at_pc (hother _) (State.goto_self _ _ _) (fun _ _ _ _ => rfl) hpc rfl rfl rfl rfl
  · rw [hset]
    exact h.letGo (hother _) (State.goto_self _ _ _) (fun _ _ _ _ => rfl) trivial rfl rfl rfl rfl
  · rw [hset]
    exact h.goOn at_pc (hother _) (State.goto_self _ _ _) (fun _ _ _ _ => rfl) (hpc c rfl)
      rfl rfl rfl rfl
  · rw [hset]
    exact h.goOn at_pc (hother _) (State.goto_self _ _ _) (fun _ _ _ _ => rfl) ⟨hrun, hpc⟩
      rfl rfl rfl rfl

/-- A callback starts in the worker's own fiber, which is no other worker's. -/
theorem Invariant.startCb (h : Invariant s) {i : Fin n} {c : C} {f : F}
    (hother : ∀ j, j ≠ i → t.workers j = s.workers j)
    (hself : t.workers i = { s.workers i with cbFiber := some f, pc := .enter (.cb c) f })
    (hfree : ∀ j, j ≠ i → ¬ Has (s.workers j) f)
    (hobject : t.object = Function.update s.object f .construct)
    (hmade : ∀ g, g ∈ s.made → g ∈ t.made) (hf : f ∈ t.made) (hq : t.queue = s.queue) :
    Invariant t := by
  have hhas : ∀ g, Has (t.workers i) g → g = f := by
    intro g hg
    rw [hself] at hg
    rcases hg with hg | hg <;> cases hg <;> rfl
  refine h.update hother ?_ ?_ ?_ ?_ hmade ?_ ?_
  · intro j g hj hg
    have hgf : g ≠ f := fun heq => hfree j hj (heq ▸ hg)
    rw [hobject, Function.update_of_ne hgf]
  · rw [hself]
    refine ⟨?_, ?_, fun _ _ => rfl⟩
    · rw [State.Runnable, hobject, Function.update_self]
      decide
    · rw [hobject, Function.update_self]
      decide
  · intro j g hj hi hg
    exact absurd (hhas g hi ▸ hg) (hfree j hj)
  · intro j g hj hi hg
    have hgf := hhas g (.inl (inHand_of_entered hi))
    exact hfree j hj (.inl (inHand_of_entered (hgf ▸ hg)))
  · intro g hg
    rw [hhas g hg]
    exact hf
  · intro g hg
    rw [queued, hq] at hg
    exact hmade g (h.queue g hg)

theorem queued_known (h : Invariant s) {task : Task F C} {thread : ℤ} (known : s.Known task)
    {f : F} (hf : f ∈ queued (s.scheduleNoLock (.ofTask task thread))) : f ∈ s.made := by
  rcases queued_scheduleNoLock hf with hf | hf
  · exact h.queue f hf
  · cases task with
    | fiber g => cases hf; exact known
    | cb c => cases hf

/-- A step changes no fiber that a worker has, other than the one that makes the step. -/
theorem Invariant.object_frame {l : Label n F C} (h : Invariant s) (hm : Move tid s l t)
    {j : Fin n} {f : F} (hj : l.actor ≠ some j) (hf : Has (s.workers j) f) :
    t.object f = s.object f := by
  have hne : ∀ i, some i ≠ some j → j ≠ i := fun i hi hji => hi (congrArg some hji.symm)
  have hfresh : ∀ {g}, g ∉ s.made → f ≠ g := fun hg heq => hg (heq ▸ h.made j f hf)
  cases hm with
  | schedule =>
    obtain ⟨q, r, hq⟩ := s.scheduleNoLock_frame (.ofTask _ _)
    rw [hq]
  | scheduleAll =>
    obtain ⟨q, r, hq⟩ := scheduleAll_frame s _
    rw [hq]
  | putBack =>
    obtain ⟨q, r, hq⟩ := s.scheduleNoLock_frame (.ofTask (.fiber (some _)) (-1))
    rw [hq]
    rfl
  | create fresh => exact Function.update_of_ne (hfresh fresh) _ _
  | allocate at_pc own fresh => exact Function.update_of_ne (hfresh fresh) _ _
  | reuse at_pc own => exact h.setFiber_other (.inr own) (.inr own) _ j f (hne _ hj) hf
  | @swapIn i job g o at_pc | @act i job g o act at_pc | @hold i job g at_pc =>
    have hpc := h.pcs i
    rw [PcOk, at_pc] at hpc
    exact h.setFiber_other (.inl (by rw [at_pc]; rfl)) (.inl hpc.1) _ j f (hne _ hj) hf
  | @recycle i g o at_pc =>
    have hpc := h.pcs i
    rw [PcOk, at_pc] at hpc
    exact h.setFiber_other (.inr hpc) (.inr hpc) _ j f (hne _ hj) hf
  | _ => rfl

theorem invariant_move {l : Label n F C} (h : Invariant s) (free : TakesFree tid s l)
    (hm : Move tid s l t) : Invariant t := by
  have hother : ∀ i, l.actor = some i → ∀ j, j ≠ i → t.workers j = s.workers j :=
    fun i => hm.others
  have hobject : ∀ i, l.actor = some i → ∀ j f, j ≠ i → Has (s.workers j) f →
      t.object f = s.object f := by
    intro i hi j f hj hf
    refine h.object_frame hm ?_ hf
    rw [hi]
    exact fun heq => hj (Option.some.inj heq).symm
  cases hm with
  | schedule known =>
    obtain ⟨q, r, hq⟩ := s.scheduleNoLock_frame (.ofTask _ _)
    refine h.same (by rw [hq]) (by intros; rw [hq]) (by rw [hq]; exact fun _ => id) ?_
    intro f hf
    have := queued_known h known hf
    rwa [hq]
  | scheduleAll known =>
    obtain ⟨q, r, hq⟩ := scheduleAll_frame s _
    refine h.same (by rw [hq]) (by intros; rw [hq]) (by rw [hq]; exact fun _ => id) ?_
    intro f hf
    have hmade : f ∈ s.made := by
      rcases queued_scheduleAll hf with hf | hf
      · exact h.queue f hf
      · exact known _ hf
    rwa [hq]
  | @create f fresh =>
    refine h.same rfl ?_ (fun _ => List.mem_cons_of_mem _)
      (fun f hf => List.mem_cons_of_mem _ (h.queue f hf))
    intro i g hg
    have hgf : g ≠ f := fun heq => fresh (heq ▸ h.made i g hg)
    simp [State.setFiber, hgf]
  | start | autoStop | stop => exact h.same rfl (fun _ _ _ => rfl) (fun _ => id) h.queue
  | null | reuseFails | swapInFails | actFails | recycleFails =>
    exact h.same rfl (fun _ _ _ => rfl) (fun _ => id) h.queue
  | @take i x rest at_pc found =>
    exact h.take found (free at_pc x rest found) (hother i rfl) (State.goto_self _ _ _) rfl rfl rfl
  | @rest i at_pc =>
    refine h.letGo (hother i rfl) (State.goto_self _ _ _) (hobject i rfl) ?_ ?_ ?_ rfl rfl
    · split <;> trivial
    · split <;> rfl
    · split <;> rfl
  | choose at_pc => exact h.choose at_pc
  | @reuse i c f o at_pc own ok =>
    refine h.startCb (c := c) (hother i rfl) ?_ ?_ ?_ (fun _ => id) (h.made i f (.inr own)) rfl
    · rw [State.goto_self, State.setFiber_workers, ← own]
    · intro j hj hf
      exact (h.alone i j f (Ne.symm hj) (.inr own) hf).2 own
    · rw [(Fiber.reset_ok ok).2]
      rfl
  | @allocate i c f at_pc own fresh =>
    refine h.startCb (hother i rfl) (State.setWorker_self _ _ _) ?_ rfl
      (fun _ => List.mem_cons_of_mem _) List.mem_cons_self rfl
    intro j hj hf
    exact fresh (h.made j f hf)
  | @swapIn i job f o at_pc ok =>
    have hpc := h.pcs i
    rw [PcOk, at_pc] at hpc
    refine h.goOn at_pc (hother i rfl) (State.goto_self _ _ _) (hobject i rfl) ⟨?_, hpc.2.2⟩
      rfl rfl rfl rfl
    rw [(Fiber.swapIn_ok ok).2.2]
    simp [State.Runnable, State.goto, State.setWorker, State.setFiber]
  | @act i job f o act at_pc ok =>
    have hpc := h.pcs i
    rw [PcOk, at_pc] at hpc
    exact h.goOn at_pc (hother i rfl) (State.goto_self _ _ _) (hobject i rfl) hpc.2
      rfl rfl rfl rfl
  | @swapOut i job f at_pc | @uncount i job f at_pc =>
    have hpc := h.pcs i
    rw [PcOk, at_pc] at hpc
    exact h.goOn at_pc (hother i rfl) (State.goto_self _ _ _) (hobject i rfl) hpc
      rfl rfl rfl rfl
  | settle at_pc => exact h.settle at_pc
  | @putBack i job f at_pc =>
    obtain ⟨q, r, hq⟩ := s.scheduleNoLock_frame (.ofTask (.fiber (some f)) (-1))
    have hmade : f ∈ s.made := h.made i f (.inl (by rw [at_pc]; rfl))
    refine h.release (hother i rfl) (State.setWorker_self _ _ _) (hobject i rfl)
      (by rw [hq]; rfl) ?_
    intro g hg
    exact queued_known h (show s.Known (.fiber (some f)) from hmade) hg
  | @hold i job f at_pc =>
    exact h.release (hother i rfl) (State.setWorker_self _ _ _) (hobject i rfl) rfl h.queue
  | @recycle i f o at_pc ok =>
    exact h.letGo (hother i rfl) (State.goto_self _ _ _) (hobject i rfl) trivial rfl rfl rfl rfl
  | @drop i at_pc =>
    exact h.letGo (hother i rfl) (State.goto_self _ _ _) (hobject i rfl) trivial rfl rfl rfl rfl
  | @idle i at_pc =>
    refine h.keep (hother i rfl) (hobject i rfl) (by rw [State.setWorker_self]; trivial)
      ?_ ?_ ?_ rfl h.queue
    · intro f hf
      rw [State.setWorker_self] at hf
      exact .inr (hf.resolve_left (fun heq => by cases heq))
    · intro f hf
      rw [State.setWorker_self] at hf
      exact hf
    · intro f hf
      rw [State.setWorker_self] at hf
      cases hf

theorem Invariant.not_both (h : Invariant s) {i j : Fin n} {f : F} (hij : i ≠ j)
    (hi : InSwapIn s i f) : ¬ InSwapIn s j f := by
  have hentered : ∀ k, InSwapIn s k f → entered (s.workers k).pc = some f := by
    rintro k ⟨job, hk | hk | hk⟩ <;> rw [hk] <;> rfl
  intro hj
  exact h.one i j f hij (hentered i hi) (hentered j hj)

/-- Of the failed assertions, `swapIn` on a fiber in `EXEC` would be one of a worker that has
just passed the check. -/
theorem aborted_move {l : Label n F C} (h : Invariant s) (hs : s.aborted = none)
    (hm : Move tid s l t) : t.aborted ≠ some .swapInExec := by
  have hkeep : s.aborted ≠ some .swapInExec := by simp [hs]
  have habort : ∀ {a : Assertion}, a ≠ .swapInExec →
      (s.abort a).aborted ≠ some .swapInExec := by
    intro a ha heq
    exact ha (Option.some.inj heq)
  cases hm with
  | schedule =>
    obtain ⟨q, r, hq⟩ := s.scheduleNoLock_frame (.ofTask _ _)
    rwa [hq]
  | scheduleAll =>
    obtain ⟨q, r, hq⟩ := scheduleAll_frame s _
    rwa [hq]
  | @putBack i job f at_pc =>
    obtain ⟨q, r, hq⟩ := s.scheduleNoLock_frame (.ofTask (.fiber (some f)) (-1))
    rw [hq]
    exact hkeep
  | null at_pc found => exact habort (by rw [(scan_error found).1]; decide)
  | reuseFails at_pc own fails => exact habort (by rw [Fiber.reset_error fails]; decide)
  | recycleFails at_pc fails => exact habort (by rw [Fiber.reset_error fails]; decide)
  | actFails at_pc fails => exact habort (by rw [(Act.apply_error fails).2]; decide)
  | @swapInFails i job f a at_pc fails =>
    have hpc := h.pcs i
    rw [PcOk, at_pc] at hpc
    apply habort
    rcases Fiber.swapIn_error fails with ⟨hexec, -⟩ | ⟨-, rfl⟩
    · exact absurd hexec hpc.2.1
    · decide
  | _ => exact hkeep

/-- Whatever is scheduled, and how often: if no worker takes a fiber that another one still
has, no fiber is on two threads at once. -/
theorem exclusive_of_takesFree {ls : List (Label n F C)} {os : List (List (Task F C))}
    (free : StepRuns.Guarded (TakesFree tid) (step tid) initial ls)
    (h : StepRuns.run (step tid) initial ls = some (os, s)) : Exclusive s := by
  have hall : Invariant s ∧ s.aborted ≠ some .swapInExec := by
    refine StepRuns.run_invariant
      (P := fun s => Invariant s ∧ s.aborted ≠ some .swapInExec) ?_ ?_ free h
    · intro s l o t hs hfree hstep
      obtain ⟨hnone, hm⟩ := move_of_step hstep
      exact ⟨invariant_move hs.1 hfree hm, aborted_move hs.1 hnone hm⟩
    · exact ⟨invariant_initial, by simp [initial]⟩
  exact ⟨fun i j f hij => hall.1.not_both hij, hall.2⟩

/-- One of two workers takes a fiber and the other finds the queue empty. -/
def oneEntry : List (Label 2 ℕ ℕ) :=
  [.create 7, .schedule (.fiber (some 7)) (-1), .worker 0, .worker 1, .worker 0, .worker 0]

theorem takesFree_oneEntry :
    StepRuns.Guarded (TakesFree fun i => 3 + i.val) (step fun i => 3 + i.val) initial oneEntry := by
  refine ⟨trivial, ?_⟩
  rintro o t ⟨⟩
  refine ⟨trivial, ?_⟩
  rintro o t ⟨⟩
  constructor
  · rintro - x rest - f - ⟨j, -, hj | ⟨-, hj⟩⟩ <;> cases hj
  rintro o t ⟨⟩
  constructor
  · rintro - x rest hscan
    cases hscan
  rintro o t ⟨⟩
  constructor
  · rintro ⟨⟩
  rintro o t ⟨⟩
  constructor
  · rintro ⟨⟩
  rintro o t ⟨⟩
  trivial

theorem exclusive_oneEntry :
    ∃ os s, StepRuns.run (step fun i => 3 + i.val) initial oneEntry = some (os, s) ∧
      (s.workers 0).pc = .inside .fiber 7 ∧ Exclusive s :=
  ⟨_, _, rfl, rfl, exclusive_of_takesFree takesFree_oneEntry rfl⟩

/-- Both workers take the fiber, which was scheduled twice while it was on hold, before one
of them has switched to it. -/
theorem not_exclusive_two_entries :
    ¬ ∀ (ls : List (Label 2 ℕ ℕ)) os s,
      StepRuns.run (step fun i => 3 + i.val) initial ls = some (os, s) → Exclusive s := by
  intro h
  refine (h [.create 7, .schedule (.fiber (some 7)) (-1), .worker 0, .worker 0, .worker 0,
    .body 0 .yieldToHold, .worker 0, .worker 0, .worker 0, .worker 0,
    .schedule (.fiber (some 7)) (-1), .schedule (.fiber (some 7)) (-1), .worker 0, .worker 1,
    .worker 0, .worker 1, .worker 0, .worker 1] _ _ rfl).2 rfl

end SchedulerExclusion
