import SylarNet.SylarScheduler
import SylarNet.TicketQueue

/-!
# Every callback is delivered once

The queue, the entries that were taken and the record of all calls of `schedule` form a
ledger. A worker has at most one callback in hand between the scan and the switch into it.
-/
namespace SchedulerDelivery

open SylarScheduler TicketQueue

variable {F C : Type} {n : ℕ}

/-- What the scan of a thread may take. -/
def Eligible (thread : ℤ) (executing : F → Prop) (ft : FiberAndThread F C) : Prop :=
  ft.ForThread thread ∧ ¬ ∃ f ∈ ft.fiber, executing f

section Scan

variable {thread : ℤ} {executing : F → Prop} [DecidablePred executing]
  {q rest : List (Ticket F C)} {x : Ticket F C}

theorem scan_skip {y : Ticket F C} (h : ¬ Eligible thread executing y.2)
    (hn : y.2.ForThread thread → y.2.NonNull) :
    scan thread executing (y :: q) =
      (scan thread executing q).map fun r => r.map fun p => (p.1, y :: p.2) := by
  by_cases hthread : y.2.ForThread thread
  · have hexec : ∃ f ∈ y.2.fiber, executing f := by
      by_contra hnone
      exact h ⟨hthread, hnone⟩
    simp only [scan, hthread, hn hthread, hexec, not_true_eq_false, if_false, if_true]
  · simp only [scan, hthread, not_false_eq_true, if_true]

theorem scan_first {y : Ticket F C} (h : Eligible thread executing y.2) (hn : y.2.NonNull) :
    scan thread executing (y :: q) = .ok (some (y, q)) := by
  simp only [scan, h.1, hn, h.2, not_true_eq_false, if_false]

/-- The scan takes the first eligible entry and leaves the others as they stand. -/
theorem scan_some (h : scan thread executing q = .ok (some (x, rest))) :
    ∃ pre post, q = pre ++ x :: post ∧ rest = pre ++ post ∧
      Eligible thread executing x.2 ∧ ∀ y ∈ pre, ¬ Eligible thread executing y.2 := by
  induction q generalizing rest with
  | nil => cases h
  | cons y ys ih =>
    by_cases hy : Eligible thread executing y.2
    · by_cases hnull : y.2.NonNull
      · rw [scan_first hy hnull] at h
        cases h
        exact ⟨[], ys, rfl, rfl, hy, by simp⟩
      · simp [scan, hy.1, hnull] at h
    · have hn : y.2.ForThread thread → y.2.NonNull := by
        intro hthread
        by_contra hnull
        simp [scan, hthread, hnull] at h
      rw [scan_skip hy hn] at h
      cases hrec : scan thread executing ys with
      | error a => simp [hrec, Except.map] at h
      | ok r =>
        cases r with
        | none => simp [hrec, Except.map] at h
        | some p =>
          obtain ⟨x', rest'⟩ := p
          simp only [hrec, Except.map, Option.map_some, Except.ok.injEq, Option.some.injEq,
            Prod.mk.injEq] at h
          obtain ⟨rfl, rfl⟩ := h
          obtain ⟨pre, post, rfl, rfl, hx, hpre⟩ := ih hrec
          refine ⟨y :: pre, post, rfl, rfl, hx, ?_⟩
          intro z hz
          rcases List.mem_cons.1 hz with rfl | hz
          · exact hy
          · exact hpre z hz

theorem scan_error {a : Assertion} (h : scan thread executing q = .error a) :
    a = .fiberOrCb ∧ ∃ y ∈ q, ¬ y.2.NonNull := by
  induction q with
  | nil => cases h
  | cons y ys ih =>
    by_cases hnull : y.2.NonNull
    · have hrec : scan thread executing ys = .error a := by
        by_cases hy : Eligible thread executing y.2
        · rw [scan_first hy hnull] at h
          cases h
        · rw [scan_skip hy fun _ => hnull] at h
          cases hrec : scan thread executing ys with
          | error b => simpa [hrec, Except.map] using h
          | ok r => simp [hrec, Except.map] at h
      obtain ⟨ha, z, hz, hzn⟩ := ih hrec
      exact ⟨ha, z, List.mem_cons_of_mem _ hz, hzn⟩
    · refine ⟨?_, y, List.mem_cons_self, hnull⟩
      by_cases hthread : y.2.ForThread thread
      · simp only [scan, hthread, hnull, not_true_eq_false, not_false_eq_true, if_false,
          if_true, Except.error.injEq] at h
        exact h.symm
      · rw [scan_skip (fun he => hthread he.1) fun ht => absurd ht hthread] at h
        cases hrec : scan thread executing ys with
        | error b =>
          rw [hrec] at h ih
          cases h
          exact (ih rfl).1
        | ok r => simp [hrec, Except.map] at h

end Scan

/-- The entries of a record that are callbacks. -/
def callbacks (fts : List (FiberAndThread F C)) : List C := fts.filterMap (·.cb)

/-- The callbacks that a call of `schedule` names, without the null ones. -/
def Label.callbacks : Label n F C → List C
  | .schedule (.cb c) _ => c.toList
  | .scheduleAll ts => ts.filterMap fun
    | .cb c => c
    | .fiber _ => none
  | _ => []

/-- The callback a worker has taken and not entered yet. -/
def hand : Pc F C → Option C
  | .took ft => ft.cb
  | .startCb c => some c
  | .enter (.cb c) _ => some c
  | _ => none

def takenBy (s : State n F C) (i : Fin n) : List C :=
  s.taken.filterMap fun p => if p.1 = i then p.2.2.cb else none

def begunBy (s : State n F C) (i : Fin n) : List C :=
  s.begun.filterMap fun p => if p.1 = i then some p.2 else none

/-- An entry that names both would lose its callback; the constructors build none. -/
def Single (ft : FiberAndThread F C) : Prop := ft.NonNull ∧ (ft.fiber = none ∨ ft.cb = none)

structure Delivery (tid : Fin n → ℤ) (s : State n F C) : Prop where
  ledger : Ledger s.scheduled s.queue (s.taken.map Prod.snd)
  single : ∀ ft ∈ s.scheduled, Single ft
  pinned : ∀ p ∈ s.taken, p.2.2.ForThread (tid p.1)
  fifo : ∀ pre p post, s.taken = pre ++ p :: post → ∀ k < p.2.1, ∀ ft,
    s.scheduled[k]? = some ft → ft.fiber = none → ft.ForThread (tid p.1) →
      (k, ft) ∈ pre.map Prod.snd

variable {tid : Fin n → ℤ} {s t : State n F C}

theorem delivery_initial : Delivery tid (initial : State n F C) :=
  ⟨.nil, by simp [initial], by simp [initial], by simp [initial]⟩

/-- Most steps touch neither the queue nor the records. -/
theorem Delivery.congr (h : Delivery tid s) (hq : t.queue = s.queue) (ht : t.taken = s.taken)
    (hs : t.scheduled = s.scheduled) : Delivery tid t := by
  refine ⟨?_, ?_, ?_, ?_⟩
  · rw [hq, ht, hs]; exact h.ledger
  · rw [hs]; exact h.single
  · rw [ht]; exact h.pinned
  · rw [ht, hs]; exact h.fifo

theorem Delivery.single_of_mem (h : Delivery tid s) {x : Ticket F C}
    (hx : x ∈ s.queue ++ s.taken.map Prod.snd) : Single x.2 :=
  h.single _ (List.mem_of_getElem? (h.ledger.recorded x hx))

theorem single_ofTask {task : Task F C} {thread : ℤ}
    (h : (FiberAndThread.ofTask task thread).NonNull) :
    Single (FiberAndThread.ofTask task thread) := by
  cases task with
  | fiber f => exact ⟨h, .inr rfl⟩
  | cb c => exact ⟨h, .inl rfl⟩

theorem ofPointer_eq_ofTask (task : Task F C) (thread : ℤ) :
    (FiberAndThread.ofPointer task thread).1 = FiberAndThread.ofTask task thread := by
  cases task <;> rfl

theorem Delivery.scheduleNoLock (h : Delivery tid s) (task : Task F C) (thread : ℤ) :
    Delivery tid (s.scheduleNoLock (.ofTask task thread)) := by
  unfold State.scheduleNoLock
  split
  · rename_i hnull
    refine ⟨h.ledger.push _, ?_, h.pinned, ?_⟩
    · intro ft hft
      rcases List.mem_append.1 hft with hft | hft
      · exact h.single ft hft
      · rw [List.mem_singleton.1 hft]
        exact single_ofTask hnull
    · intro pre p post hsplit k hk ft hft
      have hp : p.2 ∈ s.queue ++ s.taken.map Prod.snd := by
        refine List.mem_append_right _ (List.mem_map_of_mem ?_)
        change s.taken = _ at hsplit
        rw [hsplit]
        exact List.mem_append_right _ List.mem_cons_self
      have hlt : k < s.scheduled.length := lt_trans hk (h.ledger.lt_length hp)
      apply h.fifo pre p post hsplit k hk ft
      rwa [← List.getElem?_append_left hlt]
  · exact h

theorem Delivery.scheduleAll (h : Delivery tid s) (ts : List (Task F C)) :
    Delivery tid (scheduleAll s ts).2 := by
  unfold SylarScheduler.scheduleAll
  dsimp only
  induction ts generalizing s with
  | nil => exact h
  | cons t ts ih =>
    rw [List.foldl_cons, ofPointer_eq_ofTask]
    exact ih (h.scheduleNoLock t (-1))

theorem Delivery.take [DecidableEq F] (h : Delivery tid s) {i : Fin n} {x : Ticket F C}
    {rest : List (Ticket F C)}
    (hscan : scan (tid i) s.Executing s.queue = .ok (some (x, rest))) (hq : t.queue = rest)
    (ht : t.taken = s.taken ++ [(i, x)]) (hs : t.scheduled = s.scheduled) :
    Delivery tid t := by
  obtain ⟨pre, post, hsplit, rfl, hx, hpre⟩ := scan_some hscan
  have hledger := h.ledger
  rw [hsplit] at hledger
  refine ⟨?_, ?_, ?_, ?_⟩
  · rw [hq, ht, hs, List.map_append]
    exact hledger.take
  · rw [hs]; exact h.single
  · intro p hp
    rw [ht] at hp
    rcases List.mem_append.1 hp with hp | hp
    · exact h.pinned p hp
    · rw [List.mem_singleton.1 hp]
      exact hx.1
  · intro front p back hback k hk ft hft hfiber hthread
    rw [ht] at hback
    rw [hs] at hft
    rcases List.eq_nil_or_concat back with rfl | ⟨back, q, rfl⟩
    · -- `p` is the entry just taken: an earlier one that is free for the thread was not queued
      obtain ⟨rfl, hp⟩ := List.append_inj' hback rfl
      obtain rfl : (i, x) = p := by simpa using hp
      rcases hledger.queued_or_taken hft with hqueued | htaken
      · refine absurd ⟨hthread, ?_⟩ (hpre _ (hledger.mem_pre_of_lt hqueued hk))
        rintro ⟨f, hf, -⟩
        rw [hfiber] at hf
        cases hf
      · exact htaken
    · have hold : s.taken = front ++ p :: back := by
        rw [List.concat_eq_append, ← List.cons_append, ← List.append_assoc] at hback
        exact (List.append_inj' hback rfl).1
      exact h.fifo front p back hold k hk ft hft hfiber hthread

theorem delivery_move [DecidableEq F] {l : Label n F C} (h : Delivery tid s)
    (hm : Move tid s l t) : Delivery tid t := by
  cases hm with
  | schedule => exact h.scheduleNoLock _ _
  | scheduleAll => exact h.scheduleAll _
  | take at_pc found => exact h.take found rfl rfl rfl
  | putBack at_pc => exact (h.scheduleNoLock _ _).congr rfl rfl rfl
  | _ => exact h.congr rfl rfl rfl

/-- Every worker enters the callbacks it takes, in their order; one may still be in hand. -/
def Handed (s : State n F C) : Prop :=
  ∀ i, takenBy s i = begunBy s i ++ (hand (s.workers i).pc).toList

theorem handed_initial : Handed (initial : State n F C) := by
  intro i
  simp [initial, takenBy, begunBy, hand]

/-- Moving one worker between two places with the same callback in hand. -/
theorem Handed.congr (h : Handed s) {i : Fin n} (ht : t.taken = s.taken)
    (hb : t.begun = s.begun) (hother : ∀ j, j ≠ i → t.workers j = s.workers j)
    (hself : hand (t.workers i).pc = hand (s.workers i).pc) : Handed t := by
  intro j
  have hpc : hand (t.workers j).pc = hand (s.workers j).pc := by
    by_cases hj : j = i
    · rw [hj, hself]
    · rw [hother j hj]
  rw [takenBy, begunBy, ht, hb, hpc]
  exact h j

/-- Steps of the environment move no worker. -/
theorem Handed.same (h : Handed s) (ht : t.taken = s.taken) (hb : t.begun = s.begun)
    (hw : t.workers = s.workers) : Handed t := by
  intro j
  rw [takenBy, begunBy, ht, hb, hw]
  exact h j

theorem hand_choose [DecidableEq F] {ft : FiberAndThread F C} (h : Single ft) :
    hand (s.choose ft) = ft.cb := by
  rcases h with ⟨-, h | h⟩
  · unfold State.choose
    rw [h]
    cases ft.cb <;> rfl
  · unfold State.choose
    rw [h]
    cases ft.fiber with
    | none => rfl
    | some f => dsimp only; split <;> rfl

theorem hand_settle [DecidableEq F] (job : Job C) (f : F) : hand (s.settle job f) = none := by
  unfold State.settle
  split <;> rfl

theorem takenBy_append (l : List (Fin n × Ticket F C)) (i j : Fin n) (x : Ticket F C) :
    (l ++ [(i, x)]).filterMap (fun p => if p.1 = j then p.2.2.cb else none) =
      l.filterMap (fun p => if p.1 = j then p.2.2.cb else none) ++
        if i = j then x.2.cb.toList else [] := by
  rw [List.filterMap_append]
  congr 1
  by_cases hij : i = j
  · cases hcb : x.2.cb <;> simp [hij, hcb]
  · simp [hij]

/-- The worker that takes an entry had nothing in hand. -/
theorem Handed.take (h : Handed s) {i : Fin n} {x : Ticket F C}
    (hpc : (s.workers i).pc = .top) (ht : t.taken = s.taken ++ [(i, x)])
    (hb : t.begun = s.begun) (hother : ∀ j, j ≠ i → t.workers j = s.workers j)
    (hself : (t.workers i).pc = .took x.2) : Handed t := by
  intro j
  rw [takenBy, begunBy, ht, hb, takenBy_append]
  have hj := h j
  rw [takenBy, begunBy] at hj
  rw [hj]
  by_cases hij : i = j
  · subst hij
    simp [hpc, hself, hand]
  · rw [hother j (Ne.symm hij)]
    simp [hij]

/-- Entering a callback moves it from the hand to the record. -/
theorem Handed.enter (h : Handed s) {i : Fin n} {job : Job C} {f : F}
    (hpc : (s.workers i).pc = .enter job f) (ht : t.taken = s.taken)
    (hb : t.begun = s.begun ++ job.begins i) (hother : ∀ j, j ≠ i → t.workers j = s.workers j)
    (hself : (t.workers i).pc = .inside job f) : Handed t := by
  intro j
  rw [takenBy, begunBy, ht, hb, List.filterMap_append]
  have hj := h j
  rw [takenBy, begunBy] at hj
  rw [hj, List.append_assoc]
  congr 1
  by_cases hij : i = j
  · subst hij
    rw [hpc, hself]
    cases job <;> simp [Job.begins, hand]
  · rw [hother j (Ne.symm hij)]
    cases job <;> simp [Job.begins, hij]

/-- A worker that is about to look at its entry holds one that was scheduled. -/
theorem took_move [DecidableEq F] {l : Label n F C} (hd : Delivery tid s)
    (h : ∀ i ft, (s.workers i).pc = .took ft → Single ft) (hm : Move tid s l t) :
    ∀ i ft, (t.workers i).pc = .took ft → Single ft := by
  intro j ft hj
  by_cases hactor : l.actor = some j
  · cases hm with
    | create | schedule | scheduleAll | start | autoStop | stop => cases hactor
    | null | reuseFails | swapInFails | actFails | recycleFails => exact h j ft hj
    | take at_pc found =>
      cases hactor
      obtain ⟨pre, post, hsplit, -⟩ := scan_some found
      simp only [State.goto_self, Pc.took.injEq] at hj
      rw [← hj]
      refine hd.single_of_mem (List.mem_append_left _ ?_)
      rw [hsplit]
      exact List.mem_append_right _ List.mem_cons_self
    | rest =>
      cases hactor
      simp only [State.goto_self] at hj
      split at hj <;> cases hj
    | choose =>
      cases hactor
      simp only [State.goto_self, State.choose] at hj
      split at hj <;> (try split at hj) <;> cases hj
    | settle =>
      cases hactor
      simp only [State.goto_self, State.settle] at hj
      split at hj <;> cases hj
    | _ =>
      cases hactor
      simp at hj
  · rw [hm.frame hactor] at hj
    exact h j ft hj

theorem handed_move [DecidableEq F] {l : Label n F C} (h : Handed s)
    (htook : ∀ i ft, (s.workers i).pc = .took ft → Single ft) (hm : Move tid s l t) :
    Handed t := by
  have hother : ∀ i, l.actor = some i → ∀ j, j ≠ i → t.workers j = s.workers j :=
    fun i => hm.others
  cases hm with
  | schedule =>
    obtain ⟨q, r, hq⟩ := s.scheduleNoLock_frame (.ofTask _ _)
    rw [hq]
    exact h.same rfl rfl rfl
  | scheduleAll =>
    obtain ⟨q, r, hq⟩ := scheduleAll_frame s _
    rw [hq]
    exact h.same rfl rfl rfl
  | create | start | autoStop | stop => exact h.same rfl rfl rfl
  | null | reuseFails | swapInFails | actFails | recycleFails => exact h.same rfl rfl rfl
  | take at_pc found => exact h.take at_pc rfl rfl (hother _ rfl) (by simp)
  | swapIn at_pc ok => exact h.enter at_pc rfl rfl (hother _ rfl) (by simp)
  | rest at_pc =>
    refine h.congr rfl rfl (hother _ rfl) ?_
    rw [State.goto_self, at_pc]
    dsimp only
    split <;> rfl
  | choose at_pc =>
    refine h.congr rfl rfl (hother _ rfl) ?_
    rw [State.goto_self, at_pc]
    exact hand_choose (htook _ _ at_pc)
  | settle at_pc =>
    refine h.congr rfl rfl (hother _ rfl) ?_
    rw [State.goto_self, at_pc]
    exact hand_settle _ _
  | putBack at_pc =>
    obtain ⟨q, r, hq⟩ := s.scheduleNoLock_frame (.ofTask (.fiber (some _)) (-1))
    refine h.congr ?_ ?_ (hother _ rfl) (by simp [at_pc, hand])
    · rw [hq]; rfl
    · rw [hq]; rfl
  | reuse at_pc | allocate at_pc | act at_pc | swapOut at_pc | uncount at_pc | hold at_pc
  | recycle at_pc | drop at_pc | idle at_pc =>
    exact h.congr rfl rfl (hother _ rfl) (by simp [at_pc, hand])

theorem callbacks_scheduleNoLock (task : Task F C) (thread : ℤ) :
    callbacks (s.scheduleNoLock (.ofTask task thread)).scheduled =
      callbacks s.scheduled ++ (FiberAndThread.ofTask task thread).cb.toList := by
  unfold State.scheduleNoLock
  split
  · rw [callbacks, callbacks, List.filterMap_append]
    cases task with
    | fiber f => rfl
    | cb c => cases c <;> rfl
  · rename_i hnull
    cases task with
    | fiber f => simp [FiberAndThread.ofTask]
    | cb c =>
      cases c with
      | none => simp [FiberAndThread.ofTask]
      | some c => simp [FiberAndThread.NonNull, FiberAndThread.ofTask] at hnull

theorem callbacks_scheduleAll (ts : List (Task F C)) :
    callbacks (SylarScheduler.scheduleAll s ts).2.scheduled =
      callbacks s.scheduled ++ Label.callbacks (.scheduleAll ts : Label n F C) := by
  unfold SylarScheduler.scheduleAll Label.callbacks
  dsimp only
  induction ts generalizing s with
  | nil => simp
  | cons t ts ih =>
    rw [List.foldl_cons, ofPointer_eq_ofTask, ih, callbacks_scheduleNoLock, List.append_assoc]
    congr 1
    cases t with
    | fiber f => simp [FiberAndThread.ofTask]
    | cb c => cases c <;> simp [FiberAndThread.ofTask]

/-- The record of the queue has the callbacks of the calls, and no others. -/
theorem callbacks_move [DecidableEq F] {l : Label n F C} (hm : Move tid s l t) :
    callbacks t.scheduled = callbacks s.scheduled ++ Label.callbacks l := by
  cases hm with
  | @schedule task thread known =>
    rw [callbacks_scheduleNoLock]
    cases task with
    | fiber f => rfl
    | cb c => rfl
  | scheduleAll => exact callbacks_scheduleAll _
  | putBack => exact callbacks_scheduleNoLock _ _
  | _ => exact (List.append_nil _).symm

/-- The callbacks of the calls in `ls` and where they are in `s`: `queued` and `taken` as
multisets, the others with the position of each call of `schedule` in the record. -/
structure ExactlyOnce [DecidableEq F] (tid : Fin n → ℤ) (ls : List (Label n F C))
    (s : State n F C) : Prop where
  queued_or_taken : (ls.flatMap Label.callbacks).Perm
    (callbacks (s.queue.map Prod.snd) ++ callbacks (s.taken.map (·.2.2)))
  once : ((s.queue ++ s.taken.map Prod.snd).map Prod.fst).Nodup
  record : ∀ x ∈ s.queue ++ s.taken.map Prod.snd, s.scheduled[x.1]? = some x.2
  started : ∀ i, takenBy s i = begunBy s i ++ (hand (s.workers i).pc).toList
  pinned : ∀ i x, (i, x) ∈ s.taken → x.2.thread ≠ -1 → x.2.thread = tid i
  fifo : ∀ pre i x post, s.taken = pre ++ (i, x) :: post → ∀ k < x.1, ∀ c thread,
    s.scheduled[k]? = some ⟨none, some c, thread⟩ → thread = -1 ∨ thread = tid i →
      (k, ⟨none, some c, thread⟩) ∈ pre.map Prod.snd
  first : ∀ i x rest, scan (tid i) s.Executing s.queue = .ok (some (x, rest)) →
    ∀ y ∈ s.queue, Eligible (tid i) s.Executing y.2 → x.1 ≤ y.1

theorem Delivery.first [DecidableEq F] (h : Delivery tid s) {i : Fin n} {x y : Ticket F C}
    {rest : List (Ticket F C)}
    (hscan : scan (tid i) s.Executing s.queue = .ok (some (x, rest))) (hy : y ∈ s.queue)
    (hel : Eligible (tid i) s.Executing y.2) : x.1 ≤ y.1 := by
  obtain ⟨pre, post, hsplit, -, -, hpre⟩ := scan_some hscan
  have hledger := h.ledger
  rw [hsplit] at hledger hy
  by_contra hlt
  exact hpre y (hledger.mem_pre_of_lt hy (not_le.1 hlt)) hel

theorem Delivery.callbacks_perm (h : Delivery tid s) :
    (callbacks s.scheduled).Perm
      (callbacks (s.queue.map Prod.snd) ++ callbacks (s.taken.map (·.2.2))) := by
  have hperm := h.ledger.log_perm.filterMap (·.cb)
  rw [List.map_append, List.filterMap_append, List.map_map] at hperm
  exact hperm

theorem delivery_run [DecidableEq F] {ls : List (Label n F C)} {os : List (List (Task F C))}
    (h : StepRuns.run (step tid) initial ls = some (os, s)) : Delivery tid s ∧ Handed s := by
  have hall : Delivery tid s ∧ Handed s ∧ ∀ i ft, (s.workers i).pc = .took ft → Single ft := by
    refine reachable_invariant (P := fun s => Delivery tid s ∧ Handed s ∧
      ∀ i ft, (s.workers i).pc = .took ft → Single ft) ?_ ?_ ⟨ls, os, h⟩
    · exact ⟨delivery_initial, handed_initial, by simp [initial]⟩
    · intro s l t hs hm
      exact ⟨delivery_move hs.1 hm, handed_move hs.2.1 hs.2.2 hm, took_move hs.1 hs.2.2 hm⟩
  exact ⟨hall.1, hall.2.1⟩

/-- Whatever the workers and the callers of `schedule` do, no callback is lost or doubled. -/
theorem delivers_exactly_once [DecidableEq F] {ls : List (Label n F C)}
    {os : List (List (Task F C))} (h : StepRuns.run (step tid) initial ls = some (os, s)) :
    ExactlyOnce tid ls s := by
  obtain ⟨hd, hh⟩ := delivery_run h
  have hrecord : callbacks s.scheduled = ls.flatMap Label.callbacks := by
    have := StepRuns.run_record (fun s : State n F C => callbacks s.scheduled)
      (fun s l o t hstep => callbacks_move (move_of_step hstep).2) h
    simpa [initial, callbacks] using this
  refine ⟨?_, hd.ledger.nodup, hd.ledger.recorded, hh, ?_, ?_, ?_⟩
  · rw [← hrecord]
    exact hd.callbacks_perm
  · intro i x hx hthread
    exact (hd.pinned (i, x) hx).resolve_left hthread
  · intro pre i x post hsplit k hk c thread hft hthread
    exact hd.fifo pre (i, x) post hsplit k hk _ hft rfl hthread
  · intro i x rest hscan y hy hel
    exact hd.first hscan hy hel

/-- The threads `3` and `4`: a batch, whose null function is passed over, and a callback that
thread `3` leaves in the queue for thread `4`. -/
theorem delivers_exactly_once_two_workers :
    ∃ os s, StepRuns.run (step (n := 2) (F := ℕ) (C := ℕ) fun i => 3 + i.val) initial
        [.scheduleAll [.cb (some 7), .cb none], .schedule (.cb (some 8)) 4, .worker 1, .worker 1,
          .allocate 1 0, .worker 1, .worker 0] = some (os, s) ∧
      s.begun = [(1, 7)] ∧ (s.workers 0).pc = .idling ∧
      ExactlyOnce (fun i => 3 + i.val) [.scheduleAll [.cb (some 7), .cb none],
        .schedule (.cb (some 8)) 4, .worker 1, .worker 1, .allocate 1 0, .worker 1,
        .worker 0] s :=
  ⟨_, _, rfl, rfl, rfl, delivers_exactly_once rfl⟩

end SchedulerDelivery
