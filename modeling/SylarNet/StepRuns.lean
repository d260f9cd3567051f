import Mathlib.Data.Nat.Notation
import Mathlib.Logic.Basic

/-! Runs of a partial step function that emits an observation with every step, and the
two ways to reason about a whole run: a preserved predicate and a forward simulation. -/
namespace StepRuns

variable {σ τ ε ο : Type*}

/-- A run stops with `none` as soon as one step does. -/
def run (step : σ → ε → Option (ο × σ)) : σ → List ε → Option (List ο × σ)
  | s, [] => some ([], s)
  | s, e :: es =>
    match step s e with
    | none => none
    | some (o, t) => (run step t es).map fun r => (o :: r.1, r.2)

/-- Every event of the list satisfies its precondition in the state it meets. -/
def Guarded (ok : σ → ε → Prop) (step : σ → ε → Option (ο × σ)) : σ → List ε → Prop
  | _, [] => True
  | s, e :: es => ok s e ∧ ∀ o t, step s e = some (o, t) → Guarded ok step t es

variable {step : σ → ε → Option (ο × σ)} {ok : σ → ε → Prop}

theorem guarded_cons_of_none {s : σ} {e : ε} {es : List ε} (h : step s e = none) :
    ok s e ↔ Guarded ok step s (e :: es) := by
  refine ⟨fun hok => ⟨hok, ?_⟩, fun hg => hg.1⟩
  intro o t he
  cases h.symm.trans he

theorem guarded_cons_of_some {s t : σ} {e : ε} {es : List ε} {o : ο}
    (h : step s e = some (o, t)) :
    ok s e ∧ Guarded ok step t es ↔ Guarded ok step s (e :: es) := by
  refine ⟨fun hok => ⟨hok.1, ?_⟩, fun hg => ⟨hg.1, hg.2 o t h⟩⟩
  intro o' t' he
  cases h.symm.trans he
  exact hok.2

instance decidableGuarded [∀ s e, Decidable (ok s e)] :
    ∀ s es, Decidable (Guarded ok step s es)
  | _, [] => .isTrue trivial
  | s, e :: es =>
    match h : step s e with
    | none => decidable_of_iff (ok s e) (guarded_cons_of_none h)
    | some (_, t) =>
      have := decidableGuarded t es
      decidable_of_iff (ok s e ∧ Guarded ok step t es) (guarded_cons_of_some h)

theorem guarded_true (s : σ) (es : List ε) : Guarded (fun _ _ => True) step s es := by
  induction es generalizing s with
  | nil => trivial
  | cons e es ih => exact ⟨trivial, fun _ t _ => ih t⟩

theorem guarded_take {s : σ} {es : List ε} (h : Guarded ok step s es) (n : ℕ) :
    Guarded ok step s (es.take n) := by
  induction es generalizing s n with
  | nil => rw [List.take_nil]; trivial
  | cons e es ih =>
    cases n with
    | zero => trivial
    | succ n => exact ⟨h.1, fun o t he => ih (h.2 o t he) n⟩

theorem run_cons {s t : σ} {e : ε} {o : ο} (es : List ε) (h : step s e = some (o, t)) :
    run step s (e :: es) = (run step t es).map fun r => (o :: r.1, r.2) := by
  simp only [run, h]

theorem run_cons_some {s u : σ} {e : ε} {es : List ε} {os : List ο}
    (h : run step s (e :: es) = some (os, u)) :
    ∃ o t os', step s e = some (o, t) ∧ run step t es = some (os', u) ∧ os = o :: os' := by
  cases he : step s e with
  | none => simp [run, he] at h
  | some r =>
    obtain ⟨o, t⟩ := r
    rw [run_cons es he, Option.map_eq_some_iff] at h
    obtain ⟨⟨os', u'⟩, hr, heq⟩ := h
    cases heq
    exact ⟨o, t, os', rfl, hr, rfl⟩

theorem run_append {s t u : σ} {es es' : List ε} {os os' : List ο}
    (h : run step s es = some (os, t)) (h' : run step t es' = some (os', u)) :
    run step s (es ++ es') = some (os ++ os', u) := by
  induction es generalizing s os with
  | nil =>
    simp only [run, Option.some.injEq, Prod.mk.injEq] at h
    obtain ⟨rfl, rfl⟩ := h
    exact h'
  | cons e es ih =>
    obtain ⟨o, v, os'', he, hrest, rfl⟩ := run_cons_some h
    rw [List.cons_append, run_cons _ he, ih hrest]
    rfl

/-- A run that comes to its end is guarded by its steps being possible. -/
theorem guarded_of_run {s u : σ} {es : List ε} {os : List ο}
    (h : run step s es = some (os, u)) : Guarded (fun s e => (step s e).isSome) step s es := by
  induction es generalizing s os with
  | nil => trivial
  | cons e es ih =>
    obtain ⟨o, t, os', he, hr, -⟩ := run_cons_some h
    refine ⟨by simp [he], ?_⟩
    intro o' t' he'
    cases he.symm.trans he'
    exact ih hr

theorem guarded_and {ok' : σ → ε → Prop} {s : σ} {es : List ε} (h : Guarded ok step s es)
    (h' : Guarded ok' step s es) : Guarded (fun s e => ok s e ∧ ok' s e) step s es := by
  induction es generalizing s with
  | nil => trivial
  | cons e es ih => exact ⟨⟨h.1, h'.1⟩, fun o t he => ih (h.2 o t he) (h'.2 o t he)⟩

theorem guarded_of_forall {s : σ} {es : List ε} (h : ∀ e ∈ es, ∀ s, ok s e) :
    Guarded ok step s es := by
  induction es generalizing s with
  | nil => trivial
  | cons e es ih =>
    rw [List.forall_mem_cons] at h
    exact ⟨h.1 s, fun _ _ _ => ih h.2⟩

theorem guarded_append {s : σ} {es es' : List ε} (h : Guarded ok step s es)
    (h' : ∀ os t, run step s es = some (os, t) → Guarded ok step t es') :
    Guarded ok step s (es ++ es') := by
  induction es generalizing s with
  | nil => exact h' [] s rfl
  | cons e es ih =>
    refine ⟨h.1, fun o t he => ih (h.2 o t he) ?_⟩
    intro os u hr
    apply h' (o :: os) u
    rw [run_cons es he, hr]
    rfl

/-- A precondition on the events alone, in a run that comes to its end. -/
theorem guarded_iff_forall {p : ε → Prop} {s u : σ} {es : List ε} {os : List ο}
    (h : run step s es = some (os, u)) : Guarded (fun _ e => p e) step s es ↔ ∀ e ∈ es, p e := by
  induction es generalizing s os with
  | nil => simp [Guarded]
  | cons e es ih =>
    obtain ⟨o, t, os', he, hr, -⟩ := run_cons_some h
    rw [List.forall_mem_cons, ← ih hr]
    refine and_congr_right fun _ => ⟨fun hg => hg o t he, ?_⟩
    intro hg o' t' he'
    cases he.symm.trans he'
    exact hg

/-- What every guarded step preserves holds at the end of every guarded run. -/
theorem run_invariant {P : σ → Prop}
    (keep : ∀ s e o t, P s → ok s e → step s e = some (o, t) → P t)
    {s u : σ} {es : List ε} {os : List ο} (hs : P s) (hg : Guarded ok step s es)
    (hr : run step s es = some (os, u)) : P u := by
  induction es generalizing s os with
  | nil =>
    simp only [run, Option.some.injEq, Prod.mk.injEq] at hr
    exact hr.2 ▸ hs
  | cons e es ih =>
    obtain ⟨o, t, os', he, hr, -⟩ := run_cons_some hr
    exact ih (keep s e o t hs hg.1 he) (hg.2 o t he) hr

/-- What every step appends to a record, the run appends. -/
theorem run_record {α : Type*} (record : σ → List α) {entry : ε → List α}
    (keep : ∀ s e o t, step s e = some (o, t) → record t = record s ++ entry e)
    {s u : σ} {es : List ε} {os : List ο} (hr : run step s es = some (os, u)) :
    record u = record s ++ es.flatMap entry := by
  induction es generalizing s os with
  | nil =>
    simp only [run, Option.some.injEq, Prod.mk.injEq] at hr
    simp [hr.2]
  | cons e es ih =>
    obtain ⟨o, t, os', he, hr, -⟩ := run_cons_some hr
    rw [ih hr, keep s e o t he, List.flatMap_cons, List.append_assoc]

/-- If no guarded step is stuck, no guarded run is. -/
theorem run_total {P : σ → Prop}
    (next : ∀ s e, P s → ok s e → ∃ o t, step s e = some (o, t) ∧ P t)
    {s : σ} {es : List ε} (hs : P s) (hg : Guarded ok step s es) :
    ∃ os u, run step s es = some (os, u) ∧ P u := by
  induction es generalizing s with
  | nil => exact ⟨[], s, rfl, hs⟩
  | cons e es ih =>
    obtain ⟨o, t, he, ht⟩ := next s e hs hg.1
    obtain ⟨os, u, hr, hu⟩ := ih ht (hg.2 o t he)
    exact ⟨o :: os, u, by rw [run_cons es he, hr]; rfl, hu⟩

/-- If a step from a good state is clean exactly when it leads to a good state, wherever it
leads, then a run visits only good states exactly when all its steps are clean. -/
theorem forall_run_iff_guarded {I P : σ → Prop} {clean : σ → ε → Prop}
    (keep : ∀ s e o t, I s → ok s e → step s e = some (o, t) → I t)
    (exact_step : ∀ s e, I s → P s → ok s e →
      ((∀ o t, step s e = some (o, t) → P t) ↔ clean s e))
    {s : σ} {es : List ε} (hI : I s) (hP : P s) (hg : Guarded ok step s es) :
    (∀ n os u, run step s (es.take n) = some (os, u) → P u) ↔ Guarded clean step s es := by
  induction es generalizing s with
  | nil =>
    refine ⟨fun _ => trivial, ?_⟩
    intro _ n os u hr
    simp only [List.take_nil, run, Option.some.injEq, Prod.mk.injEq] at hr
    exact hr.2 ▸ hP
  | cons e es ih =>
    have hclean := exact_step s e hI hP hg.1
    constructor
    · intro hall
      have hnext : ∀ o t, step s e = some (o, t) → P t := by
        intro o t he
        exact hall 1 [o] t (by rw [List.take_succ_cons, run_cons _ he]; rfl)
      refine ⟨hclean.1 hnext, ?_⟩
      intro o t he
      apply (ih (keep s e o t hI hg.1 he) (hnext o t he) (hg.2 o t he)).1
      intro n os u hr
      apply hall (n + 1) (o :: os) u
      rw [List.take_succ_cons, run_cons _ he, hr]
      rfl
    · intro hc n os u hr
      cases n with
      | zero =>
        simp only [List.take_zero, run, Option.some.injEq, Prod.mk.injEq] at hr
        exact hr.2 ▸ hP
      | succ n =>
        rw [List.take_succ_cons] at hr
        obtain ⟨o, t, os', he, hrest, -⟩ := run_cons_some hr
        have hPt : P t := hclean.2 hc.1 o t he
        exact (ih (keep s e o t hI hg.1 he) hPt (hg.2 o t he)).2 (hc.2 o t he) n os' u hrest

/-- The same where every step leads somewhere. -/
theorem forall_prefix_iff_guarded {I P : σ → Prop} {clean : σ → ε → Prop}
    (next : ∀ s e, I s → ok s e → ∃ o t, step s e = some (o, t) ∧ I t)
    (exact_step : ∀ s e o t, I s → P s → ok s e → step s e = some (o, t) → (P t ↔ clean s e))
    {s : σ} {es : List ε} (hI : I s) (hP : P s) (hg : Guarded ok step s es) :
    (∀ n os u, run step s (es.take n) = some (os, u) → P u) ↔ Guarded clean step s es := by
  apply forall_run_iff_guarded (I := I) ?_ ?_ hI hP hg
  · intro s e o t hs hok he
    obtain ⟨o', t', he', ht⟩ := next s e hs hok
    cases he.symm.trans he'
    exact ht
  · intro s e hs hPs hok
    obtain ⟨o, t, he, -⟩ := next s e hs hok
    rw [← exact_step s e o t hs hPs hok he]
    constructor
    · intro hall
      exact hall o t he
    · intro hPt o' t' he'
      cases he.symm.trans he'
      exact hPt

/-- If a step from a good state is clean exactly when it is possible and leads to a good state,
then a run comes to its end over good states exactly when all its steps are clean. -/
theorem forall_run_total_iff_guarded {I P : σ → Prop} {clean : σ → ε → Prop}
    (keep : ∀ s e o t, I s → ok s e → step s e = some (o, t) → I t)
    (exact_step : ∀ s e, I s → P s → ok s e →
      ((∃ o t, step s e = some (o, t) ∧ P t) ↔ clean s e))
    {s : σ} {es : List ε} (hI : I s) (hP : P s) (hg : Guarded ok step s es) :
    (∀ n, ∃ os u, run step s (es.take n) = some (os, u) ∧ P u) ↔ Guarded clean step s es := by
  induction es generalizing s with
  | nil =>
    refine ⟨fun _ => trivial, ?_⟩
    intro _ n
    exact ⟨[], s, by rw [List.take_nil]; rfl, hP⟩
  | cons e es ih =>
    have hclean := exact_step s e hI hP hg.1
    constructor
    · intro hall
      obtain ⟨os, u, hr, hu⟩ := hall 1
      rw [List.take_succ_cons] at hr
      obtain ⟨o, t, os', he, hrest, -⟩ := run_cons_some hr
      simp only [List.take_zero, run, Option.some.injEq, Prod.mk.injEq] at hrest
      obtain ⟨-, rfl⟩ := hrest
      refine ⟨hclean.1 ⟨o, t, he, hu⟩, ?_⟩
      intro o' t' he'
      cases he.symm.trans he'
      apply (ih (keep s e o t hI hg.1 he) hu (hg.2 o t he)).1
      intro n
      obtain ⟨os, v, hr, hv⟩ := hall (n + 1)
      rw [List.take_succ_cons] at hr
      obtain ⟨o', t', os', he', hrest, -⟩ := run_cons_some hr
      cases he.symm.trans he'
      exact ⟨os', v, hrest, hv⟩
    · intro hc n
      obtain ⟨o, t, he, hPt⟩ := hclean.2 hc.1
      cases n with
      | zero => exact ⟨[], s, rfl, hP⟩
      | succ n =>
        have hIt := keep s e o t hI hg.1 he
        obtain ⟨os, u, hr, hu⟩ := (ih hIt hPt (hg.2 o t he)).2 (hc.2 o t he) n
        refine ⟨o :: os, u, ?_, hu⟩
        rw [List.take_succ_cons, run_cons _ he, hr]
        rfl

/-- If a step is clean exactly when both systems can take it, with one observation and into
related states, then their runs go on side by side exactly when all steps are clean. -/
theorem forall_run_related_iff_guarded {stepT : τ → ε → Option (ο × τ)} {R : σ → τ → Prop}
    {clean : σ → ε → Prop}
    (exact_step : ∀ s f e, R s f → ok s e →
      ((∃ o t g, step s e = some (o, t) ∧ stepT f e = some (o, g) ∧ R t g) ↔ clean s e))
    {s : σ} {f : τ} {es : List ε} (hR : R s f) (hg : Guarded ok step s es) :
    (∀ n, ∃ os u v, run step s (es.take n) = some (os, u) ∧
      run stepT f (es.take n) = some (os, v) ∧ R u v) ↔ Guarded clean step s es := by
  induction es generalizing s f with
  | nil =>
    refine ⟨fun _ => trivial, ?_⟩
    intro _ n
    exact ⟨[], s, f, by rw [List.take_nil]; rfl, by rw [List.take_nil]; rfl, hR⟩
  | cons e es ih =>
    have hclean := exact_step s f e hR hg.1
    constructor
    · intro hall
      obtain ⟨os, u, v, hr, hrT, hu⟩ := hall 1
      rw [List.take_succ_cons] at hr hrT
      obtain ⟨o, t, os', he, hrest, rfl⟩ := run_cons_some hr
      obtain ⟨o', g, os'', heT, hrestT, heq⟩ := run_cons_some hrT
      obtain ⟨rfl, -⟩ := List.cons.inj heq
      simp only [List.take_zero, run, Option.some.injEq, Prod.mk.injEq] at hrest hrestT
      obtain ⟨-, rfl⟩ := hrest
      obtain ⟨-, rfl⟩ := hrestT
      refine ⟨hclean.1 ⟨o, t, g, he, heT, hu⟩, ?_⟩
      intro o' t' he'
      cases he.symm.trans he'
      apply (ih hu (hg.2 o t he)).1
      intro n
      obtain ⟨os, u', v', hr, hrT, huv⟩ := hall (n + 1)
      rw [List.take_succ_cons, run_cons _ he, Option.map_eq_some_iff] at hr
      rw [List.take_succ_cons, run_cons _ heT, Option.map_eq_some_iff] at hrT
      obtain ⟨⟨os₁, u₁⟩, hr, heq₁⟩ := hr
      obtain ⟨⟨os₂, v₁⟩, hrT, heq₂⟩ := hrT
      cases heq₁
      cases heq₂
      exact ⟨os₁, u₁, v₁, hr, hrT, huv⟩
    · intro hc n
      obtain ⟨o, t, g, he, heT, hR'⟩ := hclean.2 hc.1
      cases n with
      | zero => exact ⟨[], s, f, rfl, rfl, hR⟩
      | succ n =>
        obtain ⟨os, u, v, hr, hrT, huv⟩ := (ih hR' (hg.2 o t he)).2 (hc.2 o t he) n
        refine ⟨o :: os, u, v, ?_, ?_, huv⟩
        · rw [List.take_succ_cons, run_cons _ he, hr]
          rfl
        · rw [List.take_succ_cons, run_cons _ heT, hrT]
          rfl

/-- A forward simulation of the guarded steps carries whole runs with equal observations. -/
theorem run_simulation {stepT : τ → ε → Option (ο × τ)} {okT : τ → ε → Prop} {R : σ → τ → Prop}
    (sim : ∀ s f e o f', R s f → okT f e → stepT f e = some (o, f') →
      ∃ s', step s e = some (o, s') ∧ R s' f')
    {s : σ} {f f' : τ} {es : List ε} {os : List ο} (hs : R s f) (hg : Guarded okT stepT f es)
    (hr : run stepT f es = some (os, f')) : ∃ s', run step s es = some (os, s') ∧ R s' f' := by
  induction es generalizing s f os with
  | nil =>
    simp only [run, Option.some.injEq, Prod.mk.injEq] at hr
    exact ⟨s, by rw [run, hr.1], hr.2 ▸ hs⟩
  | cons e es ih =>
    obtain ⟨o, g, os', he, hrest, rfl⟩ := run_cons_some hr
    obtain ⟨t, ht, hR⟩ := sim s f e o g hs hg.1 he
    obtain ⟨s', hs', hR'⟩ := ih hR (hg.2 o g he) hrest
    exact ⟨s', by rw [run_cons es ht, hs']; rfl, hR'⟩

end StepRuns
