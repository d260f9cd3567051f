import Mathlib.Algebra.Order.Group.Nat
import Mathlib.Data.List.Range
import Mathlib.Logic.Function.Basic
import SylarNet.StepRuns

/-!
# The tables of descriptors

`IOManager` and `FdManager` look into their tables under a read lock and grow them later, under
a write lock, by what they saw. Each lock is one step here; between the two steps of a call the
other threads may do theirs.
-/
namespace DescriptorTables

open StepRuns

/-- `(int)` of the size of a table. -/
@[irreducible] def castInt (size : ℕ) : ℤ := (size : ℤ).bmod (2 ^ 32)

/-- `std::vector::resize` with what is put in place of null entries. -/
def resize {α : Type} (xs : List α) (size : ℕ) (fill : ℕ → α) : List α :=
  xs.take size ++ (List.range' xs.length (size - xs.length)).map fill

theorem lt_of_lt_castInt {fd size : ℕ} (h : (fd : ℤ) < castInt size) : fd < size := by
  unfold castInt at h
  rw [Int.bmod_def, show ((2 ^ 32 : ℕ) : ℤ) = 4294967296 from rfl] at h
  split at h <;> omega

theorem getElem?_resize {α : Type} (xs : List α) (size : ℕ) (fill : ℕ → α) (i : ℕ) :
    (resize xs size fill)[i]? =
      if size ≤ i then none else if i < xs.length then xs[i]? else some (fill i) := by
  unfold resize
  split
  · next h =>
    rw [List.getElem?_eq_none]
    simp only [List.length_append, List.length_take, List.length_map, List.length_range']
    omega
  · split
    · next h =>
      rw [List.getElem?_append_left (by rw [List.length_take]; omega),
        List.getElem?_take_of_lt (by omega)]
    · next h =>
      rw [List.getElem?_append_right (by rw [List.length_take]; omega), List.getElem?_map,
        List.getElem?_range' (by rw [List.length_take]; omega)]
      simp only [List.length_take, Option.map_some]
      congr 2
      omega

theorem length_resize {α : Type} (xs : List α) (size : ℕ) (fill : ℕ → α) :
    (resize xs size fill).length = size := by
  simp only [resize, List.length_append, List.length_take, List.length_map, List.length_range']
  omega

namespace IOManager

/-- A context is known by its descriptor and the resize that made it. -/
structure FdContext where
  fd : ℕ
  round : ℕ
  deriving DecidableEq, Repr

/-- What happened to the table, and the accesses to it: the context first made for the descriptor
and the one that the call got. -/
inductive Entry where
  | resized (before after : ℕ)
  | used (fd : ℕ) (first got : Option FdContext)
  deriving DecidableEq, Repr

structure State (T : Type) where
  fdContexts : List FdContext
  rounds : ℕ
  /-- The descriptor for which a thread is about to take the write lock. -/
  waiting : T → Option ℕ
  first : ℕ → Option FdContext
  log : List Entry

inductive Op (T : Type) where
  /-- `addEvent` up to the end of its read lock. -/
  | addEvent (thread : T) (fd : ℕ)
  /-- The write lock of `addEvent`. -/
  | grow (thread : T)
  /-- The read lock of `delEvent`, `cancelEvent` and `cancelAll`. -/
  | find (thread : T) (fd : ℕ)

section Table

variable {T : Type}

namespace State

def contextResize (s : State T) (size : ℕ) : State T :=
  let fdContexts := resize s.fdContexts size fun fd => ⟨fd, s.rounds⟩
  { s with
    fdContexts := fdContexts
    rounds := s.rounds + 1
    first := fun fd => (s.first fd).or fdContexts[fd]?
    log := s.log ++ [.resized s.fdContexts.length size] }

/-- `m_fdContexts[fd]`, which must be there. -/
def access (s : State T) (fd : ℕ) : Option (State T) :=
  s.fdContexts[fd]?.map fun c => { s with log := s.log ++ [.used fd (s.first fd) (some c)] }

/-- The call returns false. -/
def reject (s : State T) (fd : ℕ) : State T :=
  { s with log := s.log ++ [.used fd (s.first fd) none] }

def setWaiting [DecidableEq T] (s : State T) (thread : T) (w : Option ℕ) : State T :=
  { s with waiting := Function.update s.waiting thread w }

/-- The table after the constructor. -/
def initial : State T := contextResize ⟨[], 0, fun _ => none, fun _ => none, []⟩ 32

def next [DecidableEq T] (s : State T) : Op T → Option (State T)
  | .addEvent thread fd =>
    if castInt s.fdContexts.length > fd then s.access fd
    else some (s.setWaiting thread (some fd))
  | .grow thread =>
    match s.waiting thread with
    | none => none
    | some fd => ((s.setWaiting thread none).contextResize (fd * 3 / 2)).access fd
  | .find _ fd =>
    if castInt s.fdContexts.length ≤ fd then some (s.reject fd) else s.access fd

def step [DecidableEq T] (s : State T) (e : Op T) : Option (Unit × State T) :=
  (s.next e).map fun t => ((), t)

end State

/-- A thread makes one call at a time. -/
def Allowed (s : State T) : Op T → Prop
  | .addEvent thread _ => s.waiting thread = none
  | .grow thread => s.waiting thread ≠ none
  | .find thread _ => s.waiting thread = none

structure Stable (s : State T) : Prop where
  /-- The table has the contexts that were first made. -/
  kept : ∀ fd, s.first fd = s.fdContexts[fd]?
  grew : ∀ before after, .resized before after ∈ s.log → before ≤ after
  used : ∀ fd context got, .used fd (some context) got ∈ s.log → got = some context

/-- A thread that grows the table does not find it larger already, and no size is negative as an
`int` for a call that looks for a context of the table. -/
def Unhurried (s : State T) : Op T → Prop
  | .addEvent _ _ => True
  | .grow thread => ∀ fd, s.waiting thread = some fd → s.fdContexts.length ≤ fd * 3 / 2
  | .find _ fd => fd < s.fdContexts.length → (fd : ℤ) < castInt s.fdContexts.length

variable {s t : State T}

theorem State.access_eq {fd : ℕ} (hfd : fd < s.fdContexts.length) :
    s.access fd = some { s with
      log := s.log ++ [.used fd (s.first fd) (some s.fdContexts[fd])] } := by
  rw [access, List.getElem?_eq_getElem hfd]
  rfl

/-- A call that got what was first made for its descriptor, if anything was. -/
theorem Stable.use {fd : ℕ} {got : Option FdContext} (h : Stable s)
    (hgot : ∀ context, s.first fd = some context → got = some context) :
    Stable { s with log := s.log ++ [.used fd (s.first fd) got] } := by
  refine ⟨h.kept, ?_, ?_⟩
  · intro before after hmem
    exact h.grew before after (by simpa using hmem)
  · intro fd' context got' hmem
    simp only [List.mem_append, List.mem_singleton, Entry.used.injEq] at hmem
    rcases hmem with hmem | ⟨rfl, hfirst, rfl⟩
    · exact h.used fd' context got' hmem
    · exact hgot context hfirst.symm

theorem Stable.access {fd : ℕ} (h : Stable s) (hfd : fd < s.fdContexts.length) :
    ∃ t, s.access fd = some t ∧ Stable t := by
  refine ⟨_, State.access_eq hfd, h.use ?_⟩
  intro context hfirst
  rw [← hfirst, h.kept, List.getElem?_eq_getElem hfd]

/-- A resize keeps the table stable exactly when it does not shrink it. -/
theorem Stable.contextResize_iff (h : Stable s) (size : ℕ) :
    Stable (s.contextResize size) ↔ s.fdContexts.length ≤ size := by
  constructor
  · intro ht
    exact ht.grew _ size (by simp [State.contextResize])
  · intro hle
    refine ⟨?_, ?_, ?_⟩
    · intro fd
      simp only [State.contextResize, getElem?_resize, h.kept]
      split
      · next hout => rw [List.getElem?_eq_none (le_trans hle hout)]; rfl
      · split
        · next hin => rw [List.getElem?_eq_getElem hin]; rfl
        · next hnew => rw [List.getElem?_eq_none (Nat.le_of_not_lt hnew)]; rfl
    · intro before after hmem
      simp only [State.contextResize, List.mem_append, List.mem_singleton, Entry.resized.injEq]
        at hmem
      rcases hmem with hmem | ⟨rfl, rfl⟩
      · exact h.grew before after hmem
      · exact hle
    · intro fd context got hmem
      exact h.used fd context got (by simpa [State.contextResize] using hmem)

/-- The descriptors below 32 have a context from the start. -/
def Started (s : State T) : Prop := ∀ fd < 32, (s.first fd).isSome

theorem Started.le_length (h : Started s) (hs : Stable s) : 32 ≤ s.fdContexts.length := by
  have hlast := h 31 (by omega)
  rw [hs.kept, Option.isSome_iff_ne_none, ne_eq, List.getElem?_eq_none_iff] at hlast
  omega

theorem started_initial : Started (State.initial : State T) := by
  intro fd hfd
  simp [State.initial, State.contextResize, getElem?_resize, hfd]

theorem stable_initial : Stable (State.initial : State T) := by
  have hempty : Stable (⟨[], 0, fun _ => none, fun _ => none, []⟩ : State T) :=
    ⟨fun _ => rfl, nofun, nofun⟩
  exact (hempty.contextResize_iff 32).2 (Nat.zero_le _)

theorem State.first_access {fd : ℕ} (h : s.access fd = some t) : t.first = s.first := by
  rw [State.access, Option.map_eq_some_iff] at h
  obtain ⟨c, -, rfl⟩ := h
  rfl

variable [DecidableEq T]

theorem State.step_iff {e : Op T} {o : Unit} : s.step e = some (o, t) ↔ s.next e = some t := by
  simp [State.step]

theorem Started.step {e : Op T} {o : Unit} (h : Started s) (he : s.step e = some (o, t)) :
    Started t := by
  rw [State.step_iff] at he
  cases e with
  | addEvent thread fd =>
    rw [State.next] at he
    split at he
    · intro fd hfd
      rw [State.first_access he]
      exact h fd hfd
    · cases he
      exact h
  | grow thread =>
    rw [State.next] at he
    split at he
    · cases he
    · intro fd hfd
      rw [State.first_access he]
      exact Option.isSome_or.trans (by simp [State.setWaiting, h fd hfd])
  | find thread fd =>
    rw [State.next] at he
    split at he
    · cases he
      exact h
    · intro fd hfd
      rw [State.first_access he]
      exact h fd hfd

theorem Stable.setWaiting (h : Stable s) (thread : T) (w : Option ℕ) :
    Stable (s.setWaiting thread w) := ⟨h.kept, h.grew, h.used⟩

theorem Stable.step_iff (e : Op T) (hs : Started s) (h : Stable s) (hok : Allowed s e) :
    (∃ o t, s.step e = some (o, t) ∧ Stable t) ↔ Unhurried s e := by
  simp only [State.step_iff, exists_const]
  cases e with
  | addEvent thread fd =>
    refine ⟨fun _ => trivial, fun _ => ?_⟩
    rw [State.next]
    split
    · next hlt => exact h.access (lt_of_lt_castInt hlt)
    · exact ⟨_, rfl, h.setWaiting thread _⟩
  | grow thread =>
    obtain ⟨fd, hfd⟩ := Option.ne_none_iff_exists'.1 hok
    have hresize := (h.setWaiting thread none).contextResize_iff (fd * 3 / 2)
    have hlen := hs.le_length h
    simp only [State.next, hfd, Unhurried, Option.some.injEq, forall_eq']
    constructor
    · rintro ⟨t, ht, hstable⟩
      rw [State.access, Option.map_eq_some_iff] at ht
      obtain ⟨c, -, rfl⟩ := ht
      exact hstable.grew _ _ (by simp [State.contextResize, State.setWaiting])
    · intro hle
      apply (hresize.2 hle).access
      -- The table has 32 entries at least, so `fd` is large enough for its half to count.
      rw [State.contextResize, length_resize]
      omega
  | find thread fd =>
    rw [State.next, Unhurried]
    by_cases hlt : (fd : ℤ) < castInt s.fdContexts.length
    · rw [if_neg (Int.not_le.2 hlt)]
      exact ⟨fun _ _ => hlt, fun _ => h.access (lt_of_lt_castInt hlt)⟩
    · rw [if_pos (Int.not_lt.1 hlt)]
      simp only [Option.some.injEq, exists_eq_left']
      constructor
      · intro ht hin
        have hfirst : s.first fd = some s.fdContexts[fd] := by
          rw [h.kept, List.getElem?_eq_getElem hin]
        cases ht.used fd s.fdContexts[fd] none (by simp [State.reject, hfirst])
      · intro hout
        apply h.use
        intro context hfirst
        rw [h.kept, List.getElem?_eq_none (Nat.le_of_not_lt fun hin => hlt (hout hin))] at hfirst
        cases hfirst

/-- However the steps of the threads interleave: the table never shrinks, no access is outside of
it and no descriptor changes its context exactly when no thread that is about to grow the table
is overtaken by one that makes it larger. -/
theorem fd_contexts_stable_iff (ops : List (Op T))
    (hops : Guarded Allowed State.step (State.initial : State T) ops) :
    (∀ n, ∃ os u, run State.step State.initial (ops.take n) = some (os, u) ∧ Stable u) ↔
      Guarded Unhurried State.step (State.initial : State T) ops := by
  apply forall_run_total_iff_guarded (I := Started) ?_ ?_ started_initial stable_initial hops
  · intro s e o t hs _ he
    exact hs.step he
  · intro s e hs h hok
    exact h.step_iff e hs hok

instance (s : State T) : ∀ e, Decidable (Allowed s e)
  | .addEvent thread _ => inferInstanceAs (Decidable (s.waiting thread = none))
  | .grow thread => inferInstanceAs (Decidable (s.waiting thread ≠ none))
  | .find thread _ => inferInstanceAs (Decidable (s.waiting thread = none))

instance (s : State T) : ∀ e, Decidable (Unhurried s e)
  | .addEvent _ _ => .isTrue trivial
  | .grow thread =>
    match h : s.waiting thread with
    | none => .isTrue (by simp [Unhurried, h])
    | some fd => decidable_of_iff (s.fdContexts.length ≤ fd * 3 / 2) (by simp [Unhurried, h])
  | .find _ _ => inferInstanceAs (Decidable (_ → _))

/-- Two threads meet new descriptors one after the other. -/
theorem fd_contexts_stable_in_turn :
    ∃ os u, run State.step (State.initial : State Bool)
      [.addEvent false 40, .grow false, .addEvent true 100, .grow true, .find false 40] =
        some (os, u) ∧ Stable u :=
  (fd_contexts_stable_iff
    [.addEvent false 40, .grow false, .addEvent true 100, .grow true, .find false 40]
    (by decide +kernel)).2 (by decide +kernel) 5

/-- Both look first; then the second one grows the table, and the first one cuts it off. The
context of descriptor 100 is gone. -/
theorem fd_contexts_cut_off :
    Guarded Allowed State.step (State.initial : State Bool)
      [.addEvent false 40, .addEvent true 100, .grow true, .grow false, .find true 100] ∧
    ∃ os u, run State.step (State.initial : State Bool)
        [.addEvent false 40, .addEvent true 100, .grow true, .grow false, .find true 100] =
          some (os, u) ∧
      .resized 150 60 ∈ u.log ∧ .used 100 (some ⟨100, 1⟩) none ∈ u.log ∧ ¬ Stable u := by
  have hrun : (run State.step (State.initial : State Bool)
      [.addEvent false 40, .addEvent true 100, .grow true, .grow false, .find true 100]).map
        (fun r => r.2.log) =
      some [.resized 0 32, .resized 32 150, .used 100 (some ⟨100, 1⟩) (some ⟨100, 1⟩),
        .resized 150 60, .used 40 (some ⟨40, 1⟩) (some ⟨40, 1⟩),
        .used 100 (some ⟨100, 1⟩) none] := by decide +kernel
  obtain ⟨⟨os, u⟩, hu, hlog⟩ := Option.map_eq_some_iff.1 hrun
  change u.log = _ at hlog
  refine ⟨by decide +kernel, os, u, hu, by simp [hlog], by simp [hlog], ?_⟩
  intro h
  have := h.grew 150 60 (by simp [hlog])
  omega

end Table

end IOManager

namespace FdManager

/-- The objects are numbered in the order of their creation. -/
def lookup (data : List (Option ℕ)) (fd : ℕ) : Option ℕ := data[fd]?.join

/-- A finished `get` with the object that was first returned for its descriptor since the last
`del` of it, and a change of the table on behalf of a descriptor. -/
inductive Entry where
  | returned (fd : ℕ) (first got : Option ℕ)
  | changed (fd : ℕ) (before after : List (Option ℕ))
  deriving DecidableEq, Repr

structure State (T : Type) where
  data : List (Option ℕ)
  made : ℕ
  /-- The descriptor for which a thread is about to take the write lock. -/
  waiting : T → Option ℕ
  first : ℕ → Option ℕ
  log : List Entry

inductive Op (T : Type) where
  /-- `get` up to the end of its read lock. -/
  | get (thread : T) (fd : ℕ) (autoCreate : Bool)
  /-- The write lock of `get`. -/
  | create (thread : T)
  | del (thread : T) (fd : ℕ)

section Table

variable {T : Type}

namespace State

def initial : State T := ⟨List.replicate 64 none, 0, fun _ => none, fun _ => none, []⟩

/-- `get` returns. -/
def answer (s : State T) (fd : ℕ) (got : Option ℕ) : State T :=
  { s with
    first := Function.update s.first fd ((s.first fd).or got)
    log := s.log ++ [.returned fd (s.first fd) got] }

def change (s : State T) (fd : ℕ) (data : List (Option ℕ)) : State T :=
  { s with data := data, log := s.log ++ [.changed fd s.data data] }

def setWaiting [DecidableEq T] (s : State T) (thread : T) (w : Option ℕ) : State T :=
  { s with waiting := Function.update s.waiting thread w }

/-- The table with room for `fd`, as `get` makes it. -/
def room (s : State T) (fd : ℕ) : List (Option ℕ) :=
  if castInt s.data.length ≤ fd then resize s.data (fd * 3 / 2) fun _ => none else s.data

/-- A new object is in the table and returned. -/
def create (s : State T) (fd : ℕ) : State T :=
  ({ s with made := s.made + 1 }.change fd ((s.room fd).set fd (some s.made))).answer fd
    (some s.made)

def next [DecidableEq T] (s : State T) : Op T → Option (State T)
  | .get thread fd autoCreate =>
    if castInt s.data.length ≤ fd then
      if !autoCreate then some (s.answer fd none)
      else some (s.setWaiting thread (some fd))
    else
      match s.data[fd]? with
      | none => none
      | some ctx =>
        if ctx.isSome || !autoCreate then some (s.answer fd ctx)
        else some (s.setWaiting thread (some fd))
  | .create thread =>
    match s.waiting thread with
    | none => none
    | some fd =>
      let s := s.setWaiting thread none
      if fd < (s.room fd).length then some (s.create fd) else none
  | .del _ fd =>
    let s := { s with first := Function.update s.first fd none }
    if castInt s.data.length ≤ fd then some s
    else some (s.change fd (s.data.set fd none))

def step [DecidableEq T] (s : State T) (e : Op T) : Option (Unit × State T) :=
  (s.next e).map fun t => ((), t)

end State

/-- A thread makes one call at a time. -/
def Allowed (s : State T) : Op T → Prop
  | .get thread _ _ => s.waiting thread = none
  | .create thread => s.waiting thread ≠ none
  | .del thread _ => s.waiting thread = none

structure Shared (s : State T) : Prop where
  /-- What was returned since the last `del` is in the table. -/
  held : ∀ fd ctx, s.first fd = some ctx → lookup s.data fd = some ctx
  same : ∀ fd ctx got, .returned fd (some ctx) (some got) ∈ s.log → got = ctx
  others : ∀ fd before after, .changed fd before after ∈ s.log →
    ∀ other ctx, other ≠ fd → lookup before other = some ctx → lookup after other = some ctx

/-- A thread that creates an object is not overtaken by one that creates it for the same
descriptor; and where it resizes the table, no object is behind the new end. -/
def Alone (s : State T) : Op T → Prop
  | .get _ _ _ => True
  | .create thread => ∀ fd, s.waiting thread = some fd → s.first fd = none ∧
    (castInt s.data.length ≤ fd → fd < fd * 3 / 2 ∧
      ∀ other, fd * 3 / 2 ≤ other → lookup s.data other = none)
  | .del _ _ => True

variable {s t : State T}

theorem lookup_set {data : List (Option ℕ)} {fd other : ℕ} {ctx : Option ℕ} (h : other ≠ fd) :
    lookup (data.set fd ctx) other = lookup data other := by
  rw [lookup, List.getElem?_set_ne h.symm, lookup]

theorem lookup_set_self {data : List (Option ℕ)} {fd : ℕ} {ctx : Option ℕ}
    (h : fd < data.length) : lookup (data.set fd ctx) fd = ctx := by
  rw [lookup, List.getElem?_set_self h]
  rfl

theorem lookup_resize (data : List (Option ℕ)) (size other : ℕ) :
    lookup (resize data size fun _ => none) other =
      if size ≤ other then none else lookup data other := by
  rw [lookup, getElem?_resize, lookup]
  split
  · rfl
  · split
    · rfl
    · next h => rw [List.getElem?_eq_none (Nat.le_of_not_lt h)]; rfl

/-- The objects of the table and those that were returned are made. -/
structure Made (s : State T) : Prop where
  data : ∀ fd ctx, lookup s.data fd = some ctx → ctx < s.made
  first : ∀ fd ctx, s.first fd = some ctx → ctx < s.made

theorem made_initial : Made (State.initial : State T) := by
  refine ⟨?_, nofun⟩
  intro fd ctx h
  simp only [State.initial, lookup, List.getElem?_replicate] at h
  split at h <;> cases h

theorem shared_initial : Shared (State.initial : State T) := ⟨nofun, nofun, nofun⟩

theorem update_first {first : ℕ → Option ℕ} {fd other c : ℕ} {got : Option ℕ}
    (h : Function.update first fd ((first fd).or got) other = some c) :
    first other = some c ∨ other = fd ∧ first fd = none ∧ got = some c := by
  by_cases ho : other = fd
  · subst ho
    rw [Function.update_self] at h
    cases hf : first other with
    | none =>
      rw [hf, Option.none_or] at h
      exact .inr ⟨rfl, rfl, h⟩
    | some d =>
      rw [hf, Option.some_or] at h
      exact .inl h
  · rw [Function.update_of_ne ho] at h
    exact .inl h

theorem update_none {first : ℕ → Option ℕ} {fd other c : ℕ}
    (h : Function.update first fd none other = some c) : other ≠ fd ∧ first other = some c := by
  by_cases ho : other = fd
  · subst ho
    rw [Function.update_self] at h
    cases h
  · rw [Function.update_of_ne ho] at h
    exact ⟨ho, h⟩

theorem Made.answer {fd : ℕ} {got : Option ℕ} (h : Made s)
    (hgot : ∀ ctx, got = some ctx → ctx < s.made) : Made (s.answer fd got) := by
  refine ⟨h.data, ?_⟩
  intro other ctx hfirst
  rcases update_first hfirst with hold | ⟨-, -, hnew⟩
  · exact h.first other ctx hold
  · exact hgot ctx hnew

theorem Shared.answer {fd : ℕ} {got : Option ℕ} (h : Shared s)
    (hgot : ∀ ctx, got = some ctx → lookup s.data fd = some ctx) : Shared (s.answer fd got) := by
  refine ⟨?_, ?_, ?_⟩
  · intro other ctx hfirst
    rcases update_first hfirst with hold | ⟨rfl, -, hnew⟩
    · exact h.held other ctx hold
    · exact hgot ctx hnew
  · intro fd' ctx got' hmem
    simp only [State.answer, List.mem_append, List.mem_singleton, Entry.returned.injEq] at hmem
    rcases hmem with hmem | ⟨rfl, hfirst, hnew⟩
    · exact h.same fd' ctx got' hmem
    · have hheld := h.held fd' ctx hfirst.symm
      rw [hgot got' hnew.symm] at hheld
      exact Option.some.inj hheld
  · intro fd' before after hmem
    exact h.others fd' before after (by simpa [State.answer] using hmem)

/-- A change of the table that leaves what was returned and the entries of the others. -/
theorem Shared.change {fd : ℕ} {data : List (Option ℕ)} (h : Shared s) (hfd : s.first fd = none)
    (hothers : ∀ other ctx, other ≠ fd → lookup s.data other = some ctx →
      lookup data other = some ctx) : Shared (s.change fd data) := by
  refine ⟨?_, ?_, ?_⟩
  · intro other ctx hfirst
    apply hothers other ctx
    · rintro rfl
      cases hfd.symm.trans hfirst
    · exact h.held other ctx hfirst
  · intro fd' ctx got hmem
    exact h.same fd' ctx got (by simpa [State.change] using hmem)
  · intro fd' before after hmem
    simp only [State.change, List.mem_append, List.mem_singleton, Entry.changed.injEq] at hmem
    rcases hmem with hmem | ⟨rfl, rfl, rfl⟩
    · exact h.others fd' before after hmem
    · exact hothers

theorem Shared.forget (fd : ℕ) (h : Shared s) :
    Shared { s with first := Function.update s.first fd none } := by
  refine ⟨?_, h.same, h.others⟩
  intro other ctx hfirst
  exact h.held other ctx (update_none hfirst).2

theorem lookup_room (s : State T) (fd other : ℕ) : lookup (s.room fd) other =
    if castInt s.data.length ≤ fd ∧ fd * 3 / 2 ≤ other then none else lookup s.data other := by
  unfold State.room
  by_cases hle : castInt s.data.length ≤ fd
  · rw [if_pos hle, lookup_resize]
    simp only [hle, true_and]
  · rw [if_neg hle, if_neg fun hc => hle hc.1]

theorem lookup_of_lookup_room {fd other ctx : ℕ} (h : lookup (s.room fd) other = some ctx) :
    lookup s.data other = some ctx := by
  rw [lookup_room] at h
  split at h
  · cases h
  · exact h

theorem lt_length_room (s : State T) (fd : ℕ) :
    fd < (s.room fd).length ↔ (castInt s.data.length ≤ fd → fd < fd * 3 / 2) := by
  unfold State.room
  by_cases hle : castInt s.data.length ≤ fd
  · rw [if_pos hle, length_resize]
    simp only [hle, true_implies]
  · rw [if_neg hle]
    exact ⟨fun _ hc => absurd hc hle, fun _ => lt_of_lt_castInt (Int.not_le.1 hle)⟩

theorem Made.create {fd : ℕ} (h : Made s) (hin : fd < (s.room fd).length) :
    Made (s.create fd) := by
  refine Made.answer ⟨?_, fun other ctx hc => Nat.lt_succ_of_lt (h.first other ctx hc)⟩ ?_
  · intro other ctx hc
    by_cases ho : other = fd
    · subst ho
      rw [State.change, lookup_set_self hin] at hc
      cases hc
      exact Nat.lt_succ_self _
    · rw [State.change, lookup_set ho] at hc
      exact Nat.lt_succ_of_lt (h.data other ctx (lookup_of_lookup_room hc))
  · rintro ctx ⟨⟩
    exact Nat.lt_succ_self _

theorem Made.del {fd : ℕ} (h : Made s) : Made (s.change fd (s.data.set fd none)) := by
  refine ⟨?_, h.first⟩
  intro other ctx hc
  by_cases ho : other = fd
  · subst ho
    by_cases hin : other < s.data.length
    · rw [State.change, lookup_set_self hin] at hc
      cases hc
    · rw [State.change, lookup, List.getElem?_eq_none (by simpa using hin)] at hc
      cases hc
  · rw [State.change, lookup_set ho] at hc
    exact h.data other ctx hc

theorem State.log_create (s : State T) (fd : ℕ) : (s.create fd).log =
    s.log ++ [.changed fd s.data ((s.room fd).set fd (some s.made)),
      .returned fd (s.first fd) (some s.made)] :=
  List.append_assoc ..

/-- The creation keeps the objects that are there exactly when there is none for its descriptor
that was returned and the new size cuts none off. -/
theorem Shared.create_iff (fd : ℕ) (hm : Made s) (h : Shared s) :
    fd < (s.room fd).length ∧ Shared (s.create fd) ↔
      s.first fd = none ∧ (castInt s.data.length ≤ fd → fd < fd * 3 / 2 ∧
        ∀ other, fd * 3 / 2 ≤ other → lookup s.data other = none) := by
  constructor
  · rintro ⟨hin, ht⟩
    have hnone : s.first fd = none := by
      by_contra hne
      obtain ⟨ctx, hctx⟩ := Option.ne_none_iff_exists'.1 hne
      have hmem : Entry.returned fd (some ctx) (some s.made) ∈ (s.create fd).log := by
        rw [State.log_create, hctx]
        exact List.mem_append_right _ (List.mem_cons_of_mem _ List.mem_cons_self)
      exact Nat.lt_irrefl _ (ht.same fd ctx s.made hmem ▸ hm.first fd ctx hctx)
    refine ⟨hnone, ?_⟩
    intro hle
    have hlt := (lt_length_room s fd).1 hin hle
    refine ⟨hlt, ?_⟩
    intro other hother
    by_contra hne
    obtain ⟨ctx, hctx⟩ := Option.ne_none_iff_exists'.1 hne
    have hne : other ≠ fd := Nat.ne_of_gt (Nat.lt_of_lt_of_le hlt hother)
    have hmem : Entry.changed fd s.data ((s.room fd).set fd (some s.made)) ∈
        (s.create fd).log := by
      rw [State.log_create]
      exact List.mem_append_right _ List.mem_cons_self
    have hkept := ht.others fd _ _ hmem other ctx hne hctx
    rw [lookup_set hne, lookup_room, if_pos ⟨hle, hother⟩] at hkept
    cases hkept
  · rintro ⟨hnone, hroom⟩
    have hin : fd < (s.room fd).length := (lt_length_room s fd).2 fun hle => (hroom hle).1
    have hmade : Shared { s with made := s.made + 1 } := ⟨h.held, h.same, h.others⟩
    refine ⟨hin, Shared.answer (hmade.change hnone ?_) ?_⟩
    · intro other ctx hne hctx
      rw [lookup_set hne, lookup_room, if_neg]
      · exact hctx
      · intro hc
        cases ((hroom hc.1).2 other hc.2).symm.trans hctx
    · rintro ctx ⟨⟩
      exact lookup_set_self hin

variable [DecidableEq T]

theorem State.step_iff {e : Op T} {o : Unit} : s.step e = some (o, t) ↔ s.next e = some t := by
  simp [State.step]

theorem Made.step {e : Op T} {o : Unit} (h : Made s) (he : s.step e = some (o, t)) : Made t := by
  rw [State.step_iff] at he
  cases e with
  | get thread fd autoCreate =>
    rw [State.next] at he
    split at he
    · split at he
      · cases he
        exact h.answer nofun
      · cases he
        exact ⟨h.data, h.first⟩
    · split at he
      · cases he
      · next ctx hctx =>
        split at he
        · cases he
          apply h.answer
          rintro c rfl
          exact h.data fd c (by rw [lookup, hctx]; rfl)
        · cases he
          exact ⟨h.data, h.first⟩
  | create thread =>
    rw [State.next] at he
    split at he
    · cases he
    · next fd hfd =>
      dsimp only at he
      split at he
      · next hin =>
        obtain rfl := Option.some.inj he
        have hset : Made (s.setWaiting thread none) := ⟨h.data, h.first⟩
        exact hset.create hin
      · cases he
  | del thread fd =>
    have hset : Made { s with first := Function.update s.first fd none } :=
      ⟨h.data, fun other ctx hc => h.first other ctx (update_none hc).2⟩
    rw [State.next] at he
    dsimp only at he
    split at he
    · obtain rfl := Option.some.inj he
      exact hset
    · obtain rfl := Option.some.inj he
      exact hset.del

theorem Shared.step_iff (e : Op T) (hm : Made s) (h : Shared s) (hok : Allowed s e) :
    (∃ o t, s.step e = some (o, t) ∧ Shared t) ↔ Alone s e := by
  simp only [State.step_iff, exists_const]
  cases e with
  | get thread fd autoCreate =>
    refine ⟨fun _ => trivial, fun _ => ?_⟩
    have hwait : Shared (s.setWaiting thread (some fd)) := ⟨h.held, h.same, h.others⟩
    rw [State.next]
    split
    · split
      · exact ⟨_, rfl, h.answer nofun⟩
      · exact ⟨_, rfl, hwait⟩
    · next hlt =>
      have hin := lt_of_lt_castInt (Int.not_le.1 hlt)
      rw [List.getElem?_eq_getElem hin]
      dsimp only
      split
      · refine ⟨_, rfl, h.answer ?_⟩
        intro ctx hctx
        rw [lookup, List.getElem?_eq_getElem hin, hctx]
        rfl
      · exact ⟨_, rfl, hwait⟩
  | create thread =>
    obtain ⟨fd, hfd⟩ := Option.ne_none_iff_exists'.1 hok
    have hset : Made (s.setWaiting thread none) := ⟨hm.data, hm.first⟩
    have hshared : Shared (s.setWaiting thread none) := ⟨h.held, h.same, h.others⟩
    have hcreate := hshared.create_iff fd hset
    simp only [State.next, hfd, Alone, Option.some.injEq, forall_eq']
    refine Iff.trans ?_ hcreate
    constructor
    · rintro ⟨t, ht, hst⟩
      split at ht
      · next hin =>
        obtain rfl := Option.some.inj ht
        exact ⟨hin, hst⟩
      · cases ht
    · rintro ⟨hin, hst⟩
      exact ⟨_, if_pos hin, hst⟩
  | del thread fd =>
    refine ⟨fun _ => trivial, fun _ => ?_⟩
    have hforget := h.forget fd
    rw [State.next]
    dsimp only
    split
    · exact ⟨_, rfl, hforget⟩
    · refine ⟨_, rfl, hforget.change (Function.update_self ..) ?_⟩
      intro other ctx hne hctx
      rw [lookup_set hne]
      exact hctx

/-- However the steps of the threads interleave: no access is outside of the table, between two
`del` of a descriptor all its callers get one object and the objects of the others stay, exactly
when no two threads create an object for one descriptor and no resize cuts an object off. -/
theorem fd_ctx_shared_iff (ops : List (Op T))
    (hops : Guarded Allowed State.step (State.initial : State T) ops) :
    (∀ n, ∃ os u, run State.step State.initial (ops.take n) = some (os, u) ∧ Shared u) ↔
      Guarded Alone State.step (State.initial : State T) ops := by
  apply forall_run_total_iff_guarded (I := Made) ?_ ?_ made_initial shared_initial hops
  · intro s e o t hs _ he
    exact hs.step he
  · intro s e hs h hok
    exact h.step_iff e hs hok

instance (s : State T) : ∀ e, Decidable (Allowed s e)
  | .get thread _ _ => inferInstanceAs (Decidable (s.waiting thread = none))
  | .create thread => inferInstanceAs (Decidable (s.waiting thread ≠ none))
  | .del thread _ => inferInstanceAs (Decidable (s.waiting thread = none))

theorem forall_lookup_iff {data : List (Option ℕ)} {size : ℕ} :
    (∀ other < data.length, size ≤ other → lookup data other = none) ↔
      ∀ other, size ≤ other → lookup data other = none := by
  refine ⟨fun h other hother => ?_, fun h other _ => h other⟩
  by_cases hin : other < data.length
  · exact h other hin hother
  · rw [lookup, List.getElem?_eq_none (Nat.le_of_not_lt hin)]
    rfl

instance (s : State T) : ∀ e, Decidable (Alone s e)
  | .get _ _ _ => .isTrue trivial
  | .create thread =>
    match h : s.waiting thread with
    | none => .isTrue (by simp [Alone, h])
    | some fd =>
      decidable_of_iff (s.first fd = none ∧ (castInt s.data.length ≤ fd → fd < fd * 3 / 2 ∧
          ∀ other < s.data.length, fd * 3 / 2 ≤ other → lookup s.data other = none))
        (by simp [Alone, h, forall_lookup_iff])
  | .del _ _ => .isTrue trivial

/-- Two threads use one descriptor, which is closed and opened again in between. -/
theorem fd_ctx_shared_in_turn :
    ∃ os u, run State.step (State.initial : State Bool)
      [.get false 100 true, .create false, .get true 100 true, .del false 100,
        .get true 100 false, .get true 100 true, .create true] = some (os, u) ∧ Shared u :=
  (fd_ctx_shared_iff
    [.get false 100 true, .create false, .get true 100 true, .del false 100,
      .get true 100 false, .get true 100 true, .create true]
    (by decide +kernel)).2 (by decide +kernel) 7

/-- Both threads find no object and each of them makes one. -/
theorem fd_ctx_made_twice :
    Guarded Allowed State.step (State.initial : State Bool)
      [.get false 5 true, .get true 5 true, .create false, .create true] ∧
    ∃ os u, run State.step (State.initial : State Bool)
        [.get false 5 true, .get true 5 true, .create false, .create true] = some (os, u) ∧
      .returned 5 none (some 0) ∈ u.log ∧ .returned 5 (some 0) (some 1) ∈ u.log ∧
      ¬ Shared u := by
  have hrun : (run State.step (State.initial : State Bool)
      [.get false 5 true, .get true 5 true, .create false, .create true]).map
        (fun r => (decide (.returned 5 none (some 0) ∈ r.2.log),
          decide (.returned 5 (some 0) (some 1) ∈ r.2.log))) = some (true, true) := by
    decide +kernel
  obtain ⟨⟨os, u⟩, hu, hlog⟩ := Option.map_eq_some_iff.1 hrun
  simp only [Prod.mk.injEq, decide_eq_true_eq] at hlog
  refine ⟨by decide +kernel, os, u, hu, hlog.1, hlog.2, ?_⟩
  intro h
  cases h.same 5 0 1 hlog.2

end Table

end FdManager

end DescriptorTables
