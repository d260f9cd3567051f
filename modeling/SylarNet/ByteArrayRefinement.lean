import SylarNet.SylarByteArray
import SylarNet.StepRuns

/-!
# The byte array is a flat array with a cursor

The abstract array is one list of bytes and one position. Writing, reading and repositioning
the linked blocks simulate it, so no caller can tell the block size from the results.
-/
namespace ByteArrayRefinement

open ListOverwrite SylarByteArray

inductive Op where
  | write (buf : List UInt8)
  | read (n : ℕ)
  | setPosition (v : ℕ)
  | getWriteBuffers (len : ℕ)
  deriving DecidableEq, Repr

/-- What the caller of an operation sees. The entries handed out by `getWriteBuffers` are
pointers into the blocks and are not part of the observation, only the length is. -/
inductive Observation where
  | done
  | bytes (buf : List UInt8)
  | length (len : ℕ)
  | outOfRange (what : String)
  deriving DecidableEq, Repr

def observe {α : Type} (see : α → Observation) :
    Outcome α → Option (Observation × ByteArrayState)
  | .ok value s => some (see value, s)
  | .outOfRange what s => some (.outOfRange what, s)
  | .nullDeref => none

/-- One call. A thrown exception is caught by the caller, who goes on with the array. -/
def step (heap : Heap) (s : ByteArrayState) : Op → Option (Observation × ByteArrayState)
  | .write buf => observe (fun _ => .done) (s.write heap buf)
  | .read n => observe .bytes (s.read n)
  | .setPosition v => observe (fun _ => .done) (s.setPosition v)
  | .getWriteBuffers len => observe (fun r => .length r.1) (s.getWriteBuffers heap len)

structure FlatArray where
  data : List UInt8
  position : ℕ
  deriving DecidableEq, Repr

namespace FlatArray

def empty : FlatArray := ⟨[], 0⟩

/-- Writing overwrites or extends at the cursor, reading returns the bytes there. -/
def step (f : FlatArray) : Op → Option (Observation × FlatArray)
  | .write buf =>
    some (.done, ⟨overwrite f.data f.position buf, f.position + buf.length⟩)
  | .read n =>
    if f.data.length - f.position < n then some (.outOfRange "not enough length", f)
    else some (.bytes ((f.data.drop f.position).take n), ⟨f.data, f.position + n⟩)
  | .setPosition v => some (.done, ⟨f.data, v⟩)
  | .getWriteBuffers len => some (.length len, f)

/-- Reads ask for something and the cursor is only moved inside the array. -/
def Allowed (f : FlatArray) : Op → Prop
  | .read n => 1 ≤ n
  | .setPosition v => v ≤ f.data.length
  | _ => True

instance (f : FlatArray) (op : Op) : Decidable (f.Allowed op) := by
  cases op <;> simp only [Allowed] <;> infer_instance

def Valid (ops : List Op) : Prop := StepRuns.Guarded Allowed step empty ops

theorem run_total (f : FlatArray) (ops : List Op) :
    ∃ os f', StepRuns.run step f ops = some (os, f') := by
  induction ops generalizing f with
  | nil => exact ⟨[], f, rfl⟩
  | cons op ops ih =>
    have hstep : ∃ o g, step f op = some (o, g) := by
      cases op <;> simp only [step]
      case read n => split_ifs <;> exact ⟨_, _, rfl⟩
      all_goals exact ⟨_, _, rfl⟩
    obtain ⟨o, g, hg⟩ := hstep
    obtain ⟨os, f', hr⟩ := ih g
    exact ⟨o :: os, f', by rw [StepRuns.run_cons ops hg, hr]; rfl⟩

end FlatArray

/-- The blocks up to `m_size` spell the flat array, and the cursors agree. -/
structure Simulates (base : ℕ) (s : ByteArrayState) (f : FlatArray) : Prop where
  inv : Invariant s
  base_eq : s.baseSize = base
  position_eq : s.position = f.position
  size_eq : s.size = f.data.length
  data_eq : (storage s).take s.size = f.data

theorem construct_simulates (heap : Heap) {base : ℕ} (hb : 1 ≤ base) :
    Simulates base (.construct heap base) .empty :=
  ⟨construct_invariant heap hb, rfl, rfl, rfl, by simp [ByteArrayState.construct, FlatArray.empty]⟩

variable {heap : Heap} {base : ℕ} {s : ByteArrayState} {f : FlatArray}

theorem write_simulates (heap : Heap) (h : Simulates base s f) (buf : List UInt8) :
    ∃ t, s.write heap buf = .ok () t ∧
      Simulates base t ⟨overwrite f.data f.position buf, f.position + buf.length⟩ := by
  obtain ⟨t, fresh, ht, hinv, hpos, hsize, hbase, hstore⟩ := write_spec heap h.inv buf
  have hp : f.position ≤ f.data.length := by
    rw [← h.position_eq, ← h.size_eq]; exact h.inv.position_le
  have hlen : s.size ≤ (storage s).length := by
    rw [h.inv.length_storage]; exact h.inv.size_le
  have hdata : (overwrite f.data f.position buf).length = t.size := by
    rw [hsize, h.size_eq, h.position_eq]
    simp only [overwrite, List.length_append, List.length_take, List.length_drop]
    omega
  refine ⟨t, ht, hinv, hbase.trans h.base_eq, by rw [hpos, h.position_eq], hdata.symm, ?_⟩
  -- below the cursor and behind the written bytes nothing changed
  have hps : s.position ≤ s.size := h.inv.position_le
  rw [hstore, take_overwrite_of_le (by rw [List.length_append]; omega) (by omega), h.position_eq]
  by_cases hin : s.position + buf.length ≤ s.size
  · rw [hsize, Nat.max_eq_left hin, List.take_append_of_le_length hlen, h.data_eq]
  · -- the write ends the array, whatever stood behind the old size
    rw [hsize, Nat.max_eq_right (by omega), h.position_eq]
    have hs : s.size = f.data.length := h.size_eq
    have hpe := h.position_eq
    have htake : (storage s ++ fresh).take f.position = f.data.take f.position := by
      rw [← h.data_eq, List.take_take, Nat.min_eq_left (by omega),
        List.take_append_of_le_length (by omega)]
    simp only [overwrite, List.take_take, List.drop_take, Nat.sub_self, List.take_zero,
      Nat.min_eq_left (show f.position ≤ f.position + buf.length by omega), htake,
      List.drop_eq_nil_of_le (show f.data.length ≤ f.position + buf.length by omega)]

theorem read_simulates (h : Simulates base s f) {n : ℕ} (hn : 1 ≤ n)
    (hle : n ≤ f.data.length - f.position) :
    ∃ t, s.read n = .ok ((f.data.drop f.position).take n) t ∧
      Simulates base t ⟨f.data, f.position + n⟩ := by
  have hp := h.position_eq
  have hs := h.size_eq
  have hcap := h.inv.size_le
  obtain ⟨t, ht, hinv, hpos, hsize, hbase, hstore⟩ :=
    read_spec h.inv (n := n) (by omega) (by omega)
  have hbytes : ((storage s).drop s.position).take n = (f.data.drop f.position).take n := by
    rw [← h.data_eq, List.drop_take, List.take_take, Nat.min_eq_left (by omega), hp]
  exact ⟨t, by rw [ht, hbytes], hinv, hbase.trans h.base_eq, by rw [hpos, hp],
    hsize.trans hs, by rw [hstore, hsize]; exact h.data_eq⟩

theorem setPosition_simulates (h : Simulates base s f) {v : ℕ} (hv : v ≤ f.data.length) :
    ∃ t, s.setPosition v = .ok () t ∧ Simulates base t ⟨f.data, v⟩ := by
  have hs := h.size_eq
  have hcap := h.inv.size_le
  obtain ⟨t, ht, hinv, hpos, hsize, hbase, hstore⟩ := setPosition_spec h.inv (v := v) (by omega)
  have hsame : t.size = s.size := by rw [hsize]; omega
  exact ⟨t, ht, hinv, hbase.trans h.base_eq, hpos, hsame.trans hs,
    by rw [hstore, hsame]; exact h.data_eq⟩

theorem getWriteBuffers_simulates (heap : Heap) (h : Simulates base s f) (len : ℕ) :
    ∃ iovs t, s.getWriteBuffers heap len = .ok (len, iovs) t ∧ Simulates base t f := by
  by_cases hz : len = 0
  · exact ⟨[], s, by simp [ByteArrayState.getWriteBuffers, hz], h⟩
  obtain ⟨iovs, hw, -⟩ := getWriteBuffers_spec heap h.inv hz
  obtain ⟨hinv, hpos, hsize, hbase, -, fresh, hfresh⟩ := addCapaticy_spec heap h.inv len
  refine ⟨iovs, _, hw, hinv, hbase.trans h.base_eq, hpos.trans h.position_eq,
    hsize.trans h.size_eq, ?_⟩
  rw [hfresh, hsize, List.take_append_of_le_length, h.data_eq]
  rw [h.inv.length_storage]
  exact h.inv.size_le

theorem step_simulates (h : Simulates base s f) {op : Op} {o : Observation} {f' : FlatArray}
    (ha : f.Allowed op) (hf : f.step op = some (o, f')) :
    ∃ s', step heap s op = some (o, s') ∧ Simulates base s' f' := by
  cases op with
  | write buf =>
    obtain ⟨t, ht, hsim⟩ := write_simulates heap h buf
    cases hf
    exact ⟨t, by simp only [step, ht, observe], hsim⟩
  | read n =>
    simp only [FlatArray.step] at hf
    split_ifs at hf with hlt
    · cases hf
      have hthrow : s.size - s.position < n := by rw [h.size_eq, h.position_eq]; exact hlt
      exact ⟨s, by simp only [step, read_throws hthrow, observe], h⟩
    · obtain ⟨t, ht, hsim⟩ := read_simulates h ha (by omega)
      cases hf
      exact ⟨t, by simp only [step, ht, observe], hsim⟩
  | setPosition v =>
    obtain ⟨t, ht, hsim⟩ := setPosition_simulates h ha
    cases hf
    exact ⟨t, by simp only [step, ht, observe], hsim⟩
  | getWriteBuffers len =>
    obtain ⟨iovs, t, ht, hsim⟩ := getWriteBuffers_simulates heap h len
    cases hf
    exact ⟨t, by simp only [step, ht, observe], hsim⟩

/-- Every run of the linked blocks ends in a state that simulates the flat array. -/
theorem run_simulates (heap : Heap) {base : ℕ} (hb : 1 ≤ base) {ops : List Op}
    (hv : FlatArray.Valid ops) {os : List Observation} {f' : FlatArray}
    (hf : StepRuns.run FlatArray.step .empty ops = some (os, f')) :
    ∃ s, StepRuns.run (step heap) (.construct heap base) ops = some (os, s) ∧
      Simulates base s f' := by
  refine StepRuns.run_simulation ?_ (construct_simulates heap hb) hv hf
  intro s f op o f' hR hok hstep
  exact step_simulates hR hok hstep

/-- From every state that simulates a flat array a non-empty read throws exactly when it
asks for more than is left, and then nothing at all has changed. -/
theorem read_throws_iff (h : Simulates base s f) {n : ℕ} (hn : 1 ≤ n) :
    (∃ what t, s.read n = .outOfRange what t) ↔ s.size - s.position < n := by
  constructor
  · rintro ⟨what, t, ht⟩
    by_contra hle
    have hs := h.size_eq
    have hp := h.position_eq
    obtain ⟨u, hu, -⟩ := read_simulates h hn (by omega)
    rw [hu] at ht
    cases ht
  · intro hlt
    exact ⟨_, s, read_throws hlt⟩

/-- The block implementation has the results of the flat array, keeps its two cursors
consistent and never follows a null node pointer. -/
theorem block_array_refines_flat_array (heap : Heap) {base : ℕ} (hb : 1 ≤ base)
    {ops : List Op} (hv : FlatArray.Valid ops) :
    ∃ os f s, StepRuns.run FlatArray.step .empty ops = some (os, f) ∧
      StepRuns.run (step heap) (.construct heap base) ops = some (os, s) ∧
      (s.position = f.position ∧ s.size = f.data.length ∧ (storage s).take s.size = f.data) ∧
      (s.position ≤ s.size ∧ s.size ≤ s.capacity ∧ s.capacity = s.nodes.length * base) ∧
      (s.cur = none ↔ s.position = s.capacity) ∧
      (∀ i, s.cur = some i → i < s.nodes.length ∧
        i * base ≤ s.position ∧ s.position < (i + 1) * base) ∧
      (∀ n, 1 ≤ n → ((∃ what t, s.read n = .outOfRange what t) ↔ s.size - s.position < n) ∧
        (s.size - s.position < n → s.read n = .outOfRange "not enough length" s)) ∧
      (∀ heap' base', 1 ≤ base' →
        ∃ s', StepRuns.run (step heap') (.construct heap' base') ops = some (os, s')) := by
  obtain ⟨os, f, hf⟩ := FlatArray.run_total .empty ops
  obtain ⟨s, hs, hsim⟩ := run_simulates heap hb hv hf
  have hinv := hsim.inv
  have hbase := hsim.base_eq
  refine ⟨os, f, s, hf, hs, ⟨hsim.position_eq, hsim.size_eq, hsim.data_eq⟩,
    ⟨hinv.position_le, hinv.size_le, by rw [← hbase]; exact hinv.capacity_eq⟩, ?_, ?_, ?_, ?_⟩
  · rw [hinv.cur_eq]
    split_ifs with he <;> simp [he]
  · intro i hi
    rw [hinv.cur_eq] at hi
    split_ifs at hi with he
    cases hi
    have hlt : s.position < s.capacity := by
      have := hinv.position_le
      have := hinv.size_le
      omega
    refine ⟨?_, ?_, ?_⟩
    · rw [Nat.div_lt_iff_lt_mul hinv.base_pos, ← hinv.capacity_eq]
      exact hlt
    · rw [← hbase]; exact Nat.div_mul_le_self _ _
    · rw [← hbase]; exact (Nat.div_lt_iff_lt_mul hinv.base_pos).mp (Nat.lt_succ_self _)
  · intro n hn
    exact ⟨read_throws_iff hsim hn, read_throws⟩
  · intro heap' base' hb'
    obtain ⟨s', hs', -⟩ := run_simulates heap' hb' hv hf
    exact ⟨s', hs'⟩

theorem block_array_two_byte_blocks :
    ∃ s, StepRuns.run (step fun _ _ => 0) (.construct (fun _ _ => 0) 2)
        [.write [1, 2, 3], .setPosition 1, .getWriteBuffers 5, .read 2, .read 1] =
      some ([.done, .done, .length 5, .bytes [2, 3], .outOfRange "not enough length"], s) := by
  have hv : FlatArray.Valid
      [.write [1, 2, 3], .setPosition 1, .getWriteBuffers 5, .read 2, .read 1] := by
    simp [FlatArray.Valid, StepRuns.Guarded, FlatArray.Allowed, FlatArray.step,
      FlatArray.empty, overwrite]
  obtain ⟨os, f, s, hf, hs, -⟩ :=
    block_array_refines_flat_array (fun _ _ => 0) (show 1 ≤ 2 by decide) hv
  refine ⟨s, hs.trans ?_⟩
  have hos : (StepRuns.run FlatArray.step .empty
      [.write [1, 2, 3], .setPosition 1, .getWriteBuffers 5, .read 2, .read 1]).map Prod.fst =
      some [.done, .done, .length 5, .bytes [2, 3], .outOfRange "not enough length"] := by decide
  rw [hf, Option.map_some, Option.some.injEq] at hos
  exact congrArg some (congrArg (·, s) hos)

section Reachability

/-- The states of an array that is used in any way, also repositioned behind its size. -/
def Reachable (heap : Heap) (base : ℕ) (s : ByteArrayState) : Prop :=
  ∃ ops os, StepRuns.run (step heap) (.construct heap base) ops = some (os, s)

theorem Reachable.after {heap : Heap} {base : ℕ} {s t : ByteArrayState} {op : Op}
    {o : Observation} (hs : Reachable heap base s) (h : step heap s op = some (o, t)) :
    Reachable heap base t := by
  obtain ⟨ops, os, hrun⟩ := hs
  refine ⟨ops ++ [op], os ++ [o], StepRuns.run_append hrun ?_⟩
  rw [StepRuns.run_cons [] h]
  rfl

theorem step_preserves_invariant {heap : Heap} {s t : ByteArrayState} {op : Op} {o : Observation}
    (hs : Invariant s) (h : step heap s op = some (o, t)) :
    Invariant t ∧ t.baseSize = s.baseSize := by
  cases op with
  | write buf =>
    obtain ⟨u, -, hu, hinv, -, -, hbase, -⟩ := write_spec heap hs buf
    simp only [step, hu, observe, Option.some.injEq, Prod.mk.injEq] at h
    rw [← h.2]
    exact ⟨hinv, hbase⟩
  | read n =>
    by_cases hlt : s.size - s.position < n
    · simp only [step, read_throws hlt, observe, Option.some.injEq, Prod.mk.injEq] at h
      rw [← h.2]
      exact ⟨hs, rfl⟩
    have hsz := hs.size_le
    have hple := hs.position_le
    by_cases hend : s.position = s.capacity
    · have hz : n = 0 := by omega
      subst hz
      simp only [step, read_null hs hend, observe, reduceCtorEq] at h
    · obtain ⟨u, hu, hinv, -, -, hbase, -⟩ := read_spec hs (n := n) (by omega) (by omega)
      simp only [step, hu, observe, Option.some.injEq, Prod.mk.injEq] at h
      rw [← h.2]
      exact ⟨hinv, hbase⟩
  | setPosition v =>
    by_cases hlt : s.capacity < v
    · simp only [step, setPosition_throws hlt, observe, Option.some.injEq, Prod.mk.injEq] at h
      rw [← h.2]
      exact ⟨hs, rfl⟩
    · obtain ⟨u, hu, hinv, -, -, hbase, -⟩ := setPosition_spec hs (v := v) (by omega)
      simp only [step, hu, observe, Option.some.injEq, Prod.mk.injEq] at h
      rw [← h.2]
      exact ⟨hinv, hbase⟩
  | getWriteBuffers len =>
    by_cases hz : len = 0
    · simp only [step, ByteArrayState.getWriteBuffers, hz, if_true, observe, Option.some.injEq,
        Prod.mk.injEq] at h
      rw [← h.2]
      exact ⟨hs, rfl⟩
    · obtain ⟨iovs, hw, -⟩ := getWriteBuffers_spec heap hs hz
      obtain ⟨hinv, -, -, hbase, -⟩ := addCapaticy_spec heap hs len
      simp only [step, hw, observe, Option.some.injEq, Prod.mk.injEq] at h
      rw [← h.2]
      exact ⟨hinv, hbase⟩

theorem reachable_invariant {heap : Heap} {base : ℕ} {s : ByteArrayState} (hb : 1 ≤ base)
    (h : Reachable heap base s) : Invariant s ∧ s.baseSize = base := by
  obtain ⟨ops, os, h⟩ := h
  refine StepRuns.run_invariant (P := fun s => Invariant s ∧ s.baseSize = base) ?_
    ⟨construct_invariant heap hb, rfl⟩ (StepRuns.guarded_true _ ops) h
  intro s op o t hs _ hstep
  obtain ⟨hinv, hbase⟩ := step_preserves_invariant hs.1 hstep
  exact ⟨hinv, hbase.trans hs.2⟩

end Reachability

end ByteArrayRefinement
