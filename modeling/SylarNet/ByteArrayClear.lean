import SylarNet.ByteArrayMethods

/-!
# Clearing the array

`clear` puts the cursor and the blocks back to where the constructor leaves them, and not the
size. What was stored before counts as unread data of the cleared array, whose only block is the
first of the old ones.
-/
namespace SylarByteArray.ByteArrayState

/-- All blocks behind the first are deleted. -/
def clear (s : ByteArrayState) : ByteArrayState :=
  { s with
    position := 0
    capacity := s.baseSize
    nodes := s.nodes.take 1
    cur := some 0 }

end SylarByteArray.ByteArrayState

namespace ByteArrayClear

open SylarByteArray ByteArrayRefinement ByteArrayMethods

/-- The calls of a program that also clears the array. -/
inductive Call where
  | use (use : Use)
  | clear
  deriving DecidableEq, Repr

def call (heap : Heap) (s : ByteArrayState) : Call → Option (Observation × ByteArrayState)
  | .use u => use heap s u
  | .clear => some (.done, s.clear)

/-- The states of an array that is used and cleared in any order. -/
def Alive (heap : Heap) (base : ℕ) (s : ByteArrayState) : Prop :=
  ∃ calls os, StepRuns.run (call heap) (.construct heap base) calls = some (os, s)

/-- What the observers tell of a state. -/
structure View where
  getSize : ℕ
  getReadSize : ℕ
  getPosition : ℕ
  isLittleEndian : Bool
  deriving DecidableEq, Repr

def view (s : ByteArrayState) : View :=
  ⟨s.getSize, s.getReadSize, s.getPosition, s.isLittleEndian⟩

/-- The results of the calls one after the other and the observers behind them; `none` when the
program runs into a null pointer. -/
def results (heap : Heap) (s : ByteArrayState) (calls : List Call) :
    Option (List Observation × View) :=
  (StepRuns.run (call heap) s calls).map fun r => (r.1, view r.2)

/-- A new array with the byte order of this one. -/
def fresh (heap : Heap) (base : ℕ) (s : ByteArrayState) : ByteArrayState :=
  (ByteArrayState.construct heap base).setIsLittleEndian s.isLittleEndian

/-- The cleared array cannot be told from a new one whose first block was at the same place of
the memory, wherever the later blocks are. -/
structure FullReset (heap : Heap) (base : ℕ) (s : ByteArrayState) : Prop where
  getSize_eq : s.clear.getSize = 0
  getReadSize_eq : s.clear.getReadSize = 0
  read_throws : ∀ n, 1 ≤ n → s.clear.read n = .outOfRange "not enough length" s.clear
  same_results : ∀ heap' calls,
    results heap' s.clear calls = results heap' (fresh heap base s) calls

/-- As long as nothing counts as stored, the first block is as it was allocated. -/
structure Unused (heap : Heap) (base : ℕ) (s : ByteArrayState) : Prop where
  inv : Invariant s
  base_eq : s.baseSize = base
  first : s.nodes.head? = some (newNode heap 0 base)

variable {heap : Heap} {base : ℕ} {s t : ByteArrayState} {o : Observation}

theorem construct_unused (heap : Heap) (hb : 1 ≤ base) :
    Unused heap base (.construct heap base) :=
  ⟨construct_invariant heap hb, rfl, rfl⟩

/-- An array without stored bytes is cleared to a new one. -/
theorem Unused.clear_eq (h : Unused heap base s) (hsize : s.size = 0) :
    s.clear = fresh heap base s := by
  have hfirst : s.nodes.take 1 = [newNode heap 0 base] := by
    obtain ⟨rest, hnodes⟩ := List.head?_eq_some_iff.1 h.first
    rw [hnodes]
    rfl
  have hendian : (if s.isLittleEndian then Endian.little else Endian.big) = s.endian := by
    rw [ByteArrayState.isLittleEndian]
    cases s.endian <;> rfl
  rw [fresh, ByteArrayState.setIsLittleEndian, hendian, ByteArrayState.clear, hfirst, hsize,
    h.base_eq]
  rfl

theorem Unused.clear (h : Unused heap base s) (hb : 1 ≤ base) (hsize : s.size = 0) :
    Unused heap base s.clear := by
  rw [h.clear_eq hsize]
  have hnew := construct_unused heap hb
  exact ⟨invariant_endian hnew.inv _, rfl, rfl⟩

/-- No call forgets stored bytes, and a call that stores none leaves the blocks as they are. -/
structure Kept (s t : ByteArrayState) : Prop where
  size_le : s.size ≤ t.size
  nodes : t.size = 0 → s.nodes <+: t.nodes

theorem Kept.refl (s : ByteArrayState) : Kept s s := ⟨le_refl _, fun _ => List.prefix_rfl⟩

theorem addCapaticy_kept (heap : Heap) (s : ByteArrayState) (n : ℕ) :
    (s.addCapaticy heap n).size = s.size ∧ s.nodes <+: (s.addCapaticy heap n).nodes := by
  unfold ByteArrayState.addCapaticy
  dsimp only
  split
  · exact ⟨rfl, List.prefix_rfl⟩
  · split
    · exact ⟨rfl, List.prefix_rfl⟩
    · exact ⟨rfl, List.prefix_append _ _⟩

theorem write_kept {buf : List UInt8}
    (h : observe (fun _ => .done) (s.write heap buf) = some (o, t)) : Kept s t := by
  unfold ByteArrayState.write at h
  split at h
  · cases h
    exact Kept.refl s
  · rename_i hne
    have hsize := (addCapaticy_kept heap s buf.length).1
    dsimp only at h
    split at h
    · cases h
    · split at h
      · cases h
      · cases h
        constructor
        · dsimp only
          split_ifs <;> omega
        · dsimp only
          split_ifs <;> omega

theorem read_kept {n : ℕ} (h : observe .bytes (s.read n) = some (o, t)) : Kept s t := by
  unfold ByteArrayState.read at h
  split at h
  · cases h
    exact Kept.refl s
  · split at h
    · cases h
    · split at h
      · cases h
      · cases h
        exact ⟨le_refl _, fun _ => List.prefix_rfl⟩

theorem setPosition_kept {v : ℕ}
    (h : observe (fun _ => .done) (s.setPosition v) = some (o, t)) : Kept s t := by
  unfold ByteArrayState.setPosition at h
  split at h
  · cases h
    exact Kept.refl s
  · split at h
    · cases h
    · cases h
      refine ⟨?_, fun _ => List.prefix_rfl⟩
      dsimp only
      split_ifs <;> omega

theorem getWriteBuffers_kept {len : ℕ}
    (h : observe (fun r => .length r.1) (s.getWriteBuffers heap len) = some (o, t)) :
    Kept s t := by
  unfold ByteArrayState.getWriteBuffers at h
  split at h
  · cases h
    exact Kept.refl s
  · obtain ⟨hsize, hnodes⟩ := addCapaticy_kept heap s len
    dsimp only at h
    split at h
    · cases h
    · split at h
      · cases h
      · cases h
        exact ⟨Nat.le_of_eq hsize.symm, fun _ => hnodes⟩

theorem step_kept {op : Op} (h : step heap s op = some (o, t)) : Kept s t := by
  cases op with
  | write buf => exact write_kept h
  | read n => exact read_kept h
  | setPosition v => exact setPosition_kept h
  | getWriteBuffers len => exact getWriteBuffers_kept h

/-- A call that leaves nothing stored found nothing stored and did not touch the first block. -/
theorem call_unused {c : Call} (hb : 1 ≤ base) (h : s.size = 0 → Unused heap base s)
    (hcall : call heap s c = some (o, t)) (hsize : t.size = 0) : Unused heap base t := by
  cases c with
  | use u =>
    cases u with
    | op op =>
      have hkept := step_kept hcall
      have hzero : s.size = 0 := Nat.le_zero.1 (hsize ▸ hkept.size_le)
      have hs := h hzero
      obtain ⟨hinv, hbase⟩ := step_preserves_invariant hs.inv hcall
      refine ⟨hinv, hbase.trans hs.base_eq, ?_⟩
      obtain ⟨rest, hnodes⟩ := List.head?_eq_some_iff.1 hs.first
      obtain ⟨added, hadded⟩ := hkept.nodes hsize
      rw [← hadded, hnodes]
      rfl
    | setIsLittleEndian val =>
      cases hcall
      have hs := h hsize
      exact ⟨invariant_endian hs.inv _, hs.base_eq, hs.first⟩
  | clear =>
    cases hcall
    exact (h hsize).clear hb hsize

theorem Alive.unused (hb : 1 ≤ base) (hs : Alive heap base s) (hsize : s.size = 0) :
    Unused heap base s := by
  obtain ⟨calls, os, hrun⟩ := hs
  refine StepRuns.run_invariant (P := fun s => s.size = 0 → Unused heap base s) ?_
    (fun _ => construct_unused heap hb) (StepRuns.guarded_true _ calls) hrun hsize
  intro s c o t hs _ hcall
  exact call_unused hb hs hcall

/-- The cleared array is as good as new when nothing counted as stored before. -/
theorem full_reset_iff (heap : Heap) (hb : 1 ≤ base) (hs : Alive heap base s) :
    FullReset heap base s ↔ s.size = 0 := by
  constructor
  · exact fun h => h.getSize_eq
  · intro hsize
    have hclear := (hs.unused hb hsize).clear_eq hsize
    have hzero : s.clear.size = 0 := hsize
    refine ⟨hsize, ?_, ?_, ?_⟩
    · rw [ByteArrayState.getReadSize, hzero, Nat.zero_sub]
    · intro n hn
      apply read_throws
      rw [hzero, Nat.zero_sub]
      exact hn
    · intro heap' calls
      rw [hclear]

/-- A call of `read` that finds the bytes gives what its loop collected. -/
theorem read_of_loop {i n k : ℕ} {buf : List UInt8} (hleft : n ≤ s.getReadSize)
    (hcur : s.cur = some i)
    (hloop : ByteArrayState.readLoop (s.nodes.drop i) (s.position % s.baseSize) n = some (buf, k)) :
    s.read n = .ok buf { s with cur := s.nodeAt (i + k), position := s.position + n } := by
  rw [ByteArrayState.read, if_neg (Nat.not_lt.2 hleft), hcur]
  dsimp only
  rw [hloop]

/-- A loop that runs off the chain takes the call of `read` with it. -/
theorem read_nullDeref {i n : ℕ} (hleft : n ≤ s.getReadSize) (hcur : s.cur = some i)
    (hloop : ByteArrayState.readLoop (s.nodes.drop i) (s.position % s.baseSize) n = none) :
    s.read n = .nullDeref := by
  rw [ByteArrayState.read, if_neg (Nat.not_lt.2 hleft), hcur]
  dsimp only
  rw [hloop]

/-- What is read from the cleared array are the bytes that were stored in the first block, and
behind them there is no block to read from. -/
theorem read_clear (hs : Invariant s) {n : ℕ} (hn : 1 ≤ n) (hsize : n ≤ s.size) :
    (n ≤ s.baseSize → ∃ t, s.clear.read n = .ok ((storage s).take n) t) ∧
      (s.baseSize < n → s.clear.read n = .nullDeref) := by
  have hb := hs.base_pos
  obtain ⟨block, rest, hnodes⟩ : ∃ block rest, s.nodes = block :: rest :=
    List.exists_cons_of_length_pos hs.nonempty
  have hlen : block.length = s.baseSize :=
    hs.blocks block (by rw [hnodes]; exact List.mem_cons_self)
  have hleft : n ≤ s.clear.getReadSize := hsize
  have hcur : s.clear.cur = some 0 := rfl
  -- only the first block is left to the loop, which begins at its first byte
  have hloop : ByteArrayState.readLoop (s.clear.nodes.drop 0)
      (s.clear.position % s.clear.baseSize) n = ByteArrayState.readLoop [block] 0 n := by
    have hchain : s.clear.nodes.drop 0 = [block] := by
      rw [List.drop_zero, ByteArrayState.clear, hnodes, List.take_succ_cons, List.take_zero]
    rw [hchain, show s.clear.position % s.clear.baseSize = 0 from Nat.zero_mod _]
  obtain ⟨k, rfl⟩ : ∃ k, n = k + 1 := ⟨n - 1, by omega⟩
  rw [ByteArrayState.readLoop, hlen, Nat.sub_zero, List.drop_zero] at hloop
  constructor
  · intro hin
    have htake : (storage s).take (k + 1) = block.take (k + 1) := by
      rw [storage, hnodes, List.flatten_cons, List.take_append_of_le_length (by omega)]
    rw [if_pos hin] at hloop
    rw [htake]
    exact ⟨_, read_of_loop hleft hcur hloop⟩
  · intro hover
    obtain ⟨left, hrest⟩ : ∃ left, k + 1 - s.baseSize = left + 1 := ⟨k - s.baseSize, by omega⟩
    rw [if_neg (by omega), hrest, ByteArrayState.readLoop, Option.map_none] at hloop
    exact read_nullDeref hleft hcur hloop

/-- Nothing is stored by asking for blocks only. -/
theorem full_reset_reserved :
    FullReset (fun _ _ => 0) 2 (ByteArrayState.addCapaticy (fun _ _ => 0)
      (.construct (fun _ _ => 0) 2) 5) :=
  (full_reset_iff (fun _ _ => 0) (show 1 ≤ 2 by decide)
    ⟨[.use (.op (.getWriteBuffers 5))], [.length 5], by decide⟩).2 rfl

/-- Three stored bytes stay counted in the cleared array. -/
theorem cleared_array_keeps_size :
    ¬ ∀ (heap : Heap) (base : ℕ), 1 ≤ base → ∀ s, Alive heap base s → FullReset heap base s := by
  intro h
  obtain ⟨s, hs⟩ : ∃ s, call (fun _ _ => 0) (.construct (fun _ _ => 0) 2)
      (.use (.op (.write [1, 2, 3]))) = some (.done, s) := ⟨_, rfl⟩
  have hsize : s.size = 3 := by
    cases hs
    decide
  have hreset := h (fun _ _ => 0) 2 (by decide) s ⟨[.use (.op (.write [1, 2, 3]))], [.done], by
    rw [StepRuns.run_cons [] hs]; rfl⟩
  exact absurd (hsize.symm.trans hreset.getSize_eq) (by decide)

end ByteArrayClear
