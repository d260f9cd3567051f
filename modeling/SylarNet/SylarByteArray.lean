import SylarNet.ListOverwrite
import Mathlib.Algebra.GroupWithZero.Nat
import Mathlib.Data.Nat.Basic

/-!
# The linked-block byte array

Every `Node` of the source is on the chain that starts at `m_root`, so the chain is a list
of blocks and a node pointer is a position in it: following `next` adds one, and the null
pointer is `none`. A loop of the source walks the chain from the current node; here it is a
recursion on the rest of the chain, and a dereference of the null pointer makes it `none`.
The contents of a freshly allocated block are whatever the heap held there.
-/
namespace SylarByteArray

open ListOverwrite

inductive Endian where
  | little
  | big
  deriving DecidableEq, Repr

/-- A memory block: `ptr` is the list, `size` its length. -/
abbrev Node := List UInt8

/-- What `new char[s]` finds in the memory of the `i`-th block. -/
abbrev Heap := ℕ → ℕ → UInt8

def newNode (heap : Heap) (i size : ℕ) : Node := (List.range size).map (heap i)

structure ByteArrayState where
  baseSize : ℕ
  position : ℕ
  capacity : ℕ
  size : ℕ
  endian : Endian
  nodes : List Node
  cur : Option ℕ
  deriving DecidableEq, Repr

/-- How a call ends: it returns, it throws `std::out_of_range` in the state it leaves
behind, or it dereferences the null pointer. -/
inductive Outcome (α : Type) where
  | ok (value : α) (s : ByteArrayState)
  | outOfRange (what : String) (s : ByteArrayState)
  | nullDeref
  deriving DecidableEq, Repr

namespace ByteArrayState

def construct (heap : Heap) (baseSize : ℕ) : ByteArrayState where
  baseSize := baseSize
  position := 0
  capacity := baseSize
  size := 0
  endian := .big
  nodes := [newNode heap 0 baseSize]
  cur := some 0

def isLittleEndian (s : ByteArrayState) : Bool := s.endian = .little

def setIsLittleEndian (s : ByteArrayState) (val : Bool) : ByteArrayState :=
  { s with endian := if val then .little else .big }

def getSize (s : ByteArrayState) : ℕ := s.size
def getPosition (s : ByteArrayState) : ℕ := s.position
def getReadSize (s : ByteArrayState) : ℕ := s.size - s.position
def getCapacity (s : ByteArrayState) : ℕ := s.capacity - s.position

/-- The node at place `i` of the chain, null past its end. -/
def nodeAt (s : ByteArrayState) (i : ℕ) : Option ℕ := if i < s.nodes.length then some i else none

/-- The nodes that `addCapaticy` hangs behind the tail node, one after the other. -/
def newNodes (heap : Heap) (s : ByteArrayState) (count : ℕ) : List Node :=
  (List.range count).map fun i => newNode heap (s.nodes.length + i) s.baseSize

def addCapaticy (heap : Heap) (s : ByteArrayState) (size : ℕ) : ByteArrayState :=
  if size = 0 then s
  else
    let oldCap := s.getCapacity
    if size ≤ oldCap then s
    else
      -- ceil(1.0 * size / m_baseSize), as an exact integer ceiling
      let count := (size - oldCap + (s.baseSize - 1)) / s.baseSize
      { s with
        nodes := s.nodes ++ s.newNodes heap count
        capacity := s.capacity + count * s.baseSize
        cur := if oldCap = 0 then (if 0 < count then some s.nodes.length else none) else s.cur }

/-- The copying loop of `write` on the chain that starts at `m_cur`, with the offset `npos`
in the first block. It returns the chain and how often `m_cur = m_cur->next` was done. -/
def writeLoop : List Node → ℕ → List UInt8 → Option (List Node × ℕ)
  | chain, _, [] => some (chain, 0)
  | [], _, _ :: _ => none
  | node :: rest, npos, b :: bs =>
    let buf := b :: bs
    let ncap := node.length - npos
    if buf.length ≤ ncap then
      some (overwrite node npos buf :: rest, if node.length = npos + buf.length then 1 else 0)
    else
      (writeLoop rest 0 (buf.drop ncap)).map fun r =>
        (overwrite node npos (buf.take ncap) :: r.1, r.2 + 1)

def write (heap : Heap) (s : ByteArrayState) (buf : List UInt8) : Outcome Unit :=
  if buf.length = 0 then .ok () s
  else
    let s := s.addCapaticy heap buf.length
    match s.cur with
    | none => .nullDeref
    | some i =>
      match writeLoop (s.nodes.drop i) (s.position % s.baseSize) buf with
      | none => .nullDeref
      | some (chain, k) =>
        let position := s.position + buf.length
        .ok () { s with
          nodes := s.nodes.take i ++ chain
          cur := s.nodeAt (i + k)
          position := position
          size := if s.size < position then position else s.size }

/-- The copying loop of `read`, with the bytes it stores in the caller's buffer. -/
def readLoop : List Node → ℕ → ℕ → Option (List UInt8 × ℕ)
  | _, _, 0 => some ([], 0)
  | [], _, _ + 1 => none
  | node :: rest, npos, n + 1 =>
    let ncap := node.length - npos
    if n + 1 ≤ ncap then
      some ((node.drop npos).take (n + 1), if node.length = npos + (n + 1) then 1 else 0)
    else
      (readLoop rest 0 (n + 1 - ncap)).map fun r => (node.drop npos ++ r.1, r.2 + 1)

/-- `read` looks into `m_cur` before it tests the size, also when nothing is asked for. -/
def read (s : ByteArrayState) (size : ℕ) : Outcome (List UInt8) :=
  if s.getReadSize < size then .outOfRange "not enough length" s
  else
    match s.cur with
    | none => .nullDeref
    | some i =>
      match readLoop (s.nodes.drop i) (s.position % s.baseSize) size with
      | none => .nullDeref
      | some (buf, k) =>
        .ok buf { s with cur := s.nodeAt (i + k), position := s.position + size }

/-- The loop of `setPosition`, counting the nodes it passes. -/
def seekLoop : List Node → ℕ → Option ℕ
  | [], _ => none
  | node :: rest, v =>
    if node.length < v then (seekLoop rest (v - node.length)).map (· + 1)
    else some (if v = node.length then 1 else 0)

def setPosition (s : ByteArrayState) (v : ℕ) : Outcome Unit :=
  if s.capacity < v then .outOfRange "set_position out of range" s
  else
    match seekLoop s.nodes v with
    | none => .nullDeref
    | some k =>
      .ok () { s with
        position := v
        size := if s.size < v then v else s.size
        cur := s.nodeAt k }

/-- `iov_base` as a block and an offset in it, and `iov_len`. -/
structure Iovec where
  node : ℕ
  offset : ℕ
  len : ℕ
  deriving DecidableEq, Repr

/-- The loop of `getWriteBuffers` on the chain that starts at node `i`. Unlike its twin in
`getReadBuffers` it records the whole remaining length when a block does not hold it. -/
def writeBuffersLoop : List Node → ℕ → ℕ → ℕ → Option (List Iovec)
  | _, _, _, 0 => some []
  | [], _, _, _ + 1 => none
  | node :: rest, i, npos, n + 1 =>
    let ncap := node.length - npos
    if n + 1 ≤ ncap then some [⟨i, npos, n + 1⟩]
    else (writeBuffersLoop rest (i + 1) 0 (n + 1 - ncap)).map (⟨i, npos, n + 1⟩ :: ·)

/-- The value is the returned length together with the entries appended to `buffers`. -/
def getWriteBuffers (heap : Heap) (s : ByteArrayState) (len : ℕ) : Outcome (ℕ × List Iovec) :=
  if len = 0 then .ok (0, []) s
  else
    let s := s.addCapaticy heap len
    match s.cur with
    | none => .nullDeref
    | some i =>
      match writeBuffersLoop (s.nodes.drop i) i (s.position % s.baseSize) len with
      | none => .nullDeref
      | some iovs => .ok (len, iovs) s

end ByteArrayState

/-- The state invariant: the cursor is kept twice and both copies agree. -/
structure Invariant (s : ByteArrayState) : Prop where
  base_pos : 1 ≤ s.baseSize
  blocks : ∀ b ∈ s.nodes, b.length = s.baseSize
  capacity_eq : s.capacity = s.nodes.length * s.baseSize
  nonempty : 1 ≤ s.nodes.length
  position_le : s.position ≤ s.size
  size_le : s.size ≤ s.capacity
  cur_eq : s.cur = if s.position = s.capacity then none else some (s.position / s.baseSize)

def storage (s : ByteArrayState) : List UInt8 := s.nodes.flatten

section Loops

open ByteArrayState

variable {b : ℕ} {chain : List Node} {npos : ℕ}

/-- The loop of `write` overwrites the chain as if it were one flat array, block sizes
unchanged, and moves `m_cur` by the number of blocks that end inside the written range. -/
theorem writeLoop_spec (hb : 1 ≤ b) (hc : ∀ x ∈ chain, x.length = b) {buf : List UInt8}
    (hn : npos < b) (hfit : npos + buf.length ≤ chain.length * b) :
    ∃ chain', writeLoop chain npos buf = some (chain', (npos + buf.length) / b) ∧
      chain'.flatten = overwrite chain.flatten npos buf ∧
      (∀ x ∈ chain', x.length = b) ∧ chain'.length = chain.length := by
  induction chain generalizing npos buf with
  | nil =>
    have hbuf : buf = [] := by
      rw [List.length_nil, Nat.zero_mul] at hfit
      exact List.length_eq_zero_iff.mp (by omega)
    subst hbuf
    exact ⟨[], by simp [writeLoop, Nat.div_eq_of_lt hn], by simp, by simp, rfl⟩
  | cons node rest ih =>
    have hlen : node.length = b := hc node List.mem_cons_self
    have hrest : ∀ x ∈ rest, x.length = b := fun x hx => hc x (List.mem_cons_of_mem node hx)
    cases buf with
    | nil => exact ⟨node :: rest, by simp [writeLoop, Nat.div_eq_of_lt hn], by simp, hc, rfl⟩
    | cons a as =>
      generalize hbuf : a :: as = buf at *
      rw [← hbuf, writeLoop, hbuf]
      by_cases hle : buf.length ≤ node.length - npos
      · -- the buffer ends inside this block, possibly exactly at its end
        have hcount : (npos + buf.length) / b =
            if node.length = npos + buf.length then 1 else 0 := by
          rw [hlen]
          split_ifs with he
          · rw [← he, Nat.div_self (by omega)]
          · exact Nat.div_eq_of_lt (by omega)
        have hover : (overwrite node npos buf).length = b := by
          rw [length_overwrite (by omega), hlen]
        refine ⟨overwrite node npos buf :: rest, by simp [hle, hcount], ?_, ?_, rfl⟩
        · simp only [List.flatten_cons]
          rw [overwrite_append_left _ (by omega)]
        · intro x hx
          rcases List.mem_cons.mp hx with rfl | hx
          · exact hover
          · exact hrest x hx
      · have hfit' : 0 + (buf.drop (node.length - npos)).length ≤ rest.length * b := by
          rw [List.length_cons, Nat.succ_mul] at hfit
          rw [List.length_drop]
          omega
        obtain ⟨rest', hloop, hflat, hsize, hlength⟩ := ih hrest (show 0 < b by omega) hfit'
        have hcount : (npos + buf.length) / b =
            (0 + (buf.drop (node.length - npos)).length) / b + 1 := by
          rw [List.length_drop, hlen, ← Nat.add_div_right _ (by omega)]
          congr 1
          omega
        refine ⟨overwrite node npos (buf.take (node.length - npos)) :: rest', ?_, ?_, ?_, ?_⟩
        · simp [hle, hloop, hcount]
        · simp only [List.flatten_cons, hflat]
          rw [overwrite_append_split _ (by omega) (by omega)]
        · intro x hx
          rcases List.mem_cons.mp hx with rfl | hx
          · rw [length_overwrite (by rw [List.length_take]; omega), hlen]
          · exact hsize x hx
        · simp [hlength]

theorem readLoop_spec (hb : 1 ≤ b) (hc : ∀ x ∈ chain, x.length = b) {n : ℕ}
    (hn : npos < b) (hfit : npos + n ≤ chain.length * b) :
    readLoop chain npos n = some ((chain.flatten.drop npos).take n, (npos + n) / b) := by
  induction chain generalizing npos n with
  | nil =>
    have hz : n = 0 := by rw [List.length_nil, Nat.zero_mul] at hfit; omega
    subst hz
    simp [readLoop, Nat.div_eq_of_lt hn]
  | cons node rest ih =>
    have hlen : node.length = b := hc node List.mem_cons_self
    cases n with
    | zero => simp [readLoop, Nat.div_eq_of_lt hn]
    | succ n =>
      rw [readLoop]
      by_cases hle : n + 1 ≤ node.length - npos
      · have hcount : (npos + (n + 1)) / b = if node.length = npos + (n + 1) then 1 else 0 := by
          rw [hlen]
          split_ifs with he
          · rw [← he, Nat.div_self (by omega)]
          · exact Nat.div_eq_of_lt (by omega)
        rw [if_pos hle, hcount, List.flatten_cons, List.drop_append_of_le_length (by omega),
          List.take_append_of_le_length (by rw [List.length_drop]; omega)]
      · have hfit' : 0 + (n + 1 - (node.length - npos)) ≤ rest.length * b := by
          rw [List.length_cons, Nat.succ_mul] at hfit
          omega
        have hcount : (npos + (n + 1)) / b = (0 + (n + 1 - (node.length - npos))) / b + 1 := by
          rw [hlen, ← Nat.add_div_right _ (by omega)]
          congr 1
          omega
        rw [if_neg hle, ih (fun x hx => hc x (List.mem_cons_of_mem node hx)) (by omega) hfit',
          hcount, List.flatten_cons, List.drop_append_of_le_length (by omega), List.take_append,
          List.take_of_length_le (l := node.drop npos) (by rw [List.length_drop]; omega),
          List.length_drop]
        simp

theorem seekLoop_spec (hb : 1 ≤ b) (hc : ∀ x ∈ chain, x.length = b) {v : ℕ}
    (hne : chain ≠ []) (hv : v ≤ chain.length * b) : seekLoop chain v = some (v / b) := by
  induction chain generalizing v with
  | nil => exact absurd rfl hne
  | cons node rest ih =>
    have hlen : node.length = b := hc node List.mem_cons_self
    rw [seekLoop]
    by_cases hlt : node.length < v
    · have hv' : v - node.length ≤ rest.length * b := by
        rw [List.length_cons, Nat.succ_mul] at hv
        omega
      have hrest : rest ≠ [] := by
        rintro rfl
        simp only [List.length_nil, Nat.zero_mul] at hv'
        omega
      have hcount : v / b = (v - node.length) / b + 1 := by
        rw [hlen, ← Nat.add_div_right _ (by omega)]
        congr 1
        omega
      rw [if_pos hlt, ih (fun x hx => hc x (List.mem_cons_of_mem node hx)) hrest hv', hcount]
      rfl
    · rw [if_neg hlt, hlen]
      split_ifs with he
      · rw [he, Nat.div_self (by omega)]
      · rw [Nat.div_eq_of_lt (by omega)]

/-- The entries of `getWriteBuffers` exist whenever the chain is long enough; each starts
where the previous block ended, but its length is what was still asked for there. -/
theorem writeBuffersLoop_isSome (hb : 1 ≤ b) (hc : ∀ x ∈ chain, x.length = b) (i : ℕ) {n : ℕ}
    (hn : npos < b) (hfit : npos + n ≤ chain.length * b) :
    ∃ iovs, writeBuffersLoop chain i npos n = some iovs := by
  induction chain generalizing npos n i with
  | nil =>
    have hz : n = 0 := by rw [List.length_nil, Nat.zero_mul] at hfit; omega
    exact ⟨[], by rw [hz, writeBuffersLoop]⟩
  | cons node rest ih =>
    have hlen : node.length = b := hc node List.mem_cons_self
    cases n with
    | zero => exact ⟨[], by rw [writeBuffersLoop]⟩
    | succ n =>
      rw [writeBuffersLoop]
      by_cases hle : n + 1 ≤ node.length - npos
      · exact ⟨_, if_pos hle⟩
      · have hfit' : 0 + (n + 1 - (node.length - npos)) ≤ rest.length * b := by
          rw [List.length_cons, Nat.succ_mul] at hfit
          omega
        obtain ⟨iovs, h⟩ := ih (fun x hx => hc x (List.mem_cons_of_mem node hx)) (i + 1)
          (show 0 < b by omega) hfit'
        exact ⟨_, by rw [if_neg hle, h]; rfl⟩

end Loops

section Operations

open ByteArrayState

variable {s : ByteArrayState}

theorem construct_invariant (heap : Heap) {base : ℕ} (hb : 1 ≤ base) :
    Invariant (construct heap base) where
  base_pos := hb
  blocks := by simp [construct, newNode]
  capacity_eq := by simp [construct]
  nonempty := by simp [construct]
  position_le := le_rfl
  size_le := Nat.zero_le _
  cur_eq := by
    have : (0 : ℕ) ≠ base := by omega
    simp [construct, this]

theorem Invariant.length_storage (hs : Invariant s) : (storage s).length = s.capacity := by
  rw [storage, length_flatten_blocks hs.blocks, hs.capacity_eq]

/-- The node that `nodeAt` names for a byte position is the one `cur_eq` asks for. -/
theorem Invariant.nodeAt_div (hs : Invariant s) {q : ℕ} (hq : q ≤ s.capacity) :
    s.nodeAt (q / s.baseSize) = if q = s.capacity then none else some (q / s.baseSize) := by
  have hb := hs.base_pos
  have hc := hs.capacity_eq
  unfold nodeAt
  by_cases he : q = s.capacity
  · rw [if_pos he, if_neg]
    rw [he, hc, Nat.mul_div_cancel _ (by omega)]
    omega
  · rw [if_neg he, if_pos]
    rw [Nat.div_lt_iff_lt_mul (by omega)]
    omega

theorem Invariant.cur_of_lt (hs : Invariant s) (h : s.position < s.capacity) :
    s.cur = some (s.position / s.baseSize) := by
  rw [hs.cur_eq, if_neg (by omega)]

/-- The rest of the chain seen from the current node, as part of the flat storage. -/
theorem Invariant.chain (hs : Invariant s) :
    (∀ x ∈ s.nodes.drop (s.position / s.baseSize), x.length = s.baseSize) ∧
    s.position % s.baseSize < s.baseSize ∧
    (s.nodes.drop (s.position / s.baseSize)).flatten =
      (storage s).drop (s.position / s.baseSize * s.baseSize) := by
  have hb := hs.base_pos
  exact ⟨fun x hx => hs.blocks x (List.mem_of_mem_drop hx), Nat.mod_lt _ (by omega),
    flatten_drop_blocks hs.blocks _⟩

theorem Invariant.chain_fits (hs : Invariant s) {n : ℕ} (h : s.position + n ≤ s.capacity) :
    s.position % s.baseSize + n ≤
      (s.nodes.drop (s.position / s.baseSize)).length * s.baseSize := by
  have hdm := Nat.div_add_mod s.position s.baseSize
  rw [Nat.mul_comm] at hdm
  have hc := hs.capacity_eq
  rw [List.length_drop, Nat.sub_mul]
  omega

theorem Invariant.position_div (hs : Invariant s) (n : ℕ) :
    s.position / s.baseSize + (s.position % s.baseSize + n) / s.baseSize =
      (s.position + n) / s.baseSize := by
  have hb := hs.base_pos
  have hdm := Nat.div_add_mod s.position s.baseSize
  conv_rhs => rw [← hdm, Nat.add_assoc, Nat.mul_add_div (by omega)]

theorem addCapaticy_spec (heap : Heap) (hs : Invariant s) (n : ℕ) :
    Invariant (s.addCapaticy heap n) ∧
    (s.addCapaticy heap n).position = s.position ∧
    (s.addCapaticy heap n).size = s.size ∧
    (s.addCapaticy heap n).baseSize = s.baseSize ∧
    s.position + n ≤ (s.addCapaticy heap n).capacity ∧
    ∃ fresh, storage (s.addCapaticy heap n) = storage s ++ fresh := by
  have hb := hs.base_pos
  have hp := hs.position_le
  have hsz := hs.size_le
  unfold addCapaticy
  by_cases hz : n = 0
  · rw [if_pos hz]
    exact ⟨hs, rfl, rfl, rfl, by omega, [], by simp⟩
  rw [if_neg hz]
  by_cases hold : n ≤ s.getCapacity
  · rw [if_pos hold]
    unfold getCapacity at hold
    exact ⟨hs, rfl, rfl, rfl, by omega, [], by simp⟩
  rw [if_neg hold]
  unfold getCapacity at *
  have hgrow : n - (s.capacity - s.position) ≤
      (n - (s.capacity - s.position) + (s.baseSize - 1)) / s.baseSize * s.baseSize := by
    have := Nat.div_add_mod (n - (s.capacity - s.position) + (s.baseSize - 1)) s.baseSize
    have := Nat.mod_lt (n - (s.capacity - s.position) + (s.baseSize - 1))
      (show 0 < s.baseSize by omega)
    rw [Nat.mul_comm]
    omega
  generalize hcount : (n - (s.capacity - s.position) + (s.baseSize - 1)) / s.baseSize = count at *
  have hcpos : 0 < count := by
    rcases Nat.eq_zero_or_pos count with h | h
    · rw [h] at hgrow; omega
    · exact h
  have hc := hs.capacity_eq
  have hmul : s.baseSize ≤ count * s.baseSize := Nat.le_mul_of_pos_left _ hcpos
  refine ⟨⟨hb, ?_, ?_, ?_, hp, ?_, ?_⟩, rfl, rfl, rfl, ?_, (s.newNodes heap count).flatten, ?_⟩
  · intro x hx
    rcases List.mem_append.mp hx with hx | hx
    · exact hs.blocks x hx
    · simp only [newNodes, List.mem_map] at hx
      obtain ⟨i, -, rfl⟩ := hx
      simp [newNode]
  · simp [newNodes, hc, Nat.add_mul]
  · have := hs.nonempty
    simp only [List.length_append]
    omega
  · dsimp only
    omega
  · -- a full array has a null `m_cur`, which moves to the first new block
    dsimp only
    rw [if_neg (show ¬ s.position = s.capacity + count * s.baseSize by omega)]
    by_cases hfull : s.capacity - s.position = 0
    · have hpos : s.position = s.nodes.length * s.baseSize := by omega
      rw [if_pos hfull, if_pos hcpos, hpos, Nat.mul_div_cancel _ (by omega)]
    · rw [if_neg hfull, hs.cur_of_lt (by omega)]
  · dsimp only
    omega
  · simp [storage]

theorem write_spec (heap : Heap) (hs : Invariant s) (buf : List UInt8) :
    ∃ t fresh, s.write heap buf = .ok () t ∧ Invariant t ∧
      t.position = s.position + buf.length ∧ t.size = max s.size (s.position + buf.length) ∧
      t.baseSize = s.baseSize ∧
      storage t = overwrite (storage s ++ fresh) s.position buf := by
  by_cases hz : buf.length = 0
  · refine ⟨s, [], by simp [write, hz], hs, by omega, ?_, rfl, ?_⟩
    · have := hs.position_le; omega
    · rw [List.length_eq_zero_iff.mp hz]; simp
  obtain ⟨hg, hpos, hsize, hbase, hcap, fresh, hfresh⟩ := addCapaticy_spec heap hs buf.length
  rw [write, if_neg hz]
  generalize s.addCapaticy heap buf.length = g at *
  have hlt : g.position < g.capacity := by omega
  have hsz := hg.size_le
  have hple := hg.position_le
  obtain ⟨hblocks, hmod, hflat⟩ := hg.chain
  obtain ⟨chain, hloop, hover, hlens, hcount⟩ := writeLoop_spec hg.base_pos hblocks hmod
    (hg.chain_fits (n := buf.length) (by omega))
  have hnodes : (g.nodes.take (g.position / g.baseSize) ++ chain).length = g.nodes.length := by
    rw [List.length_append, hcount, List.length_take, List.length_drop]
    omega
  simp only [hg.cur_of_lt hlt, hloop]
  refine ⟨_, fresh, rfl, ?_, ?_, ?_, hbase, ?_⟩
  · refine ⟨hg.base_pos, ?_, ?_, ?_, ?_, ?_, ?_⟩
    · intro x hx
      rcases List.mem_append.mp hx with hx | hx
      · exact hg.blocks x (List.mem_of_mem_take hx)
      · exact hlens x hx
    · dsimp only; rw [hnodes, hg.capacity_eq]
    · dsimp only; rw [hnodes]; exact hg.nonempty
    · dsimp only; split_ifs <;> omega
    · dsimp only; split_ifs <;> omega
    · dsimp only
      rw [hg.position_div, hg.nodeAt_div (by omega)]
  · dsimp only; omega
  · dsimp only; rw [← hsize, ← hpos]; split_ifs <;> omega
  · -- the blocks before `m_cur` are untouched, the loop overwrites the rest
    have hdm := Nat.div_add_mod g.position g.baseSize
    rw [Nat.mul_comm] at hdm
    have hpre : (g.nodes.take (g.position / g.baseSize)).flatten =
        (storage g).take (g.position / g.baseSize * g.baseSize) :=
      flatten_take_blocks hg.blocks _
    have hlp : ((storage g).take (g.position / g.baseSize * g.baseSize)).length =
        g.position / g.baseSize * g.baseSize := by
      rw [List.length_take, hg.length_storage]; omega
    rw [storage, List.flatten_append, hover, hflat, hpre, ← hfresh, ← hpos]
    conv_rhs => rw [← List.take_append_drop (g.position / g.baseSize * g.baseSize) (storage g)]
    rw [overwrite_append_right _ (by rw [hlp]; omega), hlp]
    congr 2
    omega

theorem read_throws (h : s.size - s.position < n) :
    s.read n = .outOfRange "not enough length" s := by
  rw [ByteArrayState.read, getReadSize, if_pos h]

/-- A read that is covered by the size returns the bytes at the cursor. Nothing may be
asked for at the very end of the storage: there `m_cur` is null. -/
theorem read_spec (hs : Invariant s) {n : ℕ} (hn : n ≤ s.size - s.position)
    (hlt : s.position < s.capacity) :
    ∃ t, s.read n = .ok (((storage s).drop s.position).take n) t ∧ Invariant t ∧
      t.position = s.position + n ∧ t.size = s.size ∧ t.baseSize = s.baseSize ∧
      storage t = storage s := by
  have hple := hs.position_le
  have hsz := hs.size_le
  obtain ⟨hblocks, hmod, hflat⟩ := hs.chain
  have hloop := readLoop_spec hs.base_pos hblocks hmod (hs.chain_fits (n := n) (by omega))
  have hdm := Nat.div_add_mod s.position s.baseSize
  rw [Nat.mul_comm] at hdm
  refine ⟨{ s with cur := s.nodeAt ((s.position + n) / s.baseSize), position := s.position + n },
    ?_, ⟨hs.base_pos, hs.blocks, hs.capacity_eq, hs.nonempty, ?_, hsz, ?_⟩, rfl, rfl, rfl, rfl⟩
  · rw [ByteArrayState.read, getReadSize, if_neg (by omega), hs.cur_of_lt hlt]
    simp only [hloop, hs.position_div, hflat, List.drop_drop, hdm]
  · dsimp only; omega
  · exact hs.nodeAt_div (by omega)

theorem read_null (hs : Invariant s) (h : s.position = s.capacity) : s.read 0 = .nullDeref := by
  rw [ByteArrayState.read, if_neg (by omega), hs.cur_eq, if_pos h]

theorem setPosition_throws {v : ℕ} (h : s.capacity < v) :
    s.setPosition v = .outOfRange "set_position out of range" s := by
  rw [setPosition, if_pos h]

theorem setPosition_spec (hs : Invariant s) {v : ℕ} (hv : v ≤ s.capacity) :
    ∃ t, s.setPosition v = .ok () t ∧ Invariant t ∧ t.position = v ∧
      t.size = max s.size v ∧ t.baseSize = s.baseSize ∧ storage t = storage s := by
  have hne : s.nodes ≠ [] := fun h => by have := hs.nonempty; simp [h] at this
  have hseek := seekLoop_spec hs.base_pos hs.blocks hne (hs.capacity_eq ▸ hv)
  have hsz := hs.size_le
  rw [setPosition, if_neg (by omega), hseek]
  refine ⟨_, rfl, ⟨hs.base_pos, hs.blocks, hs.capacity_eq, hs.nonempty, ?_, ?_, ?_⟩,
    rfl, ?_, rfl, rfl⟩
  · dsimp only; split_ifs <;> omega
  · dsimp only; split_ifs <;> omega
  · exact hs.nodeAt_div hv
  · dsimp only; split_ifs <;> omega

theorem getWriteBuffers_spec (heap : Heap) (hs : Invariant s) {len : ℕ} (hl : len ≠ 0) :
    ∃ iovs, s.getWriteBuffers heap len = .ok (len, iovs) (s.addCapaticy heap len) ∧
      writeBuffersLoop ((s.addCapaticy heap len).nodes.drop (s.position / s.baseSize))
        (s.position / s.baseSize) (s.position % s.baseSize) len = some iovs := by
  obtain ⟨hg, hpos, hsize, hbase, hcap, -⟩ := addCapaticy_spec heap hs len
  rw [getWriteBuffers, if_neg hl, ← hpos, ← hbase]
  generalize s.addCapaticy heap len = g at *
  obtain ⟨hblocks, hmod, -⟩ := hg.chain
  obtain ⟨iovs, hloop⟩ := writeBuffersLoop_isSome hg.base_pos hblocks
    (g.position / g.baseSize) hmod (hg.chain_fits (n := len) (by omega))
  exact ⟨iovs, by simp only [hg.cur_of_lt (by omega), hloop], hloop⟩

end Operations

end SylarByteArray
