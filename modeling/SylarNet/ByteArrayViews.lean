import Mathlib.Order.Basic
import SylarNet.ByteArrayMethods
import SylarNet.ByteArrayWriteBuffers

/-!
# Looking at the content

Four member functions show the stored bytes and leave the array as it is. The two that take a
position do not take all of it from there: the copying one starts in the block of the cursor, and
both measure what is left behind the cursor.
-/
namespace SylarByteArray.ByteArrayState

/-- Copies from the block of `m_cur`, at the offset that `position` has in its block. -/
def readAt (s : ByteArrayState) (size position : ℕ) : Outcome (List UInt8) :=
  if s.getReadSize < size then .outOfRange "not enough length" s
  else
    match s.cur with
    | none => .nullDeref
    | some i =>
      match readLoop (s.nodes.drop i) (position % s.baseSize) size with
      | none => .nullDeref
      | some (buf, _) => .ok buf s

def toString (s : ByteArrayState) : Outcome (List UInt8) :=
  if s.getReadSize = 0 then .ok [] s
  else s.readAt s.getReadSize s.position

/-- The loop of both `getReadBuffers` on the chain that starts at node `i`. -/
def readBuffersLoop : List Node → ℕ → ℕ → ℕ → Option (List Iovec)
  | _, _, _, 0 => some []
  | [], _, _, _ + 1 => none
  | node :: rest, i, npos, n + 1 =>
    let ncap := node.length - npos
    if n + 1 ≤ ncap then some [⟨i, npos, n + 1⟩]
    else (readBuffersLoop rest (i + 1) 0 (n + 1 - ncap)).map (⟨i, npos, ncap⟩ :: ·)

/-- The value is the returned length together with the entries appended to `buffers`. -/
def getReadBuffers (s : ByteArrayState) (len : ℕ) : Outcome (ℕ × List Iovec) :=
  let len := if s.getReadSize < len then s.getReadSize else len
  if len = 0 then .ok (0, []) s
  else
    match s.cur with
    | none => .nullDeref
    | some i =>
      match readBuffersLoop (s.nodes.drop i) i (s.position % s.baseSize) len with
      | none => .nullDeref
      | some iovs => .ok (len, iovs) s

/-- The walk to the block of `position` ends with the null pointer when there are too few. -/
def getReadBuffersAt (s : ByteArrayState) (len position : ℕ) : Outcome (ℕ × List Iovec) :=
  let len := if s.getReadSize < len then s.getReadSize else len
  if len = 0 then .ok (0, []) s
  else
    match s.nodeAt (position / s.baseSize) with
    | none => .nullDeref
    | some i =>
      match readBuffersLoop (s.nodes.drop i) i (position % s.baseSize) len with
      | none => .nullDeref
      | some iovs => .ok (len, iovs) s

end SylarByteArray.ByteArrayState

namespace ByteArrayViews

open ListOverwrite SylarByteArray SylarByteArray.ByteArrayState ByteArrayRefinement
  ByteArrayWriteBuffers
open ByteArrayMethods (write_frame setPosition_frame)

/-- The bytes that an entry points to. -/
def slice (nodes : List Node) (v : Iovec) : List UInt8 :=
  ((nodes.getD v.node []).drop v.offset).take v.len

def InBlock (nodes : List Node) (v : Iovec) : Prop :=
  ∃ block, nodes[v.node]? = some block ∧ v.offset + v.len ≤ block.length

/-- The entries lie in their blocks and stand for these `n` positions from `p` on. -/
structure Covers (s : ByteArrayState) (p n : ℕ) (iovs : List Iovec) : Prop where
  inside : ∀ v ∈ iovs, InBlock s.nodes v
  positions_eq : iovs.flatMap (positions s.baseSize) = List.range' p n

section Slices

variable {s : ByteArrayState} {p n : ℕ} {iovs : List Iovec}

theorem slice_eq (hs : Invariant s) {v : Iovec} (h : InBlock s.nodes v) :
    v.node * s.baseSize + v.offset + v.len ≤ (storage s).length ∧
      slice s.nodes v = ((storage s).drop (v.node * s.baseSize + v.offset)).take v.len := by
  obtain ⟨block, hblock, hle⟩ := h
  obtain ⟨hlt, hget⟩ := List.getElem?_eq_some_iff.1 hblock
  have hlen : block.length = s.baseSize := hs.blocks block (List.mem_of_getElem? hblock)
  constructor
  · rw [hs.length_storage, hs.capacity_eq]
    have hmul : (v.node + 1) * s.baseSize ≤ s.nodes.length * s.baseSize :=
      Nat.mul_le_mul_right _ hlt
    rw [Nat.succ_mul] at hmul
    omega
  · have hflat := flatten_drop_blocks hs.blocks v.node
    rw [List.drop_eq_getElem_cons hlt, hget, List.flatten_cons] at hflat
    rw [slice, List.getD_eq_getElem?_getD, hblock, Option.getD_some, ← List.drop_drop]
    rw [storage, ← hflat, List.drop_append_of_le_length (by omega),
      List.take_append_of_le_length (by rw [List.length_drop]; omega)]

theorem range'_getD {l : List UInt8} (h : p + n ≤ l.length) :
    (List.range' p n).map (l.getD · 0) = (l.drop p).take n := by
  apply List.ext_getElem
  · simp only [List.length_map, List.length_range', List.length_take, List.length_drop]
    omega
  · intro i hi _
    simp only [List.length_map, List.length_range'] at hi
    rw [List.getElem_map, List.getElem_range', List.getElem_take, List.getElem_drop, Nat.one_mul]
    exact (List.getElem_eq_getD 0).symm

/-- The entries point to the bytes that are stored at their positions. -/
theorem Covers.slices (hs : Invariant s) (h : Covers s p n iovs) (hle : p + n ≤ s.capacity) :
    iovs.flatMap (slice s.nodes) = ((storage s).drop p).take n := by
  have hmap : iovs.flatMap (slice s.nodes) =
      (iovs.flatMap (positions s.baseSize)).map ((storage s).getD · 0) := by
    rw [List.map_flatMap]
    apply List.flatMap_congr
    intro v hv
    obtain ⟨hfit, hslice⟩ := slice_eq hs (h.inside v hv)
    rw [hslice, positions, range'_getD hfit]
  rw [hmap, h.positions_eq]
  apply range'_getD
  rw [hs.length_storage]
  exact hle

end Slices

section Observers

variable {s : ByteArrayState}

/-- Entry after entry the loop goes on where the last one ended. -/
theorem readBuffersLoop_spec {b : ℕ} {chain : List Node} {npos n : ℕ} (i : ℕ) (hb : 1 ≤ b)
    (hc : ∀ x ∈ chain, x.length = b) (hn : npos < b) (hfit : npos + n ≤ chain.length * b) :
    ∃ iovs, readBuffersLoop chain i npos n = some iovs ∧
      (∀ v ∈ iovs, 1 ≤ v.len ∧ i ≤ v.node ∧ v.node < i + chain.length ∧ v.offset + v.len ≤ b) ∧
      iovs.flatMap (positions b) = List.range' (i * b + npos) n := by
  induction chain generalizing npos n i with
  | nil =>
    have hz : n = 0 := by
      rw [List.length_nil, Nat.zero_mul] at hfit
      omega
    subst hz
    exact ⟨[], by rw [readBuffersLoop], by simp, rfl⟩
  | cons node rest ih =>
    have hlen : node.length = b := hc node List.mem_cons_self
    cases n with
    | zero => exact ⟨[], by rw [readBuffersLoop], by simp, rfl⟩
    | succ n =>
      rw [readBuffersLoop, hlen]
      by_cases hle : n + 1 ≤ b - npos
      · refine ⟨[⟨i, npos, n + 1⟩], if_pos hle, ?_, ?_⟩
        · intro v hv
          rw [List.mem_singleton] at hv
          subst hv
          rw [List.length_cons]
          dsimp only
          omega
        · rw [List.flatMap_singleton, positions]
      · have hfit' : 0 + (n + 1 - (b - npos)) ≤ rest.length * b := by
          rw [List.length_cons, Nat.succ_mul] at hfit
          omega
        obtain ⟨iovs, hloop, hall, hpositions⟩ :=
          ih (i + 1) (fun x hx => hc x (List.mem_cons_of_mem node hx)) (by omega) hfit'
        refine ⟨⟨i, npos, b - npos⟩ :: iovs, ?_, ?_, ?_⟩
        · rw [if_neg hle, hloop]
          rfl
        · rw [List.forall_mem_cons, List.length_cons]
          refine ⟨by dsimp only; omega, ?_⟩
          intro v hv
          have hv' := hall v hv
          omega
        · have hnext : (i + 1) * b + 0 = i * b + npos + (b - npos) := by
            rw [Nat.succ_mul]
            omega
          have hsum : b - npos + (n + 1 - (b - npos)) = n + 1 := by omega
          rw [List.flatMap_cons, hpositions, positions, hnext, List.range'_append_1, hsum]

/-- From the block of a position on, the loop covers what is asked for as far as there are
blocks. -/
theorem readBuffersLoop_covers (hs : Invariant s) {p n : ℕ} (hle : p + n ≤ s.capacity) :
    ∃ iovs, readBuffersLoop (s.nodes.drop (p / s.baseSize)) (p / s.baseSize) (p % s.baseSize) n =
      some iovs ∧ Covers s p n iovs ∧ ∀ v ∈ iovs, 1 ≤ v.len := by
  have hb := hs.base_pos
  have hdm := Nat.div_add_mod' p s.baseSize
  have hfit : p % s.baseSize + n ≤ (s.nodes.drop (p / s.baseSize)).length * s.baseSize := by
    have hc := hs.capacity_eq
    rw [List.length_drop, Nat.sub_mul]
    omega
  obtain ⟨iovs, hloop, hall, hpositions⟩ := readBuffersLoop_spec (p / s.baseSize) hb
    (fun x hx => hs.blocks x (List.mem_of_mem_drop hx)) (Nat.mod_lt p hb) hfit
  rw [hdm] at hpositions
  refine ⟨iovs, hloop, ⟨?_, hpositions⟩, fun v hv => (hall v hv).1⟩
  intro v hv
  obtain ⟨-, hge, hlt, hend⟩ := hall v hv
  rw [List.length_drop] at hlt
  have hnode : v.node < s.nodes.length := by omega
  refine ⟨s.nodes[v.node], List.getElem?_eq_getElem hnode, ?_⟩
  rw [hs.blocks _ (List.getElem_mem hnode)]
  exact hend

theorem getReadBuffers_spec (hs : Invariant s) (len : ℕ) :
    ∃ iovs, s.getReadBuffers len = .ok (min len s.getReadSize, iovs) s ∧
      Covers s s.position (min len s.getReadSize) iovs ∧ ∀ v ∈ iovs, 1 ≤ v.len := by
  rw [getReadBuffers, ← min_def_lt, Nat.min_comm]
  have hleft : min len s.getReadSize ≤ s.size - s.position := Nat.min_le_right _ _
  generalize min len s.getReadSize = k at *
  by_cases hk : k = 0
  · subst hk
    exact ⟨[], if_pos rfl, ⟨by simp, rfl⟩, by simp⟩
  · have hsize := hs.size_le
    obtain ⟨iovs, hloop, hcovers, hne⟩ :=
      readBuffersLoop_covers hs (show s.position + k ≤ s.capacity by omega)
    refine ⟨iovs, ?_, hcovers, hne⟩
    rw [if_neg hk, hs.cur_of_lt (by omega)]
    dsimp only
    rw [hloop]

/-- The bytes that the cursor has not passed. -/
theorem toString_spec (hs : Invariant s) :
    s.toString = .ok (((storage s).drop s.position).take s.getReadSize) s := by
  rw [ByteArrayState.toString]
  by_cases hempty : s.getReadSize = 0
  · rw [if_pos hempty, hempty, List.take_zero]
  · have hleft : s.getReadSize = s.size - s.position := rfl
    have hsize := hs.size_le
    obtain ⟨hblocks, hmod, hflat⟩ := hs.chain
    have hloop := readLoop_spec hs.base_pos hblocks hmod
      (hs.chain_fits (n := s.getReadSize) (by omega))
    rw [if_neg hempty, readAt, if_neg (lt_irrefl _), hs.cur_of_lt (by omega)]
    dsimp only
    rw [hloop, hflat, List.drop_drop, Nat.div_add_mod']

end Observers

/-- Whatever is asked for, the entries, the text and a read show the same bytes. -/
theorem read_observers_agree (heap : Heap) {base : ℕ} (hb : 1 ≤ base) {s : ByteArrayState}
    (hs : Reachable heap base s) (len : ℕ) :
    ∃ str iovs, s.toString = .ok str s ∧ str.length = s.getReadSize ∧
      s.getReadBuffers len = .ok (min len s.getReadSize, iovs) s ∧
      (∀ v ∈ iovs, 1 ≤ v.len ∧ InBlock s.nodes v) ∧
      iovs.flatMap (slice s.nodes) = str.take (min len s.getReadSize) ∧
      (1 ≤ min len s.getReadSize → ∃ t,
        s.read (min len s.getReadSize) = .ok (str.take (min len s.getReadSize)) t) := by
  obtain ⟨hinv, -⟩ := reachable_invariant hb hs
  have hsize := hinv.size_le
  have hleft : s.getReadSize = s.size - s.position := rfl
  have hmin : min len s.getReadSize ≤ s.getReadSize := Nat.min_le_right _ _
  obtain ⟨iovs, hbuffers, hcovers, hne⟩ := getReadBuffers_spec hinv len
  have htake : (((storage s).drop s.position).take s.getReadSize).take (min len s.getReadSize) =
      ((storage s).drop s.position).take (min len s.getReadSize) := by
    rw [List.take_take, Nat.min_eq_left hmin]
  refine ⟨_, iovs, toString_spec hinv, ?_, hbuffers, fun v hv => ⟨hne v hv, hcovers.inside v hv⟩,
    ?_, ?_⟩
  · have hposition := hinv.position_le
    rw [List.length_take, List.length_drop, hinv.length_storage]
    omega
  · rw [htake]
    apply hcovers.slices hinv
    have hposition := hinv.position_le
    omega
  · intro hk
    rw [htake]
    obtain ⟨t, ht, -⟩ := read_spec hinv (show min len s.getReadSize ≤ s.size - s.position from hmin)
      (by omega)
    exact ⟨t, ht⟩

/-- What is left of three bytes in blocks of two when the cursor is behind the first. -/
theorem read_observers_agree_two_blocks :
    ∃ t, read ⟨2, 1, 4, 3, .big, [[1, 2], [3, 0]], some 0⟩ 2 = .ok [2, 3] t := by
  obtain ⟨str, -, hstr, -, -, -, -, hread⟩ := read_observers_agree (fun _ _ => 0)
    (show 1 ≤ 2 by decide) (s := ⟨2, 1, 4, 3, .big, [[1, 2], [3, 0]], some 0⟩)
    ⟨[.write [1, 2, 3], .setPosition 1], [.done, .done], by decide⟩ 5
  have hstored : ByteArrayState.toString ⟨2, 1, 4, 3, .big, [[1, 2], [3, 0]], some 0⟩ =
      .ok [2, 3] ⟨2, 1, 4, 3, .big, [[1, 2], [3, 0]], some 0⟩ := by decide
  cases hstored.symm.trans hstr
  exact hread (by decide)

/-- The calls with a position take the bytes from there, whatever the cursor is at, and do not
go behind the last of them. -/
def PositionalAccess (s : ByteArrayState) (p n : ℕ) : Prop :=
  (p + n ≤ s.size →
    s.readAt n p = .ok (((storage s).drop p).take n) s ∧
    ∃ iovs, s.getReadBuffersAt n p = .ok (n, iovs) s ∧ Covers s p n iovs) ∧
  (s.size < p + n →
    (∃ what, s.readAt n p = .outOfRange what s) ∧
    ∃ iovs, s.getReadBuffersAt n p = .ok (s.size - p, iovs) s ∧ Covers s p (s.size - p) iovs)

section Positions

variable {s : ByteArrayState} {p n : ℕ}

/-- The bytes at the offset of `p` in the block of the cursor. -/
def cursorBlockBytes (s : ByteArrayState) (p n : ℕ) : List UInt8 :=
  ((storage s).drop (s.position / s.baseSize * s.baseSize + p % s.baseSize)).take n

/-- A position in the block of the cursor is the one that is read from. -/
theorem cursorBlockBytes_same (h : p / s.baseSize = s.position / s.baseSize) (n : ℕ) :
    cursorBlockBytes s p n = ((storage s).drop p).take n := by
  rw [cursorBlockBytes, ← h, Nat.div_add_mod']

/-- The copying loop follows the null pointer when it is asked for more than there is. -/
theorem readLoop_none {b : ℕ} {chain : List Node} {npos n : ℕ} (hc : ∀ x ∈ chain, x.length = b)
    (hn : npos < b) (hask : 1 ≤ n) (hover : chain.length * b < npos + n) :
    readLoop chain npos n = none := by
  induction chain generalizing npos n with
  | nil =>
    cases n with
    | zero => omega
    | succ n => rw [readLoop]
  | cons node rest ih =>
    have hlen : node.length = b := hc node List.mem_cons_self
    rw [List.length_cons, Nat.succ_mul] at hover
    cases n with
    | zero => omega
    | succ n =>
      have hrest : readLoop rest 0 (n + 1 - (b - npos)) = none := by
        apply ih (fun x hx => hc x (List.mem_cons_of_mem node hx))
        all_goals omega
      rw [readLoop, hlen, if_neg (by omega), hrest]
      rfl

/-- The block of the cursor is one of the blocks. -/
theorem cursor_block (hs : Invariant s) (hin : s.position < s.capacity) :
    s.position / s.baseSize * s.baseSize + s.baseSize ≤ s.capacity := by
  have hlt : s.position / s.baseSize < s.nodes.length := by
    rw [Nat.div_lt_iff_lt_mul hs.base_pos, ← hs.capacity_eq]
    exact hin
  rw [← Nat.succ_mul, hs.capacity_eq]
  exact Nat.mul_le_mul_right _ hlt

/-- What the copying function does when it does not throw. -/
theorem readAt_eq (hs : Invariant s) (hleft : n ≤ s.size - s.position) :
    s.readAt n p =
      if s.position < s.capacity ∧
        s.position / s.baseSize * s.baseSize + p % s.baseSize + n ≤ s.capacity
      then .ok (cursorBlockBytes s p n) s else .nullDeref := by
  have hb := hs.base_pos
  have hstart : s.position / s.baseSize * s.baseSize ≤ s.position := Nat.div_mul_le_self _ _
  have hsize := hs.size_le
  have hposition := hs.position_le
  obtain ⟨hblocks, -, hflat⟩ := hs.chain
  have hlength : (s.nodes.drop (s.position / s.baseSize)).length * s.baseSize =
      s.capacity - s.position / s.baseSize * s.baseSize := by
    rw [List.length_drop, Nat.sub_mul, hs.capacity_eq]
  have hmod : p % s.baseSize < s.baseSize := Nat.mod_lt p hb
  rw [readAt, if_neg (show ¬ s.getReadSize < n from Nat.not_lt.2 hleft)]
  by_cases hin : s.position < s.capacity
  · rw [hs.cur_of_lt hin]
    dsimp only
    by_cases hfit : s.position / s.baseSize * s.baseSize + p % s.baseSize + n ≤ s.capacity
    · rw [if_pos ⟨hin, hfit⟩, readLoop_spec hb hblocks hmod (by omega), hflat, List.drop_drop]
      rfl
    · have hblock := cursor_block hs hin
      rw [if_neg (fun h => hfit h.2), readLoop_none hblocks hmod (by omega) (by omega)]
  · rw [if_neg (fun h => hin h.1), hs.cur_eq, if_pos (by omega)]

/-- The entries begin at the position, and are as many as the cursor has bytes left for. -/
theorem getReadBuffersAt_spec (hs : Invariant s) (hle : p + min n s.getReadSize ≤ s.capacity) :
    ∃ iovs, s.getReadBuffersAt n p = .ok (min n s.getReadSize, iovs) s ∧
      Covers s p (min n s.getReadSize) iovs := by
  rw [getReadBuffersAt, ← min_def_lt, Nat.min_comm]
  generalize min n s.getReadSize = k at *
  by_cases hk : k = 0
  · subst hk
    exact ⟨[], if_pos rfl, ⟨by simp, rfl⟩⟩
  · obtain ⟨iovs, hloop, hcovers, -⟩ := readBuffersLoop_covers hs hle
    refine ⟨iovs, ?_, hcovers⟩
    rw [if_neg hk, hs.nodeAt_div (by omega), if_neg (by omega)]
    dsimp only
    rw [hloop]

theorem getReadBuffersAt_length {k : ℕ} {iovs : List Iovec} {t : ByteArrayState}
    (h : s.getReadBuffersAt n p = .ok (k, iovs) t) : k = min n s.getReadSize := by
  rw [getReadBuffersAt, ← min_def_lt, Nat.min_comm] at h
  split at h
  · rename_i hzero
    cases h
    exact hzero.symm
  · split at h
    · cases h
    · split at h
      · cases h
      · cases h
        rfl

/-- What the calls need of the cursor: for bytes that are there, as many left behind it, a block
to start from, and that block being the one of the position unless nothing is asked for. More
than there are is refused when the cursor is at the position. -/
structure CursorFits (s : ByteArrayState) (p n : ℕ) : Prop where
  left : p + n ≤ s.size → n ≤ s.size - s.position
  inside : p + n ≤ s.size → s.position < s.capacity
  block : p + n ≤ s.size → n = 0 ∨ p / s.baseSize = s.position / s.baseSize
  behind : s.size < p + n → s.position = p

theorem access_of_cursorFits (hs : Invariant s) (h : CursorFits s p n) :
    PositionalAccess s p n := by
  have hleft : s.getReadSize = s.size - s.position := rfl
  have hsize := hs.size_le
  have hposition := hs.position_le
  constructor
  · intro hle
    have hn := h.left hle
    have hin := h.inside hle
    have hclip : min n s.getReadSize = n := Nat.min_eq_left hn
    have hbuffers := getReadBuffersAt_spec (p := p) (n := n) hs (by omega)
    rw [hclip] at hbuffers
    refine ⟨?_, hbuffers⟩
    rcases h.block hle with rfl | hblock
    · have hcursor := cursor_block hs hin
      have hmod : p % s.baseSize < s.baseSize := Nat.mod_lt p hs.base_pos
      rw [readAt_eq hs hn, if_pos ⟨hin, by omega⟩, cursorBlockBytes, List.take_zero,
        List.take_zero]
    · have hdm := Nat.div_add_mod' p s.baseSize
      rw [readAt_eq hs hn, if_pos ⟨hin, by rw [← hblock, hdm]; omega⟩,
        cursorBlockBytes_same hblock]
  · intro hgt
    have hat := h.behind hgt
    have hclip : min n s.getReadSize = s.size - p := by omega
    have hbuffers := getReadBuffersAt_spec (p := p) (n := n) hs (by omega)
    rw [hclip] at hbuffers
    exact ⟨⟨_, if_pos (by omega)⟩, hbuffers⟩

/-- The part of the condition that no content makes up for. -/
theorem cursor_of_access (hs : Invariant s) (hp : p ≤ s.size) (h : PositionalAccess s p n) :
    (p + n ≤ s.size → n ≤ s.size - s.position ∧ s.position < s.capacity) ∧
      (s.size < p + n → s.position = p) := by
  obtain ⟨hinside, hbehind⟩ := h
  have hleft : s.getReadSize = s.size - s.position := rfl
  have hposition := hs.position_le
  constructor
  · intro hle
    obtain ⟨hread, iovs, hbuffers, -⟩ := hinside hle
    have hclip := getReadBuffersAt_length hbuffers
    have hn : n ≤ s.size - s.position := by omega
    rw [readAt_eq hs hn] at hread
    split_ifs at hread with hok
    exact ⟨hn, hok.1⟩
  · intro hgt
    obtain ⟨-, iovs, hbuffers, -⟩ := hbehind hgt
    have hclip := getReadBuffersAt_length hbuffers
    omega

end Positions

section Contents

variable {heap : Heap} {base : ℕ} {s : ByteArrayState} {p n : ℕ}

/-- Two arrays that differ in their bytes at most. -/
structure Alike (s t : ByteArrayState) : Prop where
  base : t.baseSize = s.baseSize
  size : t.size = s.size
  capacity : t.capacity = s.capacity
  position : t.position = s.position

theorem write_capacity {t : ByteArrayState} {buf : List UInt8}
    (hfit : s.position + buf.length ≤ s.capacity) (h : s.write heap buf = .ok () t) :
    t.capacity = s.capacity := by
  have hsame : s.addCapaticy heap buf.length = s := by
    have hroom : buf.length ≤ s.getCapacity := by
      unfold getCapacity
      omega
    simp only [addCapaticy, hroom, if_true, ite_self]
  rw [(write_frame h).2, hsame]

/-- Any stored byte can be replaced, with the cursor where it was. -/
theorem exists_with_byte (hb : 1 ≤ base) (hs : Reachable heap base s) (hp : p < s.size)
    (x : UInt8) :
    ∃ t, Reachable heap base t ∧ Alike s t ∧ storage t = overwrite (storage s) p [x] := by
  obtain ⟨hinv, -⟩ := reachable_invariant hb hs
  have hsize := hinv.size_le
  have hposition := hinv.position_le
  obtain ⟨u, hu, huinv, hupos, husize, hubase, hustore⟩ :=
    setPosition_spec hinv (v := p) (by omega)
  have hucap := (setPosition_frame hu).2
  obtain ⟨v, fresh, hv, hvinv, -, hvsize, hvbase, hvstore⟩ := write_spec heap huinv [x]
  have hvcap := write_capacity (by simp only [List.length_singleton]; omega) hv
  rw [List.length_singleton] at hvsize
  obtain ⟨t, ht, -, htpos, htsize, htbase, htstore⟩ :=
    setPosition_spec hvinv (v := s.position) (by omega)
  have htcap := (setPosition_frame ht).2
  refine ⟨t, ?_, ⟨by omega, by omega, by omega, htpos⟩, ?_⟩
  · have hseek : step heap s (.setPosition p) = some (.done, u) := by rw [step, hu]; rfl
    have hwrite : step heap u (.write [x]) = some (.done, v) := by rw [step, hv]; rfl
    have hback : step heap v (.setPosition s.position) = some (.done, t) := by rw [step, ht]; rfl
    exact ((hs.after hseek).after hwrite).after hback
  · -- nothing was added behind the blocks
    have hlength := congrArg List.length hvstore
    have hlong : u.position + [x].length ≤ (storage u ++ fresh).length := by
      rw [List.length_append, huinv.length_storage, List.length_singleton]
      omega
    rw [hvinv.length_storage, length_overwrite hlong, List.length_append,
      huinv.length_storage] at hlength
    have hfresh : fresh = [] := List.length_eq_zero_iff.1 (by omega)
    rw [htstore, hvstore, hfresh, List.append_nil, hupos, hustore]

/-- With another byte in the block of the cursor the copying function is wrong. -/
theorem exists_wrong (hb : 1 ≤ base) (hs : Reachable heap base s) (hn : n ≠ 0)
    (hle : p + n ≤ s.size) (hblock : p / s.baseSize ≠ s.position / s.baseSize) :
    ∃ t, Reachable heap base t ∧ Alike s t ∧ ¬ PositionalAccess t p n := by
  obtain ⟨hinv, -⟩ := reachable_invariant hb hs
  have hsize := hinv.size_le
  -- the byte that is taken for the one at `p`
  obtain ⟨q, hq⟩ : ∃ q, q = s.position / s.baseSize * s.baseSize + p % s.baseSize := ⟨_, rfl⟩
  have hqp : q ≠ p := by
    intro heq
    have hdm := Nat.div_add_mod' p s.baseSize
    exact hblock (Nat.eq_of_mul_eq_mul_right hinv.base_pos (by omega))
  obtain ⟨x, hx⟩ : ∃ x : UInt8, (storage s)[q]? ≠ some x := by
    by_cases hzero : (storage s)[q]? = some 0
    · exact ⟨1, by simp [hzero]⟩
    · exact ⟨0, hzero⟩
  obtain ⟨t, ht, halike, hstore⟩ := exists_with_byte hb hs (show p < s.size by omega) x
  refine ⟨t, ht, halike, fun haccess => hx ?_⟩
  obtain ⟨htinv, -⟩ := reachable_invariant hb ht
  have hlet : p + n ≤ t.size := halike.size ▸ hle
  obtain ⟨hread, -⟩ := haccess.1 hlet
  rw [readAt_eq htinv ((cursor_of_access htinv (by omega) haccess).1 hlet).1] at hread
  split_ifs at hread
  rw [Outcome.ok.injEq] at hread
  have hfirst := congrArg (fun l : List UInt8 => l[0]?) hread.1
  have hpos : 0 < n := by omega
  simp only [cursorBlockBytes, List.getElem?_take_of_lt hpos, List.getElem?_drop, Nat.add_zero,
    halike.base, halike.position, ← hq, hstore] at hfirst
  have hlength : p ≤ (storage s).length := by
    rw [hinv.length_storage]
    omega
  have hkept : (overwrite (storage s) p [x])[q]? = (storage s)[q]? := by
    rcases Nat.lt_or_gt_of_ne hqp with hlt | hgt
    · exact getElem?_overwrite_left hlt hlength
    · exact getElem?_overwrite_right hgt hlength
  have hset : (overwrite (storage s) p [x])[p]? = some x := by
    have hdrop := drop_overwrite hlength [x]
    have hget := congrArg (fun l : List UInt8 => l[0]?) hdrop
    simpa using hget
  rw [← hkept, hfirst, hset]

end Contents

/-- Access by position is right whenever the cursor is in the block of the position, and
wherever the condition fails it is wrong in some array that differs in its bytes at most. -/
theorem positional_access_of_same_block (heap : Heap) {base : ℕ} (hb : 1 ≤ base)
    {s : ByteArrayState} (hs : Reachable heap base s) {p : ℕ} (hp : p ≤ s.size) (n : ℕ) :
    (CursorFits s p n → PositionalAccess s p n) ∧
      (¬ CursorFits s p n →
        ∃ t, Reachable heap base t ∧ Alike s t ∧ ¬ PositionalAccess t p n) := by
  obtain ⟨hinv, -⟩ := reachable_invariant hb hs
  refine ⟨access_of_cursorFits hinv, fun hnot => ?_⟩
  by_cases haccess : PositionalAccess s p n
  · obtain ⟨hinside, hbehind⟩ := cursor_of_access hinv hp haccess
    have hblock : p + n ≤ s.size ∧ n ≠ 0 ∧ p / s.baseSize ≠ s.position / s.baseSize := by
      by_contra hall
      refine hnot ⟨fun hle => (hinside hle).1, fun hle => (hinside hle).2, ?_, hbehind⟩
      intro hle
      by_contra hother
      exact hall ⟨hle, not_or.1 hother⟩
    exact exists_wrong hb hs hblock.2.1 hblock.1 hblock.2.2
  · exact ⟨s, hs, ⟨rfl, rfl, rfl, rfl⟩, haccess⟩

/-- The cursor and the position are in the same block. -/
theorem positional_access_same_block :
    PositionalAccess ⟨4, 1, 4, 3, .big, [[1, 2, 3, 0]], some 0⟩ 2 1 :=
  (positional_access_of_same_block (fun _ _ => 0) (show 1 ≤ 4 by decide)
    ⟨[.write [1, 2, 3], .setPosition 1], [.done, .done], by decide⟩ (show 2 ≤ 3 by decide) 1).1
    ⟨by decide, by decide, by decide, by decide⟩

/-- Of five bytes in blocks of two, the fourth is asked for with the cursor in the first block. -/
theorem positional_access_other_block :
    ¬ ∀ (heap : Heap) (base : ℕ), 1 ≤ base → ∀ s, Reachable heap base s → ∀ p, p ≤ s.size → ∀ n,
      PositionalAccess s p n := by
  intro h
  have haccess := h (fun _ _ => 0) 2 (by decide)
    ⟨2, 0, 6, 5, .big, [[1, 2], [3, 4], [5, 0]], some 0⟩
    ⟨[.write [1, 2, 3, 4, 5], .setPosition 0], [.done, .done], by decide⟩ 3 (by decide) 1
  exact absurd (haccess.1 (by decide)).1 (by decide)

end ByteArrayViews
