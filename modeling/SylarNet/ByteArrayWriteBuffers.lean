import SylarNet.ByteArrayRefinement

/-!
# Receiving into the byte array

`SocketStream::read(ByteArray)` hands the entries of `getWriteBuffers` to `recvmsg`, which
trusts every `iov_len`, and then moves the cursor behind what arrived.
-/
namespace ByteArrayWriteBuffers

open ListOverwrite SylarByteArray SylarByteArray.ByteArrayState ByteArrayRefinement

/-- The byte positions of the whole array an entry stands for. -/
def positions (base : ℕ) (v : Iovec) : List ℕ := List.range' (v.node * base + v.offset) v.len

/-- `recvmsg` fills the entries in order. `none`: a byte was stored outside its block. -/
def scatter : List Node → List Iovec → List UInt8 → Option (List Node)
  | nodes, _, [] => some nodes
  | nodes, [], _ :: _ => some nodes
  | nodes, v :: vs, b :: bs =>
    let part := (b :: bs).take v.len
    match nodes[v.node]? with
    | none => none
    | some block =>
      if v.offset + part.length ≤ block.length then
        scatter (nodes.set v.node (overwrite block v.offset part)) vs ((b :: bs).drop v.len)
      else none

/-- What `m_socket->recv` does: it delivers bytes and returns their number, or it returns a
value that is not positive. -/
inductive Recv where
  | data (bytes : List UInt8)
  | failed (rt : ℤ)
  deriving DecidableEq, Repr

inductive ReadOutcome where
  | returned (rt : ℤ) (s : ByteArrayState)
  | outOfRange (what : String) (s : ByteArrayState)
  | nullDeref
  | overrun
  deriving DecidableEq, Repr

def socketStreamRead (heap : Heap) (isConnected : Bool) (ba : ByteArrayState) (length : ℕ)
    (recv : Recv) : ReadOutcome :=
  if !isConnected then .returned (-1) ba
  else
    match ba.getWriteBuffers heap length with
    | .nullDeref => .nullDeref
    | .outOfRange what s => .outOfRange what s
    | .ok (_, iovs) s =>
      match recv with
      | .failed rt => .returned rt s
      | .data bytes =>
        match scatter s.nodes iovs bytes with
        | none => .overrun
        | some nodes =>
          let s := { s with nodes := nodes }
          if 0 < bytes.length then
            match s.setPosition (s.getPosition + bytes.length) with
            | .nullDeref => .nullDeref
            | .outOfRange what s => .outOfRange what s
            | .ok _ s => .returned bytes.length s
          else .returned bytes.length s

/-- The entries lie in their blocks, are in order, cover exactly the storage asked for, and
receiving through them changes exactly the received positions. -/
def WriteBuffersExact (heap : Heap) (s : ByteArrayState) (len : ℕ) : Prop :=
  ∃ iovs t, s.getWriteBuffers heap len = .ok (len, iovs) t ∧
    (∀ v ∈ iovs, ∃ block, t.nodes[v.node]? = some block ∧ v.offset + v.len ≤ block.length) ∧
    (iovs.map Iovec.len).sum = len ∧
    iovs.flatMap (positions t.baseSize) = List.range' s.position len ∧
    (∃ fresh, storage t = storage s ++ fresh) ∧
    ∀ bytes : List UInt8, 1 ≤ bytes.length → bytes.length ≤ len →
      ∃ u, socketStreamRead heap true s len (.data bytes) = .returned bytes.length u ∧
        u.position = s.position + bytes.length ∧
        ((storage u).drop s.position).take bytes.length = bytes ∧
        ∀ i, i < s.position ∨ s.position + bytes.length ≤ i → (storage u)[i]? = (storage t)[i]?

variable {heap : Heap} {s : ByteArrayState}

theorem invariant_of_nodes {nodes : List Node} (hs : Invariant s)
    (hb : ∀ x ∈ nodes, x.length = s.baseSize) (hl : nodes.length = s.nodes.length) :
    Invariant { s with nodes := nodes } :=
  ⟨hs.base_pos, hb, by rw [hs.capacity_eq, ← hl], by rw [hl]; exact hs.nonempty,
    hs.position_le, hs.size_le, hs.cur_eq⟩

/-- The block of the cursor, which the first entry of `getWriteBuffers` points into. -/
theorem current_block {t : ByteArrayState} (ht : Invariant t) (h : t.position < t.capacity) :
    ∃ block rest, t.nodes.drop (t.position / t.baseSize) = block :: rest ∧
      t.nodes[t.position / t.baseSize]? = some block ∧ block.length = t.baseSize := by
  have hlt : t.position / t.baseSize < t.nodes.length := by
    rw [Nat.div_lt_iff_lt_mul ht.base_pos, ← ht.capacity_eq]
    exact h
  refine ⟨_, _, List.drop_eq_getElem_cons hlt, List.getElem?_eq_getElem hlt, ?_⟩
  exact ht.blocks _ (List.getElem_mem hlt)

/-- The loop begins at the offset of the cursor in its block. -/
theorem getWriteBuffers_first (heap : Heap) (hs : Invariant s) {len : ℕ} (hl : 1 ≤ len) :
    ∃ iovs block rest, block.length = s.baseSize ∧
      s.getWriteBuffers heap len = .ok (len, iovs) (s.addCapaticy heap len) ∧
      writeBuffersLoop (block :: rest) (s.position / s.baseSize) (s.position % s.baseSize) len =
        some iovs := by
  obtain ⟨iovs, hw, hloop⟩ := getWriteBuffers_spec heap hs (show len ≠ 0 by omega)
  obtain ⟨ht, hpos, -, hbase, hcap, -⟩ := addCapaticy_spec heap hs len
  obtain ⟨block, rest, hdrop, -, hlen⟩ := current_block ht (by omega)
  rw [hpos, hbase] at hdrop
  rw [hdrop] at hloop
  exact ⟨iovs, block, rest, hlen.trans hbase, hw, hloop⟩

/-- A request that the current block holds yields one entry. -/
theorem single_entry (heap : Heap) (hs : Invariant s) {len : ℕ} (hl : 1 ≤ len)
    (hfit : s.position % s.baseSize + len ≤ s.baseSize) :
    s.getWriteBuffers heap len = .ok (len,
      [⟨s.position / s.baseSize, s.position % s.baseSize, len⟩]) (s.addCapaticy heap len) := by
  obtain ⟨iovs, block, rest, hlen, hw, hloop⟩ := getWriteBuffers_first heap hs hl
  cases len with
  | zero => omega
  | succ n =>
    rw [writeBuffersLoop, if_pos (by omega), Option.some.injEq] at hloop
    rw [hw, hloop]

/-- A request that crosses the end of the current block gets a first entry that runs over
the block: it carries the whole length. -/
theorem crossing_entry (heap : Heap) (hs : Invariant s) {len : ℕ} (hl : 1 ≤ len)
    (hcross : s.baseSize < s.position % s.baseSize + len) :
    ∃ iovs, s.getWriteBuffers heap len = .ok (len,
      ⟨s.position / s.baseSize, s.position % s.baseSize, len⟩ :: iovs)
        (s.addCapaticy heap len) := by
  obtain ⟨iovs, block, rest, hlen, hw, hloop⟩ := getWriteBuffers_first heap hs hl
  cases len with
  | zero => omega
  | succ n =>
    rw [writeBuffersLoop, if_neg (by omega), Option.map_eq_some_iff] at hloop
    obtain ⟨tail, -, htail⟩ := hloop
    exact ⟨tail, by rw [hw, ← htail]⟩

/-- Bytes that the current block has room for are stored at the cursor. -/
theorem overwrite_cursor {t : ByteArrayState} (ht : Invariant t) {block : Node}
    (hblock : t.nodes[t.position / t.baseSize]? = some block) {bytes : List UInt8}
    (hfits : t.position % t.baseSize + bytes.length ≤ t.baseSize) {new : List Node}
    (hnew : t.nodes.set (t.position / t.baseSize)
      (overwrite block (t.position % t.baseSize) bytes) = new) :
    Invariant { t with nodes := new } ∧
      new.flatten = overwrite (storage t) t.position bytes := by
  have hlen : block.length = t.baseSize := ht.blocks block (List.mem_of_getElem? hblock)
  have hinside : t.position % t.baseSize + bytes.length ≤ block.length := by
    rw [hlen]; exact hfits
  subst hnew
  constructor
  · apply invariant_of_nodes ht _ (by simp)
    intro x hx
    rcases List.mem_or_eq_of_mem_set hx with hx | rfl
    · exact ht.blocks x hx
    · rw [length_overwrite hinside, hlen]
  · rw [flatten_set_overwrite ht.blocks hblock hfits, storage]
    congr 1
    rw [Nat.mul_comm]
    exact Nat.div_add_mod _ _

/-- Receiving through one entry inside its block overwrites the storage at the cursor. -/
theorem receive_single (heap : Heap) (hs : Invariant s) {len : ℕ} (hl : 1 ≤ len)
    (hfit : s.position % s.baseSize + len ≤ s.baseSize) {bytes : List UInt8}
    (h1 : 1 ≤ bytes.length) (h2 : bytes.length ≤ len) :
    ∃ u, socketStreamRead heap true s len (.data bytes) = .returned bytes.length u ∧
      u.position = s.position + bytes.length ∧
      storage u = overwrite (storage (s.addCapaticy heap len)) s.position bytes := by
  have hw := single_entry heap hs hl hfit
  obtain ⟨ht, hpos, -, hbase, hcap, -⟩ := addCapaticy_spec heap hs len
  obtain ⟨block, rest, -, hblock, hlen⟩ := current_block ht (by omega)
  generalize s.addCapaticy heap len = t at *
  rw [hpos, hbase] at hblock
  have hfits : s.position % s.baseSize + bytes.length ≤ s.baseSize := by omega
  have hinside : s.position % s.baseSize + bytes.length ≤ block.length := by
    rw [hlen, hbase]; exact hfits
  have hscatter : scatter t.nodes [⟨s.position / s.baseSize, s.position % s.baseSize, len⟩] bytes =
      some (t.nodes.set (s.position / s.baseSize)
        (overwrite block (s.position % s.baseSize) bytes)) := by
    cases bytes with
    | nil => simp at h1
    | cons b bs =>
      rw [scatter, List.take_of_length_le h2, List.drop_eq_nil_of_le h2]
      simp only [hblock, if_pos hinside]
      rw [scatter]
  generalize hnew : t.nodes.set (s.position / s.baseSize)
    (overwrite block (s.position % s.baseSize) bytes) = new at hscatter
  rw [← hpos, ← hbase] at hblock hfits hnew
  obtain ⟨hinv, hflat⟩ := overwrite_cursor ht hblock hfits hnew
  obtain ⟨u, hu, -, hupos, -, -, hustore⟩ :=
    setPosition_spec hinv (v := t.position + bytes.length) (by dsimp only; omega)
  refine ⟨u, ?_, by rw [hupos, hpos], ?_⟩
  · simp only [socketStreamRead, hw, hscatter, getPosition, hu, Bool.not_true, Bool.false_eq_true,
      if_false, if_pos (show 0 < bytes.length by omega)]
  · rw [hustore, ← hpos, ← hflat, storage]

theorem exact_of_fits (hs : Invariant s) {len : ℕ} (hl : 1 ≤ len)
    (hfit : s.position % s.baseSize + len ≤ s.baseSize) : WriteBuffersExact heap s len := by
  obtain ⟨ht, hpos, -, hbase, hcap, hfresh⟩ := addCapaticy_spec heap hs len
  obtain ⟨block, -, -, hblock, hlen⟩ := current_block ht (by omega)
  rw [hpos, hbase] at hblock
  refine ⟨_, _, single_entry heap hs hl hfit, ?_, by simp, ?_, hfresh, ?_⟩
  · intro v hv
    rw [List.mem_singleton] at hv
    subst hv
    exact ⟨block, hblock, by rw [hlen, hbase]; exact hfit⟩
  · simp only [List.flatMap_cons, List.flatMap_nil, List.append_nil, positions, hbase]
    rw [Nat.mul_comm, Nat.div_add_mod]
  · intro bytes h1 h2
    obtain ⟨u, hu, hupos, hstore⟩ := receive_single heap hs hl hfit h1 h2
    have hle : s.position ≤ (storage (s.addCapaticy heap len)).length := by
      rw [ht.length_storage]; omega
    refine ⟨u, hu, hupos, ?_, ?_⟩
    · rw [hstore, drop_take_overwrite hle]
    · rintro i (hi | hi)
      · rw [hstore, getElem?_overwrite_left hi hle]
      · rw [hstore, getElem?_overwrite_right hi hle]

theorem not_exact_of_crosses (hs : Invariant s) {len : ℕ} (hl : 1 ≤ len)
    (hcross : s.baseSize < s.position % s.baseSize + len) : ¬ WriteBuffersExact heap s len := by
  rintro ⟨iovs, t, hw, hin, -⟩
  obtain ⟨tail, hw'⟩ := crossing_entry heap hs hl hcross
  rw [hw] at hw'
  cases hw'
  obtain ⟨ht, -, -, hbase, -⟩ := addCapaticy_spec heap hs len
  obtain ⟨block, hblock, hle⟩ := hin _ List.mem_cons_self
  have hlen := ht.blocks block (List.mem_of_getElem? hblock)
  dsimp only at hle
  omega

/-- In every reachable state the scatter list is exact if and only if the request ends in
the block of the cursor. -/
theorem write_buffers_exact_iff (heap : Heap) {base : ℕ} (hb : 1 ≤ base) {s : ByteArrayState}
    (hr : Reachable heap base s) {len : ℕ} (hl : 1 ≤ len) :
    WriteBuffersExact heap s len ↔ s.position % base + len ≤ base := by
  obtain ⟨hs, rfl⟩ := reachable_invariant hb hr
  constructor
  · intro h
    by_contra hn
    exact not_exact_of_crosses hs hl (by omega) h
  · exact exact_of_fits hs hl

theorem write_buffers_exact_inside_block :
    WriteBuffersExact (fun _ _ => 0) (.construct (fun _ _ => 0) 4) 3 :=
  (write_buffers_exact_iff (fun _ _ => 0) (show 1 ≤ 4 by decide) ⟨[], [], rfl⟩
    (show 1 ≤ 3 by decide)).mpr (by decide)

/-- Six bytes into a fresh array of four-byte blocks: the first entry runs two bytes over
its block and the lengths add up to eight. -/
theorem write_buffers_cross_block :
    ByteArrayState.getWriteBuffers (fun _ _ => 0) (.construct (fun _ _ => 0) 4) 6 =
      .ok (6, [⟨0, 0, 6⟩, ⟨1, 0, 2⟩])
        (ByteArrayState.addCapaticy (fun _ _ => 0) (.construct (fun _ _ => 0) 4) 6) ∧
    socketStreamRead (fun _ _ => 0) true (.construct (fun _ _ => 0) 4) 6
      (.data [1, 2, 3, 4, 5, 6]) = .overrun ∧
    ¬ WriteBuffersExact (fun _ _ => 0) (.construct (fun _ _ => 0) 4) 6 := by
  refine ⟨by decide, by decide, ?_⟩
  exact not_exact_of_crosses (construct_invariant _ (by decide)) (by decide) (by decide)

end ByteArrayWriteBuffers
