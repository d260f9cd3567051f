import SylarNet.ByteArrayMethods
import SylarNet.ByteArrayViews
import SylarNet.SylarStream

/-!
# Saving the array in a file

`writeToFile` puts at most one block into the file with each call of `write`. The offset in the
block is taken off the length whether the rest of the content ends in the block or not, and the
next call always goes on in the next block. `readFromFile` appends a file block by block.
-/
namespace ByteArrayFiles

open ListOverwrite SylarByteArray SylarByteArray.ByteArrayState ByteArrayRefinement
  ByteArrayMethods ByteArrayWriteBuffers ByteArrayViews
open SylarStream.Stream (toInt toInt_of_lt)

/-- How opening a file ends: with a stream, or with `errno` and its text. -/
inductive Opening where
  | stream
  | failed (errno : ℤ) (errstr : String)
  deriving DecidableEq, Repr

def errorLine (function name : String) (errno : ℤ) (errstr : String) : String :=
  function ++ " name=" ++ name ++ " error, errno=" ++ toString errno ++ " errstr=" ++ errstr

/-- A call of `ofs.write` with a pointer into a block. Neither number has to make sense. -/
structure FileWrite where
  node : ℕ
  offset : ℤ
  len : ℤ
  deriving DecidableEq, Repr

def FileWrite.entry (w : FileWrite) : Iovec := ⟨w.node, w.offset.toNat, w.len.toNat⟩

/-- The loop of `writeToFile` on the chain that starts at node `i`. It follows the null pointer
when there is something left and no block. -/
def writeFileLoop (baseSize : ℕ) : List Node → ℕ → ℤ → ℤ → Option (List FileWrite)
  | [], _, _, readSize => if 0 < readSize then none else some []
  | _ :: rest, i, pos, readSize =>
    if 0 < readSize then
      let diff := toInt (pos % baseSize)
      let len := (if (baseSize : ℤ) < readSize then (baseSize : ℤ) else readSize) - diff
      (writeFileLoop baseSize rest (i + 1) (pos + len) (readSize - len)).map (⟨i, diff, len⟩ :: ·)
    else some []

/-- What `writeToFile` returns, logs and does with the file. -/
structure Saved where
  value : Bool
  log : List String
  writes : List FileWrite
  deriving DecidableEq, Repr

def writeToFile (name : String) (opening : Opening) : Method Saved := fun s =>
  match opening with
  | .failed errno errstr => .ok ⟨false, [errorLine "writeToFile" name errno errstr], []⟩ s
  | .stream =>
    let i := s.cur.getD s.nodes.length
    match writeFileLoop s.baseSize (s.nodes.drop i) i s.position s.getReadSize with
    | none => .nullDeref
    | some writes => .ok ⟨true, [], writes⟩ s

/-- The loop of `readFromFile` on what is left of the file. The read that gets less than a block
is the last one; every array has a block size. -/
def readFileLoop (heap : Heap) (baseSize : ℕ) (content : List UInt8) : Method Unit :=
  if content.length < baseSize ∨ baseSize = 0 then write heap content
  else do
    write heap (content.take baseSize)
    readFileLoop heap baseSize (content.drop baseSize)
termination_by content.length
decreasing_by
  rw [List.length_drop]
  omega

def readFromFile (heap : Heap) (name : String) (opening : Opening) (content : List UInt8) :
    Method (Bool × List String) := fun s =>
  match opening with
  | .failed errno errstr => .ok (false, [errorLine "readFromFile" name errno errstr]) s
  | .stream => (do readFileLoop heap s.baseSize content; pure (true, [])) s

/-- The bytes that the cursor has not passed. -/
def unread (s : ByteArrayState) : List UInt8 := ((storage s).drop s.position).take s.getReadSize

/-- The file gets these bytes and no others, and a new array gets them back from it. -/
def SavesUnread (name : String) (s : ByteArrayState) : Prop :=
  ∃ writes, writeToFile name .stream s = .ok ⟨true, [], writes⟩ s ∧
    (∀ w ∈ writes, 0 ≤ w.offset ∧ 0 ≤ w.len) ∧
    Covers s s.position s.getReadSize (writes.map FileWrite.entry) ∧
    (writes.map FileWrite.entry).flatMap (slice s.nodes) = unread s ∧
    ∀ (heap : Heap) (base : ℕ), 1 ≤ base → ∃ t,
      readFromFile heap name .stream (unread s) (.construct heap base) = .ok (true, []) t ∧
      Simulates base t ⟨unread s, (unread s).length⟩

section Reading

variable {e : Endian}

/-- The file is appended as a whole, whatever the blocks are. -/
theorem writes_readFileLoop (heap : Heap) (base : ℕ) (content : List UInt8) :
    Writes e (readFileLoop heap base content) content := by
  induction content using readFileLoop.induct base with
  | case1 content hlast =>
    rw [readFileLoop, if_pos hlast]
    exact writes_write heap content
  | case2 content hmore ih =>
    have hblock : Writes e (write heap (content.take base)) (content.take base) :=
      writes_write heap _
    have hall := hblock.bind ih
    rw [List.take_append_drop] at hall
    rw [readFileLoop, if_neg hmore]
    exact hall

/-- A new array holds what was read into it. -/
theorem readFromFile_fresh (heap : Heap) {base : ℕ} (hb : 1 ≤ base) (name : String)
    (content : List UInt8) :
    ∃ t, readFromFile heap name .stream content (.construct heap base) = .ok (true, []) t ∧
      Simulates base t ⟨content, content.length⟩ := by
  have hnew : Holds base .big (.construct heap base) .empty := ⟨construct_simulates heap hb, rfl⟩
  obtain ⟨t, ht, hholds, -⟩ := writes_readFileLoop heap base content hnew
  have hcontent : overwrite [] 0 content = content := by simp [overwrite]
  rw [FlatArray.empty, hcontent, Nat.zero_add] at hholds
  exact ⟨t, Method.bind_ok ht _, hholds.sim⟩

end Reading

section Writing

variable {b : ℕ} {chain : List Node} {i : ℕ} {pos readSize : ℤ} {writes : List FileWrite}

theorem writeFileLoop_done (b : ℕ) (chain : List Node) (i : ℕ) (pos : ℤ) :
    writeFileLoop b chain i pos 0 = some [] := by
  cases chain <;> rfl

/-- The offset of a position in its block. -/
theorem position_emod {d : ℕ} (hd : d < b) (i : ℕ) : ((i * b + d : ℕ) : ℤ) % (b : ℤ) = d := by
  rw [← Int.natCast_emod, Nat.mul_add_mod', Nat.mod_eq_of_lt hd]

/-- With a block left or more the call takes the rest of the block, and the next one begins at
the next block. -/
theorem writeFileLoop_full {d n : ℕ} (hd : d < b) (hint : d < 2 ^ 31) (hn : b ≤ n) (node : Node)
    (i : ℕ) :
    writeFileLoop b (node :: chain) i ((i * b + d : ℕ) : ℤ) n =
      (writeFileLoop b chain (i + 1) (((i + 1) * b : ℕ) : ℤ) ((n - (b - d) : ℕ) : ℤ)).map
        (⟨i, d, ((b - d : ℕ) : ℤ)⟩ :: ·) := by
  have hclip : (if (b : ℤ) < n then (b : ℤ) else (n : ℤ)) = b := by
    split_ifs <;> omega
  have hlen : (b : ℤ) - d = ((b - d : ℕ) : ℤ) := by omega
  have hpos : ((i * b + d : ℕ) : ℤ) + ((b - d : ℕ) : ℤ) = (((i + 1) * b : ℕ) : ℤ) := by
    rw [Nat.succ_mul]
    omega
  have hleft : (n : ℤ) - ((b - d : ℕ) : ℤ) = ((n - (b - d) : ℕ) : ℤ) := by omega
  rw [writeFileLoop, if_pos (by omega)]
  dsimp only
  rw [position_emod hd, toInt_of_lt hint, hclip, hlen, hpos, hleft]

/-- What is left in the block that begins here is the end of the file. -/
theorem writeFileLoop_last {n : ℕ} (hn : 1 ≤ n) (hlt : n < b) (node : Node) (i : ℕ) :
    writeFileLoop b (node :: chain) i ((i * b : ℕ) : ℤ) n = some [⟨i, 0, n⟩] := by
  have hclip : (if (b : ℤ) < n then (b : ℤ) else (n : ℤ)) = n := by
    split_ifs <;> omega
  have hoffset : toInt (((i * b : ℕ) : ℤ) % b) = 0 := by
    have hmod := position_emod (b := b) (d := 0) (by omega) i
    rw [Nat.add_zero] at hmod
    rw [hmod]
    exact toInt_of_lt (by decide)
  rw [writeFileLoop, if_pos (by omega)]
  dsimp only
  rw [hoffset, hclip, Int.sub_zero, Int.sub_self, writeFileLoop_done]
  rfl

/-- A call with a pointer into one of the blocks, and bytes of that block. -/
structure Sound (b blocks : ℕ) (w : FileWrite) : Prop where
  offset_nonneg : 0 ≤ w.offset
  len_nonneg : 0 ≤ w.len
  node_lt : w.node < blocks
  inside : w.offset + w.len ≤ b

/-- The calls go through these positions of the content. -/
def WritesOut (b : ℕ) (chain : List Node) (i p n : ℕ) : Prop :=
  ∃ writes, writeFileLoop b chain i (p : ℤ) n = some writes ∧
    (∀ w ∈ writes, Sound b (i + chain.length) w) ∧
    (writes.map FileWrite.entry).flatMap (positions b) = List.range' p n

theorem writesOut_done (b : ℕ) (chain : List Node) (i p : ℕ) : WritesOut b chain i p 0 :=
  ⟨[], writeFileLoop_done b chain i p, by simp, rfl⟩

theorem writesOut_full {d n : ℕ} (hd : d < b) (hint : d < 2 ^ 31) (hn : b ≤ n) (node : Node)
    (hrest : WritesOut b chain (i + 1) ((i + 1) * b) (n - (b - d))) :
    WritesOut b (node :: chain) i (i * b + d) n := by
  obtain ⟨writes, hloop, hall, hpositions⟩ := hrest
  refine ⟨⟨i, d, ((b - d : ℕ) : ℤ)⟩ :: writes, ?_, ?_, ?_⟩
  · rw [writeFileLoop_full hd hint hn, hloop]
    rfl
  · rw [List.forall_mem_cons, List.length_cons]
    constructor
    · constructor <;> dsimp only <;> omega
    · intro w hw
      obtain ⟨hoffset, hlen, hnode, hinside⟩ := hall w hw
      exact ⟨hoffset, hlen, by omega, hinside⟩
  · have hfirst : positions b (FileWrite.entry ⟨i, d, ((b - d : ℕ) : ℤ)⟩) =
        List.range' (i * b + d) (b - d) := rfl
    have hnext : (i + 1) * b = i * b + d + (b - d) := by
      rw [Nat.succ_mul]
      omega
    have hsum : b - d + (n - (b - d)) = n := by omega
    rw [List.map_cons, List.flatMap_cons, hfirst, hpositions, hnext, List.range'_append_1, hsum]

/-- From the beginning of a block on every call takes a whole block or the rest. -/
theorem writesOut_aligned (hb : 1 ≤ b) (i : ℕ) {n : ℕ} (hle : n ≤ chain.length * b) :
    WritesOut b chain i (i * b) n := by
  induction chain generalizing i n with
  | nil =>
    have hz : n = 0 := by
      rw [List.length_nil, Nat.zero_mul] at hle
      omega
    rw [hz]
    exact writesOut_done b [] i _
  | cons node rest ih =>
    rw [List.length_cons, Nat.succ_mul] at hle
    by_cases hz : n = 0
    · rw [hz]
      exact writesOut_done b _ i _
    by_cases hlt : n < b
    · refine ⟨[⟨i, 0, n⟩], writeFileLoop_last (by omega) hlt node i, ?_, ?_⟩
      · intro w hw
        rw [List.mem_singleton] at hw
        subst hw
        rw [List.length_cons]
        constructor <;> dsimp only <;> omega
      · rw [List.map_singleton, List.flatMap_singleton]
        rfl
    · exact writesOut_full (d := 0) hb (by decide) (Nat.le_of_not_lt hlt) node
        (ih (i + 1) (by omega))

/-- Inside a block the calls go right when there is a block left to be written. -/
theorem writesOut_of_start {d n : ℕ} (hb : 1 ≤ b) (hd : d < b)
    (hstart : n = 0 ∨ d = 0 ∨ b ≤ n ∧ d < 2 ^ 31) (hle : d + n ≤ chain.length * b) :
    WritesOut b chain i (i * b + d) n := by
  rcases hstart with rfl | rfl | ⟨hn, hint⟩
  · exact writesOut_done b chain i _
  · exact writesOut_aligned hb i (by omega)
  · cases chain with
    | nil =>
      rw [List.length_nil, Nat.zero_mul] at hle
      omega
    | cons node rest =>
      rw [List.length_cons, Nat.succ_mul] at hle
      exact writesOut_full hd hint hn node (writesOut_aligned hb (i + 1) (by omega))

/-- A call that writes nothing is made again and again until there are no blocks. -/
theorem writeFileLoop_stuck (hleft : 0 < readSize)
    (hlen : (if (b : ℤ) < readSize then (b : ℤ) else readSize) - toInt (pos % b) = 0)
    (chain : List Node) (i : ℕ) : writeFileLoop b chain i pos readSize = none := by
  induction chain generalizing i with
  | nil => rw [writeFileLoop, if_pos hleft]
  | cons node rest ih =>
    rw [writeFileLoop, if_pos hleft]
    dsimp only
    rw [hlen, Int.add_zero, Int.sub_zero, ih]
    rfl

/-- When the calls go through the content in order, the first of them begins where it should and
the others write what is behind. -/
theorem writeFileLoop_first {q n : ℕ} (hleft : 0 < readSize)
    (hloop : writeFileLoop b chain i pos readSize = some writes)
    (hgood : ∀ w ∈ writes, 0 ≤ w.offset ∧ 0 ≤ w.len)
    (hpositions : (writes.map FileWrite.entry).flatMap (positions b) = List.range' q n) :
    ∃ node rest len later, chain = node :: rest ∧ 0 ≤ toInt (pos % b) ∧
      (q : ℤ) = i * b + toInt (pos % b) ∧
      ((len : ℕ) : ℤ) = (if (b : ℤ) < readSize then (b : ℤ) else readSize) - toInt (pos % b) ∧
      writeFileLoop b rest (i + 1) (pos + len) (readSize - len) = some later ∧
      (∀ w ∈ later, 0 ≤ w.offset ∧ 0 ≤ w.len) ∧
      (later.map FileWrite.entry).flatMap (positions b) = List.range' (q + len) (n - len) := by
  have hmoves : (if (b : ℤ) < readSize then (b : ℤ) else readSize) - toInt (pos % b) ≠ 0 := by
    intro hlen
    cases (writeFileLoop_stuck hleft hlen chain i).symm.trans hloop
  cases chain with
  | nil =>
    rw [writeFileLoop, if_pos hleft] at hloop
    cases hloop
  | cons node rest =>
    rw [writeFileLoop, if_pos hleft] at hloop
    dsimp only at hloop
    generalize toInt (pos % b) = diff at *
    generalize (if (b : ℤ) < readSize then (b : ℤ) else readSize) - diff = count at *
    obtain ⟨later, hlater, rfl⟩ := Option.map_eq_some_iff.1 hloop
    rw [List.forall_mem_cons] at hgood
    obtain ⟨⟨hoffset, hlen⟩, hgood⟩ := hgood
    dsimp only at hoffset hlen
    obtain ⟨len, rfl⟩ := Int.eq_ofNat_of_zero_le hlen
    have hfirst : positions b (FileWrite.entry ⟨i, diff, len⟩) =
        List.range' (i * b + diff.toNat) len := rfl
    rw [List.map_cons, List.flatMap_cons, hfirst] at hpositions
    refine ⟨node, rest, len, later, rfl, hoffset, ?_, rfl, hlater, hgood, ?_⟩
    · have hhead := congrArg List.head? hpositions
      rw [List.head?_append, List.head?_range', List.head?_range', if_neg (by omega),
        Option.some_or] at hhead
      split_ifs at hhead
      cases hhead
      rw [Int.natCast_add, Int.natCast_mul, Int.toNat_of_nonneg hoffset]
    · have hrest := congrArg (List.drop len) hpositions
      rwa [List.drop_left' List.length_range', List.drop_range', Nat.mul_one] at hrest

end Writing

section Saving

variable {s : ByteArrayState}

theorem cur_block (hs : Invariant s) :
    s.cur.getD s.nodes.length = s.position / s.baseSize := by
  rw [hs.cur_eq]
  split_ifs with hend
  · rw [hend, hs.capacity_eq, Nat.mul_div_cancel _ hs.base_pos, Option.getD_none]
  · rw [Option.getD_some]

theorem writeToFile_eq (hs : Invariant s) (name : String) :
    writeToFile name .stream s =
      match writeFileLoop s.baseSize (s.nodes.drop (s.position / s.baseSize))
        (s.position / s.baseSize) s.position s.getReadSize with
      | none => .nullDeref
      | some writes => .ok ⟨true, [], writes⟩ s := by
  rw [writeToFile, cur_block hs]

theorem Sound.inBlock (hs : Invariant s) {w : FileWrite}
    (hw : Sound s.baseSize s.nodes.length w) : InBlock s.nodes w.entry := by
  have hinside := hw.inside
  have hoffset := Int.toNat_of_nonneg hw.offset_nonneg
  have hlen := Int.toNat_of_nonneg hw.len_nonneg
  have hlt := hw.node_lt
  refine ⟨s.nodes[w.node], List.getElem?_eq_getElem hlt, ?_⟩
  rw [hs.blocks _ (List.getElem_mem hlt)]
  dsimp only [FileWrite.entry]
  omega

theorem savesUnread_of_start (hs : Invariant s) (name : String)
    (hstart : s.getReadSize = 0 ∨ s.position % s.baseSize = 0 ∨
      s.baseSize ≤ s.getReadSize ∧ s.position % s.baseSize < 2 ^ 31) : SavesUnread name s := by
  have hb := hs.base_pos
  have hleft : s.position + s.getReadSize ≤ s.capacity := by
    have hunread : s.getReadSize = s.size - s.position := rfl
    have hposition := hs.position_le
    have hsize := hs.size_le
    omega
  have hblock : s.position / s.baseSize ≤ s.nodes.length := by
    apply Nat.div_le_of_le_mul
    rw [Nat.mul_comm, ← hs.capacity_eq]
    omega
  have hout := writesOut_of_start (i := s.position / s.baseSize) hb
    (Nat.mod_lt s.position hb) hstart (hs.chain_fits hleft)
  rw [Nat.div_add_mod'] at hout
  obtain ⟨writes, hloop, hall, hpositions⟩ := hout
  rw [List.length_drop, Nat.add_sub_cancel' hblock] at hall
  have hcovers : Covers s s.position s.getReadSize (writes.map FileWrite.entry) := by
    refine ⟨?_, hpositions⟩
    intro v hv
    obtain ⟨w, hw, rfl⟩ := List.mem_map.1 hv
    exact (hall w hw).inBlock hs
  refine ⟨writes, ?_, fun w hw => ⟨(hall w hw).1, (hall w hw).2⟩, hcovers,
    hcovers.slices hs hleft, fun heap base hbase => readFromFile_fresh heap hbase name _⟩
  rw [writeToFile_eq hs, hloop]

theorem start_of_savesUnread (hs : Invariant s) {name : String} (h : SavesUnread name s) :
    s.getReadSize = 0 ∨ s.position % s.baseSize = 0 ∨
      s.baseSize ≤ s.getReadSize ∧ s.position % s.baseSize < 2 ^ 31 := by
  obtain ⟨writes, hsaved, hgood, hcovers, -⟩ := h
  rw [writeToFile_eq hs] at hsaved
  split at hsaved
  · cases hsaved
  · rename_i hloop
    cases hsaved
    by_cases hleft : s.getReadSize = 0
    · exact .inl hleft
    by_cases hoffset : s.position % s.baseSize = 0
    · exact .inr (.inl hoffset)
    obtain ⟨node, rest, len, later, -, -, hstart, hlen, hlater, hgood', hpositions⟩ :=
      writeFileLoop_first (by omega) hloop hgood hcovers.positions_eq
    have hdm := Nat.div_add_mod' s.position s.baseSize
    have hdiff : toInt ((s.position : ℤ) % s.baseSize) = (s.position % s.baseSize : ℕ) := by
      rw [← Int.natCast_mul] at hstart
      omega
    have hint : s.position % s.baseSize < 2 ^ 31 := by
      have hlt : toInt ((s.position : ℤ) % s.baseSize) < (2 ^ 32 + 1) / 2 :=
        Int.bmod_lt (by decide)
      omega
    refine .inr (.inr ⟨?_, hint⟩)
    -- with less than a block left the second call would begin in the same block as the first
    by_contra hless
    rw [hdiff, if_neg (by omega)] at hlen
    obtain ⟨-, -, -, -, -, hoffset', hnext, -⟩ :=
      writeFileLoop_first (by omega) hlater hgood' hpositions
    rw [← Int.natCast_mul, Nat.succ_mul] at hnext
    omega

end Saving

/-- The unread bytes are saved when there are none, or from the beginning of a block on, or when a
block of them is left. -/
theorem saves_unread_iff (heap : Heap) {base : ℕ} (hb : 1 ≤ base) {s : ByteArrayState}
    (hs : Reachable heap base s) (name : String) :
    SavesUnread name s ↔ s.getReadSize = 0 ∨ s.position % base = 0 ∨
      base ≤ s.getReadSize ∧ s.position % base < 2 ^ 31 := by
  obtain ⟨hinv, rfl⟩ := reachable_invariant hb hs
  exact ⟨start_of_savesUnread hinv, savesUnread_of_start hinv name⟩

/-- Three of four bytes are left, the first of them in the middle of a block. -/
theorem saves_unread_whole_block :
    SavesUnread "file" ⟨2, 1, 4, 4, .big, [[1, 2], [3, 4]], some 0⟩ :=
  (saves_unread_iff (fun _ _ => 0) (show 1 ≤ 2 by decide)
    ⟨[.write [1, 2, 3, 4], .setPosition 1], [.done, .done], by decide⟩ "file").2 (by decide)

/-- One byte is left in the middle of the block: a call writes nothing, and the next block is
none. -/
theorem saves_unread_short_rest :
    ¬ ∀ (heap : Heap) (base : ℕ), 1 ≤ base → ∀ s, Reachable heap base s → ∀ name,
      SavesUnread name s := by
  intro h
  obtain ⟨writes, hsaved, -⟩ := h (fun _ _ => 0) 4 (by decide)
    ⟨4, 1, 4, 2, .big, [[1, 2, 0, 0]], some 0⟩
    ⟨[.write [1, 2], .setPosition 1], [.done, .done], by decide⟩ "file"
  have hnull : writeToFile "file" .stream ⟨4, 1, 4, 2, .big, [[1, 2, 0, 0]], some 0⟩ =
      .nullDeref := by decide
  cases hnull.symm.trans hsaved

end ByteArrayFiles
