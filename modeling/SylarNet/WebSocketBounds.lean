import SylarNet.WebSocketFrames

/-!
# Limits on what a peer sends

The length in a frame is added to `cur_len`, compared with the greatest size of a message, taken
as the new size of the data and as the number of bytes to read and to unmask. `WSRecvMessage` is
told here together with the places in the data that it writes, for any bytes that a peer sends.
-/
namespace WebSocketBounds

open HostWords SylarEndian SylarStream SylarStream.Stream WebSocketSession WebSocketFrames

inductive Event where
  /-- `readFixSize` puts a byte to this place of the data, of which there are so many bytes. -/
  | store (index : ℤ) (size : ℕ)
  /-- `data[cur_len + i] ^= mask[i % 4]` -/
  | unmask (index : ℤ) (size : ℕ)
  deriving DecidableEq, Repr

def Event.InBounds (curLen : ℤ) : Event → Prop
  | .store index size => curLen ≤ index ∧ index < size
  | .unmask index size => 0 ≤ index ∧ index < size

/-- What a pass writes, and how many bytes of payload it takes into the message. -/
structure Trace where
  events : List Event
  accepted : ℕ

def Trace.nothing : Trace := ⟨[], 0⟩

/-- `cur_len + i` for every `i` below the count. -/
def indexes (curLen : ℤ) (count : ℕ) : List ℤ :=
  (List.range count).map fun i : ℕ => curLen + i

/-- The rest of `recvData` from `data.resize` on, with what it writes. -/
def fillTraced (head : WSFrameHead) (mask : List UInt8) (p : Partial) (length : ℕ) (s : Stream) :
    Except Exit (Partial × Stream) × Trace :=
  let total := ((p.curLen + length) % 2 ^ 64).toNat
  let resized := p.data.take total ++ List.replicate (total - p.data.length) 0
  if p.curLen < 0 then (.error .undefined, .nothing)
  else
    let (r, bytes, s) := s.readFixSize length
    let stores := (indexes p.curLen bytes.length).map (Event.store · total)
    if r ≤ 0 then (.error (.left s), ⟨stores, 0⟩)
    else
      let count := if head.mask then (toInt length).toNat else 0
      let events := stores ++ (indexes p.curLen count).map (Event.unmask · total)
      if head.mask && 2 ^ 31 < p.curLen + length then (.error .undefined, ⟨events, 0⟩)
      else
        let plain := if head.mask then applyMask mask bytes else bytes
        let opcode := if p.opcode = 0 ∧ head.opcode ≠ WSFrameHead.CONTINUE
          then (head.opcode.toNat : ℤ) else p.opcode
        (.ok (⟨opcode, ListOverwrite.overwrite resized p.curLen.toNat plain,
          toInt (p.curLen + length)⟩, s), ⟨events, bytes.length⟩)

/-- `recvData` with what it writes. -/
def recvDataTraced (order : ByteOrder) (maxSize : UInt32) (client : Bool) (head : WSFrameHead)
    (p : Partial) (s : Stream) : Except Exit (Partial × Stream) × Trace :=
  if !client && !head.mask then (.error (.left s), .nothing)
  else
    match fetchLength order head s with
    | .error e => (.error e, .nothing)
    | .ok (length, s) =>
      if maxSize.toNat ≤ ((p.curLen + length) % 2 ^ 64).toNat then (.error (.left s), .nothing)
      else
        match fetchMask head s with
        | .error e => (.error e, .nothing)
        | .ok (mask, s) => fillTraced head mask p length s

def recvIterationTraced (order : ByteOrder) (maxSize : UInt32) (client : Bool) (p : Partial)
    (s : Stream) : Iteration × Trace :=
  match fetch s 2 with
  | .error e => (.exit e, .nothing)
  | .ok (bytes, s) =>
    let head := WSFrameHead.ofBytes bytes
    if head.opcode = WSFrameHead.PING then
      let (v, s) := wsPong s
      (if v ≤ 0 then .exit (.left s) else .again p s, .nothing)
    else if head.opcode = WSFrameHead.PONG then (.again p s, .nothing)
    else if head.opcode = WSFrameHead.CONTINUE ∨ head.opcode = WSFrameHead.TEXT_FRAME ∨
        head.opcode = WSFrameHead.BIN_FRAME then
      let d := recvDataTraced order maxSize client head p s
      (match d.1 with
        | .error e => .exit e
        | .ok (p, s) => if head.fin then .message ⟨p.opcode, p.data⟩ s else .again p s, d.2)
    else (.again p s, .nothing)

/-- One pass of the loop: the bytes of payload taken before it, `cur_len` and what it writes. -/
structure Pass where
  accepted : ℕ
  curLen : ℤ
  events : List Event

def recvLoopTraced (order : ByteOrder) (maxSize : UInt32) (client : Bool) :
    ℕ → ℕ → Partial → Stream → Except Fault (Option WSFrameMessage × Stream) × List Pass
  | 0, _, _, _ => (.error .outOfFuel, [])
  | fuel + 1, accepted, p, s =>
    let d := recvIterationTraced order maxSize client p s
    let pass : Pass := ⟨accepted, p.curLen, d.2.events⟩
    match d.1 with
    | .again p s =>
      let r := recvLoopTraced order maxSize client fuel (accepted + d.2.accepted) p s
      (r.1, pass :: r.2)
    | .message m s => (.ok (some m, s), [pass])
    | .exit (.left s) => (.ok (none, s.close), [pass])
    | .exit .undefined => (.error .undefined, [pass])

/-- The message is as long as what was taken into it and below the limit, and nothing beside it
is written. A limit of zero lets no data frame pass. -/
structure Pass.Safe (maxSize : UInt32) (pass : Pass) : Prop where
  counted : pass.curLen = pass.accepted
  limited : pass.curLen < maxSize.toNat ∨ maxSize = 0 ∧ pass.curLen = 0
  inBounds : ∀ e ∈ pass.events, e.InBounds pass.curLen

section Projection

variable (order : ByteOrder) (maxSize : UInt32) (client : Bool)

/-- The traced branch for data frames is the branch. -/
theorem recvDataTraced_fst (head : WSFrameHead) (p : Partial) (s : Stream) :
    (recvDataTraced order maxSize client head p s).1 =
      recvData order maxSize client head p s := by
  rw [recvDataTraced, recvData]
  split
  · rfl
  · cases fetchLength order head s with
    | error e => rfl
    | ok r =>
      obtain ⟨length, t⟩ := r
      simp only [bind, Except.bind]
      split
      · rfl
      · cases fetchMask head t with
        | error e => rfl
        | ok r =>
          obtain ⟨mask, u⟩ := r
          simp only [fillTraced, fetch]
          split
          · rfl
          · split
            · rfl
            · dsimp only
              split
              · rfl
              · rfl

theorem recvIterationTraced_fst (p : Partial) (s : Stream) :
    (recvIterationTraced order maxSize client p s).1 =
      recvIteration order maxSize client p s := by
  rw [recvIterationTraced, recvIteration]
  cases fetch s 2 with
  | error e => rfl
  | ok r =>
    obtain ⟨bytes, t⟩ := r
    dsimp only
    rw [← recvDataTraced_fst]
    split
    · rfl
    · split
      · rfl
      · split
        · rfl
        · rfl

theorem recvLoopTraced_fst (fuel accepted : ℕ) (p : Partial) (s : Stream) :
    (recvLoopTraced order maxSize client fuel accepted p s).1 =
      recvLoop order maxSize client fuel p s := by
  induction fuel generalizing accepted p s with
  | zero => rfl
  | succ fuel ih =>
    rw [recvLoopTraced, recvLoop, ← recvIterationTraced_fst]
    cases (recvIterationTraced order maxSize client p s).1 with
    | again p' s' => exact ih _ p' s'
    | message m t => rfl
    | exit e =>
      cases e with
      | left t => rfl
      | undefined => rfl

end Projection

section Fetch

variable {s : Stream}

/-- A fetch that succeeds gets as many bytes as were asked for. -/
theorem fetch_cases (s : Stream) {n : ℕ} (hn : n < 2 ^ 63) :
    (∃ t, fetch s n = .error (.left t)) ∨
      (n ≤ s.available.length ∧ fetch s n = .ok (s.available.take n, s.skip n)) := by
  unfold fetch
  rcases readFixSize_cases s hn with ⟨hle, hread⟩ | ⟨-, r, hr, hread⟩
  · rw [hread]
    by_cases hint : toInt n ≤ 0
    · exact .inl ⟨_, if_pos hint⟩
    · exact .inr ⟨hle, if_neg hint⟩
  · rw [hread]
    exact .inl ⟨_, if_pos hr⟩

theorem fetched_lt (order : ByteOrder) {bytes : List UInt8} {width : ℕ}
    (h : bytes.length = width) :
    byteswapOnLittleEndian order width (load order bytes) < 256 ^ width := by
  subst h
  rw [byteswapOnLittleEndian_load, ← List.length_reverse]
  exact ofLittle_lt bytes.reverse

theorem fetchLength_cases (order : ByteOrder) (head : WSFrameHead) (s : Stream) :
    (∃ t, fetchLength order head s = .error (.left t)) ∨
      ∃ length k, fetchLength order head s = .ok (length, s.skip k) ∧ length < 2 ^ 64 := by
  have hword : ∀ width, width ≤ 8 →
      (∃ t, (fetch s width >>= fun r =>
        Except.ok (byteswapOnLittleEndian order width (load order r.1), r.2)) = .error (.left t)) ∨
      ∃ length k, (fetch s width >>= fun r =>
        Except.ok (byteswapOnLittleEndian order width (load order r.1), r.2)) =
          .ok (length, s.skip k) ∧ length < 2 ^ 64 := by
    intro width hwidth
    rcases fetch_cases s (show width < 2 ^ 63 by omega) with ⟨t, hfetch⟩ | ⟨hle, hfetch⟩
    · rw [hfetch]
      exact .inl ⟨t, rfl⟩
    · rw [hfetch]
      refine .inr ⟨_, width, rfl, ?_⟩
      apply lt_of_lt_of_le (fetched_lt order (List.length_take_of_le hle))
      exact Nat.pow_le_pow_right (by omega : 256 > 0) hwidth
  unfold fetchLength
  split
  · exact hword 2 (by omega)
  · split
    · exact hword 8 (le_refl 8)
    · refine .inr ⟨head.payload.toNat, 0, by rw [skip_zero], ?_⟩
      have hbits := head.payload.isLt
      omega

theorem fetchMask_cases (head : WSFrameHead) (s : Stream) :
    (∃ t, fetchMask head s = .error (.left t)) ∨
      ∃ mask k, fetchMask head s = .ok (mask, s.skip k) := by
  unfold fetchMask
  split
  · rcases fetch_cases s (n := 4) (by omega) with hleft | ⟨-, hfetch⟩
    · exact .inl hleft
    · exact .inr ⟨_, 4, hfetch⟩
  · exact .inr ⟨_, 0, by rw [skip_zero]⟩

end Fetch

theorem mem_indexes {curLen i : ℤ} {count : ℕ} :
    i ∈ indexes curLen count ↔ curLen ≤ i ∧ i < curLen + count := by
  rw [indexes, List.mem_map]
  constructor
  · rintro ⟨j, hj, rfl⟩
    rw [List.mem_range] at hj
    omega
  · rintro ⟨hle, hlt⟩
    exact ⟨(i - curLen).toNat, List.mem_range.2 (by omega), by omega⟩

theorem stores_inBounds {curLen : ℤ} {count size : ℕ} (h : curLen + count ≤ size) :
    ∀ e ∈ (indexes curLen count).map (Event.store · size), e.InBounds curLen := by
  intro e he
  obtain ⟨i, hi, rfl⟩ := List.mem_map.1 he
  obtain ⟨hle, hlt⟩ := mem_indexes.1 hi
  exact ⟨hle, by omega⟩

theorem unmasks_inBounds {curLen : ℤ} (h0 : 0 ≤ curLen) {count size : ℕ}
    (h : curLen + count ≤ size) :
    ∀ e ∈ (indexes curLen count).map (Event.unmask · size), e.InBounds curLen := by
  intro e he
  obtain ⟨i, hi, rfl⟩ := List.mem_map.1 he
  obtain ⟨hle, hlt⟩ := mem_indexes.1 hi
  exact ⟨by omega, by omega⟩

/-- So many bytes of payload are in the message, below the limit unless there are none. -/
structure Tracked (maxSize : UInt32) (accepted : ℕ) (p : Partial) : Prop where
  data : p.data.length = accepted
  curLen : p.curLen = accepted
  limited : accepted < maxSize.toNat ∨ accepted = 0

section Data

variable (order : ByteOrder) (client : Bool) (head : WSFrameHead) {maxSize : UInt32}
  {p : Partial} {accepted : ℕ}

/-- What a pass over a data frame leaves: nothing, or a longer message below the limit. -/
def Grown (maxSize : UInt32) (accepted : ℕ) (s : Stream) :
    Except Exit (Partial × Stream) → Prop
  | .error (.left _) => True
  | .error .undefined => False
  | .ok (p, t) => p.data.length = accepted ∧ p.curLen = accepted ∧ accepted < maxSize.toNat ∧
      ∃ k, t = s.skip k

theorem Grown.of_skip {n k : ℕ} {s : Stream} {r : Except Exit (Partial × Stream)}
    (h : Grown maxSize n (s.skip k) r) : Grown maxSize n s r := by
  rcases r with (t | _) | ⟨p, t⟩
  · trivial
  · exact h
  · obtain ⟨hdata, hcur, hlim, j, rfl⟩ := h
    exact ⟨hdata, hcur, hlim, k + j, skip_skip s k j⟩

/-- A length that wraps the sum around is no positive `int`, so that nothing is read. -/
theorem toInt_wrapped {length : ℕ} (hlength : length < 2 ^ 64) (hwrap : 2 ^ 64 ≤ accepted + length)
    (hsmall : accepted < 2 ^ 31) : toInt length ≤ 0 := by
  change (length : ℤ).bmod (2 ^ 32) ≤ 0
  have hhigh : ¬ (length : ℤ) % (2 ^ 32 : ℕ) < ((2 ^ 32 : ℕ) + 1) / 2 := by omega
  rw [Int.bmod_def, if_neg hhigh]
  omega

/-- The payload behind what was there fills the data in its new size. -/
theorem length_grown {data payload : List UInt8} {curLen : ℤ} {length : ℕ}
    (hdata : data.length = accepted) (hcur : curLen = accepted) (hpay : payload.length = length) :
    (ListOverwrite.overwrite (data.take (accepted + length) ++
      List.replicate (accepted + length - data.length) 0) curLen.toNat payload).length =
        accepted + length := by
  have hresized : (data.take (accepted + length) ++
      List.replicate (accepted + length - data.length) 0).length = accepted + length := by
    rw [List.length_append, List.length_take, List.length_replicate]
    omega
  rw [ListOverwrite.length_overwrite (by omega), hresized]

theorem fillTraced_spec (h : Tracked maxSize accepted p) (hsmall : accepted < 2 ^ 31)
    (hM : maxSize.toNat ≤ 2 ^ 31 - 1) {length : ℕ} (hlength : length < 2 ^ 64)
    (hmax : ¬ maxSize.toNat ≤ ((p.curLen + length) % 2 ^ 64).toNat) (mask : List UInt8)
    (s : Stream) :
    (∀ e ∈ (fillTraced head mask p length s).2.events, e.InBounds p.curLen) ∧
      Grown maxSize (accepted + (fillTraced head mask p length s).2.accepted) s
        (fillTraced head mask p length s).1 := by
  have hcur := h.curLen
  rw [fillTraced]
  dsimp only
  rw [if_neg (by omega)]
  rcases Nat.lt_or_ge length (2 ^ 63) with hfits | hbig
  · have htotal : ((p.curLen + length) % 2 ^ 64).toNat = accepted + length := by omega
    rw [htotal] at hmax ⊢
    have hint : toInt length = length := toInt_of_lt (by omega)
    rcases readFixSize_cases s hfits with ⟨hle, hread⟩ | ⟨hlt, r, hr, hread⟩
    · obtain ⟨bytes, hbytes⟩ : ∃ bytes, bytes = s.available.take length := ⟨_, rfl⟩
      have hcount : bytes.length = length := by
        rw [hbytes, List.length_take_of_le hle]
      rw [hread, hint, ← hbytes]
      dsimp only
      rw [hcount, Int.toNat_natCast]
      have hstores : ∀ e ∈ (indexes p.curLen length).map (Event.store · (accepted + length)),
          e.InBounds p.curLen := stores_inBounds (by omega)
      split
      · exact ⟨hstores, trivial⟩
      rw [if_neg (by simp; omega)]
      refine ⟨?_, ?_, ?_, Nat.not_le.1 hmax, length, rfl⟩
      · intro e he
        rcases List.mem_append.1 he with he | he
        · exact hstores e he
        · refine unmasks_inBounds (by omega) ?_ e he
          split <;> omega
      · apply length_grown h.data hcur
        split
        · rw [length_applyMask, hcount]
        · exact hcount
      · change toInt (p.curLen + length) = _
        rw [hcur, ← Int.natCast_add]
        exact toInt_of_lt (by omega)
    · rw [hread]
      dsimp only
      rw [if_pos hr]
      exact ⟨stores_inBounds (by omega), trivial⟩
  · -- the sum wraps around, or it would be above the limit
    have hwrap : 2 ^ 64 ≤ accepted + length := by
      by_contra hno
      omega
    have hneg := toInt_wrapped hlength hwrap hsmall
    rw [readFixSize_wrapped _ hbig hlength]
    dsimp only
    rw [if_pos hneg]
    exact ⟨by simp [indexes], trivial⟩

theorem recvDataTraced_spec (hM : maxSize.toNat ≤ 2 ^ 31 - 1) (h : Tracked maxSize accepted p)
    (s : Stream) :
    (∀ e ∈ (recvDataTraced order maxSize client head p s).2.events, e.InBounds p.curLen) ∧
      Grown maxSize (accepted + (recvDataTraced order maxSize client head p s).2.accepted) s
        (recvDataTraced order maxSize client head p s).1 := by
  have hnothing : ∀ e ∈ Trace.nothing.events, e.InBounds p.curLen := by simp [Trace.nothing]
  have hsmall : accepted < 2 ^ 31 := by
    have hlim := h.limited
    omega
  rw [recvDataTraced]
  split
  · exact ⟨hnothing, trivial⟩
  rcases fetchLength_cases order head s with ⟨t, hlen⟩ | ⟨length, k₁, hlen, hlength⟩
  · rw [hlen]
    exact ⟨hnothing, trivial⟩
  rw [hlen]
  dsimp only
  split
  · exact ⟨hnothing, trivial⟩
  rename_i hmax
  rcases fetchMask_cases head (s.skip k₁) with ⟨t, hmask⟩ | ⟨mask, k₂, hmask⟩
  · rw [hmask]
    exact ⟨hnothing, trivial⟩
  rw [hmask]
  obtain ⟨hevents, hgrown⟩ := fillTraced_spec head h hsmall hM hlength hmax mask
    ((s.skip k₁).skip k₂)
  refine ⟨hevents, ?_⟩
  rw [skip_skip] at hgrown ⊢
  exact hgrown.of_skip

/-- What a pass leaves: a message below the limit, or the loop with fewer bytes to come. -/
def Passed (maxSize : UInt32) (accepted : ℕ) (s : Stream) : Iteration → Prop
  | .again p t => Tracked maxSize accepted p ∧ t.pending.length < s.pending.length
  | .message m _ => m.data.length < maxSize.toNat
  | .exit (.left _) => True
  | .exit .undefined => False

theorem pending_wsPong (s : Stream) : (wsPong s).2.pending = s.pending := by
  obtain ⟨accepts, bytes, hwrite⟩ := writeFixSize_wrote s (controlHead WSFrameHead.PONG).toBytes
  unfold wsPong wsControl
  dsimp only
  rw [hwrite]
  split
  · rfl
  · rfl

theorem recvIterationTraced_spec (hM : maxSize.toNat ≤ 2 ^ 31 - 1)
    (h : Tracked maxSize accepted p) (s : Stream) :
    (∀ e ∈ (recvIterationTraced order maxSize client p s).2.events, e.InBounds p.curLen) ∧
      Passed maxSize (accepted + (recvIterationTraced order maxSize client p s).2.accepted) s
        (recvIterationTraced order maxSize client p s).1 := by
  have hnothing : ∀ e ∈ Trace.nothing.events, e.InBounds p.curLen := by simp [Trace.nothing]
  rw [recvIterationTraced]
  rcases fetch_cases s (n := 2) (by omega) with ⟨t, hfetch⟩ | ⟨hle, hfetch⟩
  · rw [hfetch]
    exact ⟨hnothing, trivial⟩
  rw [hfetch]
  dsimp only
  have hshort : (s.skip 2).pending.length < s.pending.length := by
    have hav : s.available.length ≤ s.pending.length := by
      unfold available
      split
      · exact le_refl _
      · exact Nat.zero_le _
    rw [pending_skip, List.length_drop]
    omega
  split
  · refine ⟨hnothing, ?_⟩
    split
    · trivial
    · exact ⟨h, by rwa [pending_wsPong]⟩
  split
  · exact ⟨hnothing, h, hshort⟩
  split
  · obtain ⟨hevents, hgrown⟩ := recvDataTraced_spec order client
      (WSFrameHead.ofBytes (s.available.take 2)) hM h (s.skip 2)
    refine ⟨hevents, ?_⟩
    revert hgrown
    generalize recvDataTraced order maxSize client (WSFrameHead.ofBytes (s.available.take 2)) p
      (s.skip 2) = d
    obtain ⟨(e | ⟨p', t⟩), trace⟩ := d
    · intro hgrown
      cases e with
      | left t => trivial
      | undefined => exact hgrown
    · rintro ⟨hdata, hcur, hlim, k, rfl⟩
      dsimp only
      split
      · exact hdata ▸ hlim
      · refine ⟨⟨hdata, hcur, .inl hlim⟩, ?_⟩
        rw [pending_skip, List.length_drop]
        omega
  · exact ⟨hnothing, h, hshort⟩

/-- The pass that follows a state in which the message is tracked. -/
theorem Tracked.safe (h : Tracked maxSize accepted p) {events : List Event}
    (hevents : ∀ e ∈ events, e.InBounds p.curLen) :
    Pass.Safe maxSize ⟨accepted, p.curLen, events⟩ := by
  refine ⟨h.curLen, ?_, hevents⟩
  have hcur := h.curLen
  change p.curLen < maxSize.toNat ∨ maxSize = 0 ∧ p.curLen = 0
  by_cases hzero : maxSize = 0
  · have hlim := h.limited
    rw [hzero, UInt32.toNat_zero] at hlim
    exact .inr ⟨hzero, by omega⟩
  · have hpos : maxSize.toNat ≠ 0 := fun hnat => hzero (UInt32.toNat_inj.1 hnat)
    have hlim := h.limited
    exact .inl (by omega)

theorem recvLoopTraced_spec (hM : maxSize.toNat ≤ 2 ^ 31 - 1) {fuel : ℕ}
    (h : Tracked maxSize accepted p) {s : Stream} (hfuel : s.pending.length < fuel) :
    (∃ r, (recvLoopTraced order maxSize client fuel accepted p s).1 = .ok r ∧
      ∀ m, r.1 = some m → m.data.length < maxSize.toNat) ∧
    ∀ pass ∈ (recvLoopTraced order maxSize client fuel accepted p s).2, pass.Safe maxSize := by
  induction fuel generalizing accepted p s with
  | zero => omega
  | succ fuel ih =>
    obtain ⟨hevents, hpassed⟩ := recvIterationTraced_spec order client hM h s
    have hsafe := h.safe hevents
    rw [recvLoopTraced]
    dsimp only
    cases hd : (recvIterationTraced order maxSize client p s).1 with
    | again p' s' =>
      rw [hd] at hpassed
      have hless := Nat.lt_of_lt_of_le hpassed.2 (Nat.lt_succ_iff.1 hfuel)
      obtain ⟨hres, hpasses⟩ := ih hpassed.1 hless
      exact ⟨hres, List.forall_mem_cons.2 ⟨hsafe, hpasses⟩⟩
    | message m t =>
      rw [hd] at hpassed
      refine ⟨⟨_, rfl, ?_⟩, List.forall_mem_singleton.2 hsafe⟩
      rintro m' ⟨⟩
      exact hpassed
    | exit e =>
      rw [hd] at hpassed
      cases e with
      | left t => exact ⟨⟨_, rfl, by simp⟩, List.forall_mem_singleton.2 hsafe⟩
      | undefined => exact hpassed.elim

end Data

/-- Whatever bytes come, `WSRecvMessage` ends, writes inside the data only and keeps the message
below the limit. -/
theorem received_within_limits (order : ByteOrder) {maxSize : UInt32}
    (hM : maxSize.toNat ≤ 2 ^ 31 - 1) (client : Bool) (s : Stream) :
    ∃ (r : Option WSFrameMessage × Stream) (passes : List Pass),
      recvLoopTraced order maxSize client (s.pending.length + 1) 0 .init s = (.ok r, passes) ∧
      wsRecvMessage order maxSize s client = .ok r ∧
      (∀ m, r.1 = some m → m.data.length < maxSize.toNat) ∧ ∀ pass ∈ passes, pass.Safe maxSize := by
  have hinit : Tracked maxSize 0 .init := ⟨rfl, rfl, .inr rfl⟩
  obtain ⟨⟨r, hr, hsize⟩, hpasses⟩ := recvLoopTraced_spec order client hM hinit
    (Nat.lt_succ_self s.pending.length)
  refine ⟨r, _, Prod.ext hr rfl, ?_, hsize, hpasses⟩
  rw [← hr]
  exact (recvLoopTraced_fst order maxSize client _ 0 .init s).symm

/-- Three bytes of a message, and then a frame whose length wraps the sum around. -/
theorem received_within_limits_wrapped :
    ∃ s : Stream, s.pending =
        [1, 3, 97, 98, 99, 128, 127, 255, 255, 255, 255, 255, 255, 255, 255, 100] ∧
      ∃ (r : Option WSFrameMessage × Stream) (passes : List Pass),
        recvLoopTraced .little 16 true (s.pending.length + 1) 0 .init s = (.ok r, passes) ∧
        wsRecvMessage .little 16 s true = .ok r ∧
        (∀ m, r.1 = some m → m.data.length < (16 : UInt32).toNat) ∧
        ∀ pass ∈ passes, pass.Safe 16 :=
  ⟨⟨true, [⟨[1, 3, 97, 98, 99, 128, 127], by decide⟩,
      ⟨[255, 255, 255, 255, 255, 255, 255, 255, 100], by decide⟩], ⟨0, by decide⟩, [], []⟩, rfl,
    received_within_limits .little (by decide) true _⟩

theorem first_pass (order : ByteOrder) (maxSize : UInt32) (client : Bool) (fuel accepted : ℕ)
    (p : Partial) (s : Stream) : ∃ events, ⟨accepted, p.curLen, events⟩ ∈
      (recvLoopTraced order maxSize client (fuel + 1) accepted p s).2 := by
  refine ⟨(recvIterationTraced order maxSize client p s).2.events, ?_⟩
  rw [recvLoopTraced]
  dsimp only
  cases (recvIterationTraced order maxSize client p s).1 with
  | again p' t => exact List.mem_cons_self
  | message m t => exact List.mem_singleton.2 rfl
  | exit e =>
    cases e with
    | left t => exact List.mem_singleton.2 rfl
    | undefined => exact List.mem_singleton.2 rfl

/-- With a limit of zero `cur_len` starts at the limit. -/
theorem limit_of_zero :
    ¬ ∀ (order : ByteOrder) (maxSize : UInt32) (client : Bool) (s : Stream),
      maxSize.toNat ≤ 2 ^ 31 - 1 →
      ∀ pass ∈ (recvLoopTraced order maxSize client (s.pending.length + 1) 0 .init s).2,
        pass.curLen = pass.accepted ∧ pass.curLen < maxSize.toNat ∧
          ∀ e ∈ pass.events, e.InBounds pass.curLen := by
  intro h
  obtain ⟨events, hfirst⟩ := first_pass .little 0 true 0 0 .init ⟨true, [], ⟨0, by decide⟩, [], []⟩
  have hlim := (h .little 0 true ⟨true, [], ⟨0, by decide⟩, [], []⟩ (by decide) _ hfirst).2.1
  exact lt_irrefl (0 : ℤ) hlim

end WebSocketBounds
