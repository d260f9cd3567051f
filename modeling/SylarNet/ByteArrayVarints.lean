import SylarNet.ByteArrayFixed
import SylarNet.Varints

/-!
# Integers of variable length

The writers and readers of integers in groups of seven bits. Both readers give up behind five
bytes, which is enough for 32 bits only.
-/
namespace ByteArrayVarints

open ListOverwrite SylarByteArray ByteArrayRefinement ByteArrayMethods ByteArrayFixed Varints
open HostWords (ByteOrder)

def encodeZigzag32 (v : Int32) : UInt32 :=
  if v < 0 then ((-v).toUInt32 <<< 1) - 1 else (v <<< 1).toUInt32

def encodeZigzag64 (v : Int64) : UInt64 :=
  if v < 0 then ((-v).toUInt64 <<< 1) - 1 else (v <<< 1).toUInt64

def decodeZigzag32 (v : UInt32) : Int32 := ((v >>> 1) ^^^ -(v &&& 1)).toInt32
def decodeZigzag64 (v : UInt64) : Int64 := ((v >>> 1) ^^^ -(v &&& 1)).toInt64

/-- `tmp`, up to `i`. -/
def writeLoop (value : ℕ) : List UInt8 :=
  if value ≥ 0x80 then UInt8.ofNat ((value &&& 0x7F) ||| 0x80) :: writeLoop (value >>> 7)
  else [UInt8.ofNat value]
termination_by value
decreasing_by
  rw [Nat.shiftRight_eq_div_pow]
  omega

/-- The loop of the readers; the result has `width` bits. -/
def readLoop (host : ByteOrder) (width i result : ℕ) : Method ℕ :=
  if i < 32 then do
    let b ← readFuint8 host
    if b < 0x80 then pure (result ||| (b.toNat <<< i) % 2 ^ width)
    else readLoop host width (i + 7) (result ||| ((b &&& 0x7F).toNat <<< i) % 2 ^ width)
  else pure result
termination_by 32 - i

section Functions

variable (host : ByteOrder) (heap : Heap)

def writeUint32 (value : UInt32) : Method Unit := write heap (writeLoop value.toNat)
def writeInt32 (value : Int32) : Method Unit := writeUint32 heap (encodeZigzag32 value)
def writeUint64 (value : UInt64) : Method Unit := write heap (writeLoop value.toNat)
def writeInt64 (value : Int64) : Method Unit := writeUint64 heap (encodeZigzag64 value)

def readUint32 : Method UInt32 := do
  let result ← readLoop host 32 0 0
  pure (UInt32.ofNat result)

def readInt32 : Method Int32 := do
  let v ← readUint32 host
  pure (decodeZigzag32 v)

def readUint64 : Method UInt64 := do
  let result ← readLoop host 64 0 0
  pure (UInt64.ofNat result)

def readInt64 : Method Int64 := do
  let v ← readUint64 host
  pure (decodeZigzag64 v)

end Functions

theorem writeLoop_eq (value : ℕ) : writeLoop value = encode value := by
  induction value using Nat.strongRecOn with
  | ind value ih =>
    rw [writeLoop, encode]
    by_cases hlt : value < 128
    · rw [if_neg (by omega), if_pos hlt]
    · have hlow : (value &&& 0x7F) ||| 0x80 = value % 128 + 128 := by
        have hand : value &&& 0x7F = value % 128 := Nat.and_two_pow_sub_one_eq_mod value 7
        have hor : 0x80 + value % 128 = 0x80 ||| value % 128 :=
          Nat.two_pow_add_eq_or_of_lt (Nat.mod_lt value (Nat.two_pow_pos 7)) 1
        rw [hand, Nat.or_comm, ← hor, Nat.add_comm]
      have hshift : value >>> 7 = value / 128 := Nat.shiftRight_eq_div_pow value 7
      rw [if_pos (by omega), if_neg hlt, hlow, hshift, ih (value / 128) (by omega)]

section Reading

variable (host : ByteOrder) {base : ℕ} {e : Endian} {s : ByteArrayState} {f : FlatArray}

theorem readFuint8_reads (e : Endian) (b : UInt8) :
    Reads e (readFuint8 host) [b] b := by
  have hcode : encoding e 1 b.toNat = [b] := by
    cases e <;> simp [encoding, HostWords.toBig, HostWords.toLittle]
  have hread := reads_byte host e UInt8.ofNat b.toNat_lt
  rwa [hcode, UInt8.ofNat_toNat] at hread

theorem toNat_low (b : UInt8) : (b &&& 0x7F).toNat = b.toNat % 128 := by
  rw [UInt8.toNat_and]
  exact Nat.and_two_pow_sub_one_eq_mod b.toNat 7

/-- A group stands right above the ones before it. -/
theorem or_groups (r i x y width : ℕ) (hx : x < 128) :
    (r ||| (x <<< i) % 2 ^ width) ||| (y <<< (i + 7)) % 2 ^ width =
      r ||| ((x + 128 * y) <<< i) % 2 ^ width := by
  have hsum : x + 128 * y = x ||| y <<< 7 := by
    rw [Nat.or_comm, ← Nat.shiftLeft_add_eq_or_of_lt (show x < 2 ^ 7 from hx), Nat.shiftLeft_eq]
    omega
  rw [Nat.or_assoc, ← Nat.or_mod_two_pow, hsum, Nat.shiftLeft_or_distrib, Nat.add_comm i 7,
    Nat.shiftLeft_add]

/-- The loop reads as many groups as passes are left for. -/
theorem readLoop_run (width : ℕ) {j k v : ℕ} {rest : List UInt8} (hjk : j + k = 5) (r : ℕ)
    (h : Holds base e s f) (hdecode : decode k (f.data.drop f.position) = some (v, rest)) :
    ∃ t, readLoop host width (7 * j) r s = .ok (r ||| (v <<< (7 * j)) % 2 ^ width) t ∧
      Holds base e t ⟨f.data, f.data.length - rest.length⟩ ∧ t.capacity = s.capacity := by
  induction k generalizing j r s f v with
  | zero =>
    cases hdecode
    have hle := h.position_le
    have hend : f.data.length - (f.data.drop f.position).length = f.position := by
      rw [List.length_drop]
      omega
    rw [readLoop, if_neg (by omega), hend, Nat.zero_shiftLeft, Nat.zero_mod, Nat.or_zero]
    exact ⟨s, rfl, h, rfl⟩
  | succ k ih =>
    cases hdata : f.data.drop f.position with
    | nil =>
      rw [hdata] at hdecode
      cases hdecode
    | cons b bytes =>
      rw [hdata, decode] at hdecode
      obtain ⟨t, ht, hholds, hcap⟩ := readFuint8_reads host e b h hdata
      have hbehind : f.data.drop (f.position + 1) = bytes := by
        rw [← List.drop_drop, hdata, List.drop_one, List.tail_cons]
      rw [readLoop, if_pos (by omega), Method.bind_ok ht]
      split at hdecode
      · rename_i hlast
        cases hdecode
        have hend : f.data.length - rest.length = f.position + 1 := by
          have hlength := congrArg List.length hdata
          rw [List.length_drop, List.length_cons] at hlength
          omega
        rw [if_pos hlast, hend]
        exact ⟨t, rfl, hholds, hcap⟩
      · rename_i hgroup
        obtain ⟨⟨n, left⟩, hleft, heq⟩ := Option.map_eq_some_iff.1 hdecode
        cases heq
        rw [← hbehind] at hleft
        obtain ⟨u, hu, hholds', hcap'⟩ := ih (j := j + 1) (by omega)
          (r ||| ((b &&& 0x7F).toNat <<< (7 * j)) % 2 ^ width) hholds hleft
        refine ⟨u, ?_, hholds', hcap'.trans hcap⟩
        rw [toNat_low] at hu ⊢
        rw [if_neg hgroup, ← or_groups r (7 * j) _ n width (Nat.mod_lt _ (by decide))]
        exact hu

/-- Too few bytes are told by an exception. -/
theorem readLoop_throws (width : ℕ) {j k : ℕ} (hjk : j + k = 5) (r : ℕ) (h : Holds base e s f)
    (hdecode : decode k (f.data.drop f.position) = none) :
    ∃ what t, readLoop host width (7 * j) r s = .outOfRange what t := by
  induction k generalizing j r s f with
  | zero => cases hdecode
  | succ k ih =>
    cases hdata : f.data.drop f.position with
    | nil =>
      have hempty : s.size - s.position < 1 := by
        have hlength := congrArg List.length hdata
        rw [List.length_drop, List.length_nil] at hlength
        rw [h.sim.size_eq, h.sim.position_eq, hlength]
        exact Nat.one_pos
      have hread : read 1 s = .outOfRange "not enough length" s := read_throws hempty
      have hbyte : readFuint8 host s = .outOfRange "not enough length" s :=
        Method.bind_outOfRange hread _
      rw [readLoop, if_pos (by omega)]
      exact ⟨_, s, Method.bind_outOfRange hbyte _⟩
    | cons b bytes =>
      rw [hdata, decode] at hdecode
      obtain ⟨t, ht, hholds, -⟩ := readFuint8_reads host e b h hdata
      have hbehind : f.data.drop (f.position + 1) = bytes := by
        rw [← List.drop_drop, hdata, List.drop_one, List.tail_cons]
      rw [readLoop, if_pos (by omega), Method.bind_ok ht]
      split at hdecode
      · cases hdecode
      · rename_i hgroup
        rw [Option.map_eq_none_iff, ← hbehind] at hdecode
        rw [if_neg hgroup]
        exact ih (j := j + 1) (by omega) _ hholds hdecode

/-- The encoding of a number of at most 35 bits is read as the number. -/
theorem reads_varint {α : Type} (e : Endian) {width v : ℕ} {g : ℕ → α} {a : α}
    (hlt : v < 128 ^ 5) (hg : g (v % 2 ^ width) = a) :
    Reads e (readLoop host width 0 0 >>= fun r => pure (g r)) (encode v) a := by
  intro base s f rest h hdata
  have hdecode : decode 5 (f.data.drop f.position) = some (v, rest) := by
    rw [hdata]
    exact decode_encode hlt (by decide) rest
  obtain ⟨t, ht, hholds, hcap⟩ := readLoop_run host width rfl 0 h hdecode
  have hend : f.data.length - rest.length = f.position + (encode v).length := by
    have hlength := congrArg List.length hdata
    rw [List.length_drop, List.length_append] at hlength
    have hle := h.position_le
    have hpos := length_encode_pos v
    omega
  rw [Nat.zero_or, Nat.mul_zero, Nat.shiftLeft_zero] at ht
  rw [hend] at hholds
  refine ⟨t, ?_, hholds, hcap⟩
  rw [Method.bind_ok ht, hg]
  rfl

/-- Of a longer number the reader makes what its low bits are. -/
theorem readLoop_long (width : ℕ) {v : ℕ} {rest : List UInt8} (h : Holds base e s f)
    (hdata : f.data.drop f.position = encode v ++ rest) (hle : 128 ^ 5 ≤ v) :
    ∃ t, readLoop host width 0 0 s = .ok (v % 128 ^ 5 % 2 ^ width) t := by
  obtain ⟨left, -, hlong⟩ := decode_encode_long hle rest
  rw [← hdata] at hlong
  obtain ⟨t, ht, -⟩ := readLoop_run host width rfl 0 h hlong
  rw [Nat.zero_or, Nat.mul_zero, Nat.shiftLeft_zero] at ht
  exact ⟨t, ht⟩

end Reading

section ZigZag

theorem toBitVec_encodeZigzag32 (v : Int32) :
    (encodeZigzag32 v).toBitVec = zigzag v.toBitVec := by
  have hneg : v < 0 ↔ v.toBitVec.msb = true := by
    rw [Int32.lt_iff_toInt_lt, BitVec.msb_eq_toInt, decide_eq_true_eq]
    rfl
  unfold encodeZigzag32 zigzag
  by_cases h : v < 0
  · rw [if_pos h, if_pos (hneg.1 h)]
    rfl
  · rw [if_neg h, if_neg (fun hmsb => h (hneg.2 hmsb))]
    rfl

theorem toBitVec_encodeZigzag64 (v : Int64) :
    (encodeZigzag64 v).toBitVec = zigzag v.toBitVec := by
  have hneg : v < 0 ↔ v.toBitVec.msb = true := by
    rw [Int64.lt_iff_toInt_lt, BitVec.msb_eq_toInt, decide_eq_true_eq]
    rfl
  unfold encodeZigzag64 zigzag
  by_cases h : v < 0
  · rw [if_pos h, if_pos (hneg.1 h)]
    rfl
  · rw [if_neg h, if_neg (fun hmsb => h (hneg.2 hmsb))]
    rfl

theorem decodeZigzag32_encodeZigzag32 (v : Int32) : decodeZigzag32 (encodeZigzag32 v) = v := by
  apply Int32.toBitVec_inj.1
  change unzigzag (encodeZigzag32 v).toBitVec = _
  rw [toBitVec_encodeZigzag32, unzigzag_zigzag (by decide)]

theorem encodeZigzag32_decodeZigzag32 (v : UInt32) : encodeZigzag32 (decodeZigzag32 v) = v := by
  apply UInt32.toBitVec_inj.1
  rw [toBitVec_encodeZigzag32]
  exact zigzag_unzigzag (by decide) v.toBitVec

theorem decodeZigzag64_encodeZigzag64 (v : Int64) : decodeZigzag64 (encodeZigzag64 v) = v := by
  apply Int64.toBitVec_inj.1
  change unzigzag (encodeZigzag64 v).toBitVec = _
  rw [toBitVec_encodeZigzag64, unzigzag_zigzag (by decide)]

theorem encodeZigzag64_decodeZigzag64 (v : UInt64) : encodeZigzag64 (decodeZigzag64 v) = v := by
  apply UInt64.toBitVec_inj.1
  rw [toBitVec_encodeZigzag64]
  exact zigzag_unzigzag (by decide) v.toBitVec

/-- The 35 bits that are read hold the signed numbers of 35 bits. -/
theorem encodeZigzag64_lt_iff (v : Int64) : (encodeZigzag64 v).toNat < 128 ^ 5 ↔
    -2 ^ 34 ≤ v.toInt ∧ v.toInt < 2 ^ 34 := by
  have hspec := zigzag_spec v.toBitVec
  rw [← toBitVec_encodeZigzag64] at hspec
  change ((encodeZigzag64 v).toNat : ℤ) = if v.toInt < 0 then -2 * v.toInt - 1 else 2 * v.toInt
    at hspec
  split at hspec <;> omega

end ZigZag

section Members

variable (host : ByteOrder) (heap : Heap) (e : Endian)

theorem writes_uint32 (v : UInt32) : Writes e (writeUint32 heap v) (encode v.toNat) := by
  rw [writeUint32, writeLoop_eq]
  exact writes_write heap _

theorem writes_uint64 (v : UInt64) : Writes e (writeUint64 heap v) (encode v.toNat) := by
  rw [writeUint64, writeLoop_eq]
  exact writes_write heap _

theorem reads_uint32 (v : UInt32) : Reads e (readUint32 host) (encode v.toNat) v := by
  have hlt := v.toNat_lt
  apply reads_varint host e (by omega)
  rw [Nat.mod_eq_of_lt hlt, UInt32.ofNat_toNat]

theorem reads_int32 (v : Int32) :
    Reads e (readInt32 host) (encode (encodeZigzag32 v).toNat) v := by
  have hread := (reads_uint32 host e (encodeZigzag32 v)).map decodeZigzag32
  rwa [decodeZigzag32_encodeZigzag32] at hread

theorem reads_uint64 {v : UInt64} (h : v.toNat < 128 ^ 5) :
    Reads e (readUint64 host) (encode v.toNat) v := by
  apply reads_varint host e h
  rw [Nat.mod_eq_of_lt v.toNat_lt, UInt64.ofNat_toNat]

theorem reads_int64 {v : Int64} (h : (encodeZigzag64 v).toNat < 128 ^ 5) :
    Reads e (readInt64 host) (encode (encodeZigzag64 v).toNat) v := by
  have hread := (reads_uint64 host e h).map decodeZigzag64
  rwa [decodeZigzag64_encodeZigzag64] at hread

variable {host heap e} {base : ℕ} {s t : ByteArrayState} {f : FlatArray} {rest : List UInt8}

/-- A longer number comes back as a shorter one. -/
theorem readUint64_long {v w : UInt64} (hlong : ¬ v.toNat < 128 ^ 5) (h : Holds base e s f)
    (hdata : f.data.drop f.position = encode v.toNat ++ rest)
    (hread : readUint64 host s = .ok w t) : w.toNat < 128 ^ 5 := by
  obtain ⟨u, hu⟩ := readLoop_long host 64 h hdata (Nat.le_of_not_lt hlong)
  rw [readUint64, Method.bind_ok hu] at hread
  cases hread
  have hlow := Nat.mod_lt v.toNat (show 0 < 128 ^ 5 by decide)
  rw [UInt64.toNat_ofNat']
  omega

theorem readBack_uint64_iff (h : Holds base e s f) (values : List UInt64) (tail : List UInt8) :
    ReadBack heap (Method.forEach (writeUint64 heap) values) tail
      (Method.each (fun _ => readUint64 host) values) s values ↔
      ∀ v ∈ values, v.toNat < 128 ^ 5 := by
  apply readBack_each_iff h (fun v => writes_uint64 heap e v) fun v hv => reads_uint64 host e hv
  intro v hlong s f rest t hs hdata hread
  exact hlong (readUint64_long hlong hs hdata hread)

theorem readBack_int64_iff (h : Holds base e s f) (values : List Int64) (tail : List UInt8) :
    ReadBack heap (Method.forEach (writeInt64 heap) values) tail
      (Method.each (fun _ => readInt64 host) values) s values ↔
      ∀ v ∈ values, (encodeZigzag64 v).toNat < 128 ^ 5 := by
  apply readBack_each_iff h (fun v => writes_uint64 heap e (encodeZigzag64 v))
    fun v hv => reads_int64 host e hv
  intro v hlong s f rest t hs hdata hread
  obtain ⟨w, u, hw, hpure⟩ := Method.of_bind_ok hread
  cases hpure
  rw [encodeZigzag64_decodeZigzag64] at hlong hdata
  exact hlong (readUint64_long hlong hs hdata hw)

/-- Whatever bytes are read as a number are at least as many as those it is written with. -/
theorem length_le_of_readBack (h : Holds base e s f) {v : UInt32} {code tail : List UInt8}
    (hread : ReadBack heap (write heap code) tail (readUint32 host) s v) :
    (encode v.toNat).length ≤ code.length := by
  obtain ⟨u, g, rest, hholds, hposition, hdata, -, hback⟩ :=
    readBack_at h (writes_write heap code) tail
  rw [hback] at hread
  obtain ⟨t, ht, hend⟩ := hread
  obtain ⟨n, w, hn, hpure⟩ := Method.of_bind_ok ht
  cases hpure
  have hlength := congrArg List.length hdata
  rw [List.length_drop, List.length_append] at hlength
  cases hdecode : decode 5 (g.data.drop g.position) with
  | none =>
    obtain ⟨what, x, hthrow⟩ := readLoop_throws host 32 rfl 0 hholds hdecode
    cases hthrow.symm.trans hn
  | some r =>
    obtain ⟨m, left⟩ := r
    obtain ⟨x, hx, hholds', -⟩ := readLoop_run host 32 rfl 0 hholds hdecode
    cases hx.symm.trans hn
    have hshort := decode_shortens hdecode
    rw [hholds'.sim.position_eq] at hend
    dsimp only at hend
    rw [Nat.zero_or, Nat.mul_zero, Nat.shiftLeft_zero]
    have hle : (UInt32.ofNat (m % 2 ^ 32)).toNat ≤ m := by
      rw [UInt32.toNat_ofNat']
      exact le_trans (Nat.mod_le _ _) (Nat.mod_le _ _)
    have hcode := length_encode_le_of_decode hdecode hle
    rw [List.length_drop] at hcode hshort
    omega

end Members

/-- The bytes in `tmp` fit into it, are written, and are no more than any others that are read
as the value. -/
def ShortestWrite {α : Type} (heap : Heap) (s : ByteArrayState) (tmp : List UInt8)
    (writing : Method Unit) (reading : Method α) (a : α) : Prop :=
  (1 ≤ tmp.length ∧ tmp.length ≤ 5) ∧
    (∃ t, writing s = .ok () t ∧ t.position = s.position + tmp.length) ∧
    ∀ code tail, ReadBack heap (write heap code) tail reading s a → tmp.length ≤ code.length

section RoundTrips

variable (host : ByteOrder) (heap : Heap) {base : ℕ} (hb : 1 ≤ base) {s : ByteArrayState}

include hb

theorem shortest_uint32 (hs : Used heap base s) (v : UInt32) :
    ShortestWrite heap s (writeLoop v.toNat) (writeUint32 heap v) (readUint32 host) v := by
  have hholds := hs.holds hb
  have hlt := v.toNat_lt
  refine ⟨?_, ?_, ?_⟩
  · rw [writeLoop_eq]
    exact ⟨length_encode_pos _, length_encode_le (by decide) (by omega)⟩
  · obtain ⟨t, ht, hend, -⟩ := writes_write heap (writeLoop v.toNat) hholds
    exact ⟨t, ht, hend.sim.position_eq⟩
  · intro code tail hread
    rw [writeLoop_eq]
    exact length_le_of_readBack hholds hread

theorem shortest_int32 (hs : Used heap base s) (v : Int32) :
    ShortestWrite heap s (writeLoop (encodeZigzag32 v).toNat) (writeInt32 heap v)
      (readInt32 host) v := by
  obtain ⟨hsize, hwrite, hshort⟩ := shortest_uint32 host heap hb hs (encodeZigzag32 v)
  refine ⟨hsize, hwrite, ?_⟩
  intro code tail hread
  apply hshort code tail
  obtain ⟨u, g, rest, -, -, -, -, hback⟩ :=
    readBack_at (hs.holds hb) (writes_write heap code) tail
  rw [hback] at hread ⊢
  obtain ⟨t, ht, hend⟩ := hread
  obtain ⟨n, x, hn, hpure⟩ := Method.of_bind_ok ht
  cases hpure
  rw [encodeZigzag32_decodeZigzag32]
  exact ⟨t, hn, hend⟩

/-- Values of 32 bits are read back as they were written, in as few bytes as can be. -/
theorem varint32_round_trip (hs : Used heap base s) :
    (∀ (values : List UInt32) tail, ReadBack heap (Method.forEach (writeUint32 heap) values) tail
      (Method.each (fun _ => readUint32 host) values) s values) ∧
    (∀ (values : List Int32) tail, ReadBack heap (Method.forEach (writeInt32 heap) values) tail
      (Method.each (fun _ => readInt32 host) values) s values) ∧
    (∀ v : UInt32,
      ShortestWrite heap s (writeLoop v.toNat) (writeUint32 heap v) (readUint32 host) v) ∧
    ∀ v : Int32, ShortestWrite heap s (writeLoop (encodeZigzag32 v).toNat) (writeInt32 heap v)
      (readInt32 host) v := by
  have hholds := hs.holds hb
  refine ⟨?_, ?_, shortest_uint32 host heap hb hs, shortest_int32 host heap hb hs⟩
  · intro values tail
    apply readBack_of_each hholds (fun v => writes_uint32 heap _ v)
    exact fun v _ => reads_uint32 host _ v
  · intro values tail
    apply readBack_of_each hholds (fun v => writes_uint32 heap _ (encodeZigzag32 v))
    exact fun v _ => reads_int32 host _ v

/-- Values of 64 bits are read back exactly when the 35 bits that are read hold them. -/
theorem varint64_round_trip_iff (hs : Used heap base s) :
    (∀ (values : List UInt64) tail,
      ReadBack heap (Method.forEach (writeUint64 heap) values) tail
        (Method.each (fun _ => readUint64 host) values) s values ↔
        ∀ v ∈ values, v.toNat < 2 ^ 35) ∧
    ∀ (values : List Int64) tail,
      ReadBack heap (Method.forEach (writeInt64 heap) values) tail
        (Method.each (fun _ => readInt64 host) values) s values ↔
        ∀ v ∈ values, -2 ^ 34 ≤ v.toInt ∧ v.toInt < 2 ^ 34 := by
  have hholds := hs.holds hb
  constructor
  · exact fun values tail => readBack_uint64_iff hholds values tail
  · intro values tail
    rw [readBack_int64_iff hholds]
    exact forall₂_congr fun v _ => encodeZigzag64_lt_iff v

end RoundTrips

theorem varint32_extremes :
    ReadBack (fun _ _ => 0) (Method.forEach (writeInt32 fun _ _ => 0) [-2147483648, 2147483647])
      [255] (Method.each (fun _ => readInt32 .little) [-2147483648, 2147483647])
      (.construct (fun _ _ => 0) 3) [-2147483648, 2147483647] :=
  (varint32_round_trip .little (fun _ _ => 0) (show 1 ≤ 3 by decide) ⟨[], [], rfl⟩).2.1 _ _

theorem varint64_greatest_read :
    ReadBack (fun _ _ => 0) (Method.forEach (writeUint64 fun _ _ => 0) [34359738367]) [255]
      (Method.each (fun _ => readUint64 .little) [34359738367]) (.construct (fun _ _ => 0) 4)
      [34359738367] :=
  ((varint64_round_trip_iff .little (fun _ _ => 0) (show 1 ≤ 4 by decide)
    ⟨[], [], rfl⟩).1 _ _).2 (List.forall_mem_singleton.2 (by decide))

/-- The next number has a sixth byte, which is not read. -/
theorem varint64_sixth_byte :
    ¬ ∀ (host : ByteOrder) (heap : Heap) (base : ℕ), 1 ≤ base → ∀ s, Used heap base s →
      (∀ (values : List UInt64) tail,
        ReadBack heap (Method.forEach (writeUint64 heap) values) tail
          (Method.each (fun _ => readUint64 host) values) s values) ∧
      ∀ (values : List Int64) tail,
        ReadBack heap (Method.forEach (writeInt64 heap) values) tail
          (Method.each (fun _ => readInt64 host) values) s values := by
  intro h
  have hs : Used (fun _ _ => 0) 4 (.construct (fun _ _ => 0) 4) := ⟨[], [], rfl⟩
  have hread := (h .little (fun _ _ => 0) 4 (by decide) _ hs).1 [34359738368] []
  rw [readBack_uint64_iff (hs.holds (by decide))] at hread
  exact absurd (hread 34359738368 List.mem_cons_self) (by decide)

end ByteArrayVarints
