import SylarNet.ByteArrayMethods
import SylarNet.HostWords

/-!
# Values of a fixed width

A value is swapped before its bytes in memory are written, and after they are read, if the order
of the array is not that of the host. So the order of the host cannot be seen in what is stored.
-/
namespace ByteArrayFixed

open HostWords ListOverwrite SylarByteArray ByteArrayRefinement ByteArrayMethods

/-- `SYLAR_BYTE_ORDER`. -/
def byteOrder : ByteOrder → Endian
  | .little => .little
  | .big => .big

def getEndian : Method Endian := fun s => .ok s.endian s

section Functions

variable (host : ByteOrder) (heap : Heap)

/-- The functions of more than one byte differ in the type of their value. -/
def writeFixed (width value : ℕ) : Method Unit := do
  let endian ← getEndian
  let value := if endian ≠ byteOrder host then byteswap width value else value
  write heap (store host width value)

/-- `XX(type)`. -/
def readFixed (width : ℕ) : Method ℕ := do
  let buf ← read width
  let v := load host buf
  let endian ← getEndian
  pure (if endian ≠ byteOrder host then byteswap width v else v)

def writeFint8 (value : Int8) : Method Unit := write heap (store host 1 value.toUInt8.toNat)
def writeFuint8 (value : UInt8) : Method Unit := write heap (store host 1 value.toNat)
def writeFint16 (value : Int16) : Method Unit := writeFixed host heap 2 value.toUInt16.toNat
def writeFuint16 (value : UInt16) : Method Unit := writeFixed host heap 2 value.toNat
def writeFint32 (value : Int32) : Method Unit := writeFixed host heap 4 value.toUInt32.toNat
def writeFuint32 (value : UInt32) : Method Unit := writeFixed host heap 4 value.toNat
def writeFint64 (value : Int64) : Method Unit := writeFixed host heap 8 value.toUInt64.toNat
def writeFuint64 (value : UInt64) : Method Unit := writeFixed host heap 8 value.toNat

/-- A `float` is the pattern that `memcpy` finds in it. -/
def writeFloat (value : UInt32) : Method Unit := writeFuint32 host heap value

/-- A `double` likewise. -/
def writeDouble (value : UInt64) : Method Unit := writeFuint64 host heap value

def readFint8 : Method Int8 := do
  let v ← read 1
  pure (UInt8.ofNat (load host v)).toInt8

def readFuint8 : Method UInt8 := do
  let v ← read 1
  pure (UInt8.ofNat (load host v))

def readFint16 : Method Int16 := do
  let v ← readFixed host 2
  pure (UInt16.ofNat v).toInt16

def readFuint16 : Method UInt16 := do
  let v ← readFixed host 2
  pure (UInt16.ofNat v)

def readFint32 : Method Int32 := do
  let v ← readFixed host 4
  pure (UInt32.ofNat v).toInt32

def readFuint32 : Method UInt32 := do
  let v ← readFixed host 4
  pure (UInt32.ofNat v)

def readFint64 : Method Int64 := do
  let v ← readFixed host 8
  pure (UInt64.ofNat v).toInt64

def readFuint64 : Method UInt64 := do
  let v ← readFixed host 8
  pure (UInt64.ofNat v)

def readFloat : Method UInt32 := readFuint32 host
def readDouble : Method UInt64 := readFuint64 host

end Functions

inductive FixedType where
  | int8 | uint8 | int16 | uint16 | int32 | uint32 | int64 | uint64 | float | double
  deriving DecidableEq, Repr

inductive FixedValue where
  | int8 (value : Int8)
  | uint8 (value : UInt8)
  | int16 (value : Int16)
  | uint16 (value : UInt16)
  | int32 (value : Int32)
  | uint32 (value : UInt32)
  | int64 (value : Int64)
  | uint64 (value : UInt64)
  | float (pattern : UInt32)
  | double (pattern : UInt64)
  deriving DecidableEq

namespace FixedValue

def type : FixedValue → FixedType
  | .int8 _ => .int8
  | .uint8 _ => .uint8
  | .int16 _ => .int16
  | .uint16 _ => .uint16
  | .int32 _ => .int32
  | .uint32 _ => .uint32
  | .int64 _ => .int64
  | .uint64 _ => .uint64
  | .float _ => .float
  | .double _ => .double

/-- The size of the type in bytes, and the value as an unsigned number. -/
def word : FixedValue → ℕ × ℕ
  | .int8 v => (1, v.toUInt8.toNat)
  | .uint8 v => (1, v.toNat)
  | .int16 v => (2, v.toUInt16.toNat)
  | .uint16 v => (2, v.toNat)
  | .int32 v => (4, v.toUInt32.toNat)
  | .uint32 v | .float v => (4, v.toNat)
  | .int64 v => (8, v.toUInt64.toNat)
  | .uint64 v | .double v => (8, v.toNat)

def write (host : ByteOrder) (heap : Heap) : FixedValue → Method Unit
  | .int8 v => writeFint8 host heap v
  | .uint8 v => writeFuint8 host heap v
  | .int16 v => writeFint16 host heap v
  | .uint16 v => writeFuint16 host heap v
  | .int32 v => writeFint32 host heap v
  | .uint32 v => writeFuint32 host heap v
  | .int64 v => writeFint64 host heap v
  | .uint64 v => writeFuint64 host heap v
  | .float v => writeFloat host heap v
  | .double v => writeDouble host heap v

end FixedValue

/-- The function that reads a value of the type. -/
def FixedType.read (host : ByteOrder) : FixedType → Method FixedValue
  | .int8 => do pure (.int8 (← readFint8 host))
  | .uint8 => do pure (.uint8 (← readFuint8 host))
  | .int16 => do pure (.int16 (← readFint16 host))
  | .uint16 => do pure (.uint16 (← readFuint16 host))
  | .int32 => do pure (.int32 (← readFint32 host))
  | .uint32 => do pure (.uint32 (← readFuint32 host))
  | .int64 => do pure (.int64 (← readFint64 host))
  | .uint64 => do pure (.uint64 (← readFuint64 host))
  | .float => do pure (.float (← readFloat host))
  | .double => do pure (.double (← readDouble host))

/-- The bytes of a word in the order of the array. -/
def encoding (e : Endian) (width v : ℕ) : List UInt8 :=
  match e with
  | .little => toLittle width v
  | .big => toBig width v

def FixedValue.encoding (e : Endian) (v : FixedValue) : List UInt8 :=
  ByteArrayFixed.encoding e v.word.1 v.word.2

section Words

variable {host : ByteOrder} {heap : Heap} {e : Endian} {width v : ℕ} {α β : Type}

@[simp] theorem length_encoding (e : Endian) (width v : ℕ) :
    (encoding e width v).length = width := by
  cases e <;> simp [encoding]

theorem toBig_byteswap (width v : ℕ) : toBig width (byteswap width v) = toLittle width v := by
  rw [toBig, toLittle_byteswap, toBig, List.reverse_reverse]

theorem byteswap_byteswap (h : v < 256 ^ width) : byteswap width (byteswap width v) = v := by
  rw [byteswap, toBig_byteswap, ofLittle_toLittle h]

/-- What is stored does not depend on the host. -/
theorem store_swapped (host : ByteOrder) (e : Endian) (width v : ℕ) :
    store host width (if e ≠ byteOrder host then byteswap width v else v) =
      encoding e width v := by
  cases host <;> cases e <;>
    simp [byteOrder, store, encoding, toBig_byteswap, toLittle_byteswap]

theorem load_encoding (host : ByteOrder) (e : Endian) (h : v < 256 ^ width) :
    (if e ≠ byteOrder host then byteswap width (load host (encoding e width v))
      else load host (encoding e width v)) = v := by
  have hbig : ofLittle (toBig width v) = byteswap width v := rfl
  have hback : ofLittle (toLittle width v).reverse = byteswap width v := rfl
  cases host <;> cases e <;>
    simp [byteOrder, load, encoding, hbig, hback, byteswap_byteswap h, ofLittle_toLittle h,
      ofLittle_reverse_toBig h]

theorem getEndian_bind {base : ℕ} {s : ByteArrayState} {f : FlatArray} (h : Holds base e s f)
    (k : Endian → Method α) : (getEndian >>= k) s = k e s := by
  have hget : getEndian s = .ok e s := by rw [getEndian, h.endian_eq]
  exact Method.bind_ok hget k

theorem writes_fixed (host : ByteOrder) (heap : Heap) (e : Endian) (width v : ℕ) :
    Writes e (writeFixed host heap width v) (encoding e width v) := by
  intro base s f h
  rw [writeFixed, getEndian_bind h, store_swapped]
  exact writes_write heap _ h

theorem reads_fixed (host : ByteOrder) (e : Endian) (hwidth : 1 ≤ width) (h : v < 256 ^ width) :
    Reads e (readFixed host width) (encoding e width v) v := by
  have hswap : Reads e (getEndian >>= fun endian =>
      pure (if endian ≠ byteOrder host then byteswap width (load host (encoding e width v))
        else load host (encoding e width v))) [] v := by
    intro base s f rest hs hdata
    rw [getEndian_bind hs, load_encoding host e h]
    exact reads_pure v hs hdata
  have hread : Reads e (readFixed host width) (encoding e width v ++ []) v :=
    (reads_read (length_encoding e width v) hwidth).bind hswap
  rwa [List.append_nil] at hread

/-- One byte has only one order. -/
theorem store_byte (host : ByteOrder) (e : Endian) (v : ℕ) : store host 1 v = encoding e 1 v := by
  cases host <;> cases e <;> rfl

theorem load_byte (host : ByteOrder) (e : Endian) {v : ℕ} (h : v < 256) :
    load host (encoding e 1 v) = v := by
  rw [← store_byte host e]
  cases host with
  | little => exact ofLittle_toLittle h
  | big => exact ofLittle_reverse_toBig h

theorem reads_byte (host : ByteOrder) (e : Endian) (g : ℕ → α) {v : ℕ} (h : v < 256) :
    Reads e (read 1 >>= fun buf => pure (g (load host buf))) (encoding e 1 v) (g v) := by
  have hread : Reads e (read 1) (encoding e 1 v) (encoding e 1 v) :=
    reads_read (length_encoding e 1 v) (le_refl 1)
  have hmap := hread.map fun buf => g (load host buf)
  rwa [load_byte host e h] at hmap

/-- A function of the family that makes the value `a` of the word. -/
theorem reads_word (host : ByteOrder) (e : Endian) {g : ℕ → α} {a : α} (hwidth : 1 ≤ width)
    (h : v < 256 ^ width) (hg : g v = a) :
    Reads e (readFixed host width >>= fun v => pure (g v)) (encoding e width v) a := by
  rw [← hg]
  exact (reads_fixed host e hwidth h).map g

end Words

section Values

variable (host : ByteOrder) (heap : Heap) (e : Endian)

theorem writes_value (v : FixedValue) : Writes e (v.write host heap) (v.encoding e) := by
  cases v with
  | int8 v | uint8 v =>
    rw [FixedValue.encoding, FixedValue.word, ← store_byte host e]
    exact writes_write heap _
  | _ => exact writes_fixed host heap e _ _

theorem reads_value (v : FixedValue) : Reads e (v.type.read host) (v.encoding e) v := by
  cases v with
  | int8 v =>
    have h : Reads e (readFint8 host) (encoding e 1 v.toUInt8.toNat) v := by
      have hbyte := reads_byte host e (fun n => (UInt8.ofNat n).toInt8) v.toUInt8.toNat_lt
      rwa [UInt8.ofNat_toNat, Int8.toInt8_toUInt8] at hbyte
    exact h.map FixedValue.int8
  | uint8 v =>
    have h : Reads e (readFuint8 host) (encoding e 1 v.toNat) v := by
      have hbyte := reads_byte host e UInt8.ofNat v.toNat_lt
      rwa [UInt8.ofNat_toNat] at hbyte
    exact h.map FixedValue.uint8
  | int16 v =>
    have h : Reads e (readFint16 host) (encoding e 2 v.toUInt16.toNat) v :=
      reads_word host e (by decide) v.toUInt16.toNat_lt (by simp)
    exact h.map FixedValue.int16
  | uint16 v =>
    have h : Reads e (readFuint16 host) (encoding e 2 v.toNat) v :=
      reads_word host e (by decide) v.toNat_lt UInt16.ofNat_toNat
    exact h.map FixedValue.uint16
  | int32 v =>
    have h : Reads e (readFint32 host) (encoding e 4 v.toUInt32.toNat) v :=
      reads_word host e (by decide) v.toUInt32.toNat_lt (by simp)
    exact h.map FixedValue.int32
  | uint32 v =>
    have h : Reads e (readFuint32 host) (encoding e 4 v.toNat) v :=
      reads_word host e (by decide) v.toNat_lt UInt32.ofNat_toNat
    exact h.map FixedValue.uint32
  | int64 v =>
    have h : Reads e (readFint64 host) (encoding e 8 v.toUInt64.toNat) v :=
      reads_word host e (by decide) v.toUInt64.toNat_lt (by simp)
    exact h.map FixedValue.int64
  | uint64 v =>
    have h : Reads e (readFuint64 host) (encoding e 8 v.toNat) v :=
      reads_word host e (by decide) v.toNat_lt UInt64.ofNat_toNat
    exact h.map FixedValue.uint64
  | float v =>
    have h : Reads e (readFloat host) (encoding e 4 v.toNat) v :=
      reads_word host e (by decide) v.toNat_lt UInt32.ofNat_toNat
    exact h.map FixedValue.float
  | double v =>
    have h : Reads e (readDouble host) (encoding e 8 v.toNat) v :=
      reads_word host e (by decide) v.toNat_lt UInt64.ofNat_toNat
    exact h.map FixedValue.double

/-- What the array holds from the old cursor to the new one, whatever the host is, and what the
matching functions make of it. -/
theorem fixed_width_round_trip {base : ℕ} (hb : 1 ≤ base) {s : ByteArrayState}
    (hs : Used heap base s) (values : List FixedValue) :
    (∃ t, Method.forEach (FixedValue.write host heap) values s = .ok () t ∧
      t.position = s.position + (values.flatMap (FixedValue.encoding s.endian)).length ∧
      ((storage t).drop s.position).take (t.position - s.position) =
        values.flatMap (FixedValue.encoding s.endian)) ∧
    ∀ tail, ReadBack heap (Method.forEach (FixedValue.write host heap) values) tail
      (Method.each (FixedType.read host) (values.map FixedValue.type)) s values := by
  have hholds := hs.holds hb
  have hwrites : Writes s.endian (Method.forEach (FixedValue.write host heap) values)
      (values.flatMap (FixedValue.encoding s.endian)) :=
    Writes.forEach fun v _ => writes_value host heap s.endian v
  constructor
  · obtain ⟨t, ht, hend, -⟩ := hwrites hholds
    have hposition := hend.sim.position_eq
    refine ⟨t, ht, hposition, ?_⟩
    rw [hposition, Nat.add_sub_cancel_left]
    exact hend.stored (drop_overwrite hholds.position_le _)
  · intro tail
    exact readBack_of_reads hholds hwrites
      (Reads.each fun v _ => reads_value host s.endian v) tail

end Values

/-- A word of either order in blocks of two bytes. -/
theorem fixed_width_two_byte_blocks :
    (∃ t, Method.forEach (FixedValue.write .little fun _ _ => 0) [.uint32 1, .int8 (-1)]
        (.construct (fun _ _ => 0) 2) = .ok () t ∧
      t.position = 0 + ([0, 0, 0, 1, 255] : List UInt8).length ∧
      ((storage t).drop 0).take (t.position - 0) = [0, 0, 0, 1, 255]) ∧
    ∀ tail, ReadBack (fun _ _ => 0)
      (Method.forEach (FixedValue.write .little fun _ _ => 0) [.uint32 1, .int8 (-1)]) tail
      (Method.each (FixedType.read .little) [.uint32, .int8]) (.construct (fun _ _ => 0) 2)
      [.uint32 1, .int8 (-1)] :=
  fixed_width_round_trip .little (fun _ _ => 0) (show 1 ≤ 2 by decide) ⟨[], [], rfl⟩
    [.uint32 1, .int8 (-1)]

end ByteArrayFixed
