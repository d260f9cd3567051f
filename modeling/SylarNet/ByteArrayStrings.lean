import SylarNet.ByteArrayVarints

/-!
# Strings behind their length

A length is narrowed to the type of its prefix without a check. Reading an empty string is a
`read` of no bytes, which looks into the block of the cursor all the same; there is none when the
cursor is at the end of the last block.
-/
namespace ByteArrayStrings

open ListOverwrite SylarByteArray ByteArrayRefinement ByteArrayMethods ByteArrayFixed
  ByteArrayVarints
open HostWords (ByteOrder)

section Functions

variable (host : ByteOrder) (heap : Heap)

def writeStringF16 (value : List UInt8) : Method Unit := do
  writeFuint16 host heap (UInt16.ofNat value.length)
  write heap value

def writeStringF32 (value : List UInt8) : Method Unit := do
  writeFuint32 host heap (UInt32.ofNat value.length)
  write heap value

def writeStringF64 (value : List UInt8) : Method Unit := do
  writeFuint64 host heap (UInt64.ofNat value.length)
  write heap value

def writeStringVint (value : List UInt8) : Method Unit := do
  writeUint64 heap (UInt64.ofNat value.length)
  write heap value

def readStringF16 : Method (List UInt8) := do
  let len ← readFuint16 host
  read len.toNat

def readStringF32 : Method (List UInt8) := do
  let len ← readFuint32 host
  read len.toNat

def readStringF64 : Method (List UInt8) := do
  let len ← readFuint64 host
  read len.toNat

def readStringVint : Method (List UInt8) := do
  let len ← readUint64 host
  read len.toNat

end Functions

inductive StringFormat where
  | f16
  | f32
  | f64
  | vint
  deriving DecidableEq, Repr

namespace StringFormat

def write (host : ByteOrder) (heap : Heap) : StringFormat → List UInt8 → Method Unit
  | .f16 => writeStringF16 host heap
  | .f32 => writeStringF32 host heap
  | .f64 => writeStringF64 host heap
  | .vint => writeStringVint heap

def read (host : ByteOrder) : StringFormat → Method (List UInt8)
  | .f16 => readStringF16 host
  | .f32 => readStringF32 host
  | .f64 => readStringF64 host
  | .vint => readStringVint host

/-- The lengths that can be written and read are those below. -/
def limit : StringFormat → ℕ
  | .f16 => 2 ^ 16
  | .f32 => 2 ^ 32
  | .f64 => 2 ^ 64
  | .vint => 2 ^ 35

/-- The bytes in front of the string. -/
def header (e : Endian) : StringFormat → ℕ → List UInt8
  | .f16, n => encoding e 2 (n % 2 ^ 16)
  | .f32, n => encoding e 4 (n % 2 ^ 32)
  | .f64, n => encoding e 8 (n % 2 ^ 64)
  | .vint, n => Varints.encode (n % 2 ^ 64)

end StringFormat

/-- A string with the format that is chosen for it. -/
abbrev Field := StringFormat × List UInt8

def frame (e : Endian) (field : Field) : List UInt8 :=
  field.1.header e field.2.length ++ field.2

def EndsEmpty (fields : List Field) : Prop := ∃ format, fields.getLast? = some (format, [])

section Fields

variable (host : ByteOrder) (heap : Heap) {base : ℕ} {e : Endian} {s : ByteArrayState}
  {f : FlatArray}

theorem length_header_pos (e : Endian) (format : StringFormat) (n : ℕ) :
    1 ≤ (format.header e n).length := by
  cases format with
  | vint => exact Varints.length_encode_pos _
  | _ => simp [StringFormat.header]

theorem writes_field (e : Endian) (field : Field) :
    Writes e (field.1.write host heap field.2) (frame e field) := by
  obtain ⟨format, value⟩ := field
  have hwrite : Writes e (write heap value) value := writes_write heap value
  cases format with
  | f16 =>
    have hlength := writes_value host heap e (.uint16 (UInt16.ofNat value.length))
    rw [FixedValue.encoding, FixedValue.word, UInt16.toNat_ofNat'] at hlength
    exact hlength.bind hwrite
  | f32 =>
    have hlength := writes_value host heap e (.uint32 (UInt32.ofNat value.length))
    rw [FixedValue.encoding, FixedValue.word, UInt32.toNat_ofNat'] at hlength
    exact hlength.bind hwrite
  | f64 =>
    have hlength := writes_value host heap e (.uint64 (UInt64.ofNat value.length))
    rw [FixedValue.encoding, FixedValue.word, UInt64.toNat_ofNat'] at hlength
    exact hlength.bind hwrite
  | vint =>
    have hlength := writes_uint64 heap e (UInt64.ofNat value.length)
    rw [UInt64.toNat_ofNat'] at hlength
    exact hlength.bind hwrite

/-- No bytes are read anywhere but at the end of the last block. -/
theorem read_none (h : Holds base e s f) (hroom : f.position < s.capacity) :
    ∃ t, read 0 s = .ok [] t ∧ Holds base e t ⟨f.data, f.position⟩ ∧ t.capacity = s.capacity := by
  have hposition := h.sim.position_eq
  obtain ⟨t, ht, hinv, hpos, hsize, hbase, hstore⟩ :=
    read_spec h.sim.inv (Nat.zero_le _) (by omega)
  obtain ⟨hendian, hcap⟩ := read_frame ht
  rw [List.take_zero] at ht
  refine ⟨t, ht, ⟨⟨hinv, hbase.trans h.sim.base_eq, hpos.trans hposition,
    hsize.trans h.sim.size_eq, ?_⟩, hendian.trans h.endian_eq⟩, hcap⟩
  rw [hstore, hsize]
  exact h.sim.data_eq

/-- Where the string of a frame begins. -/
theorem length_read {β : Type} {m : Method β} {header str rest : List UInt8} {b : β}
    (hm : Reads e m header b) (h : Holds base e s f)
    (hdata : f.data.drop f.position = header ++ (str ++ rest)) :
    ∃ t, m s = .ok b t ∧ Holds base e t ⟨f.data, f.position + header.length⟩ ∧
      f.data.drop (f.position + header.length) = str ++ rest ∧ t.capacity = s.capacity := by
  obtain ⟨t, ht, hholds, hcap⟩ := hm h hdata
  refine ⟨t, ht, hholds, ?_, hcap⟩
  rw [← List.drop_drop, hdata, List.drop_left]

theorem prefixed_ok {β : Type} {m : Method β} {header str rest : List UInt8} {b : β} {size : β → ℕ}
    (hm : Reads e m header b) (hsize : size b = str.length) (h : Holds base e s f)
    (hdata : f.data.drop f.position = header ++ (str ++ rest))
    (hroom : str ≠ [] ∨ f.position + header.length < s.capacity) :
    ∃ t, (m >>= fun len => read (size len)) s = .ok str t ∧
      Holds base e t ⟨f.data, f.position + (header ++ str).length⟩ ∧
      t.capacity = s.capacity := by
  obtain ⟨t, ht, hholds, hbehind, hcap⟩ := length_read hm h hdata
  rw [Method.bind_ok ht, hsize, List.length_append, ← Nat.add_assoc]
  by_cases hstr : str = []
  · subst hstr
    have hroom' : f.position + header.length < t.capacity := by
      rw [hcap]
      exact hroom.resolve_left (fun hne => hne rfl)
    obtain ⟨u, hu, hend, hcap'⟩ := read_none hholds hroom'
    exact ⟨u, hu, hend, hcap'.trans hcap⟩
  · obtain ⟨u, hu, hend, hcap'⟩ :=
      reads_read rfl (List.length_pos_iff.2 hstr) hholds hbehind
    exact ⟨u, hu, hend, hcap'.trans hcap⟩

theorem prefixed_null {β : Type} {m : Method β} {header rest : List UInt8} {b : β} {size : β → ℕ}
    (hm : Reads e m header b) (hsize : size b = 0) (h : Holds base e s f)
    (hdata : f.data.drop f.position = header ++ rest)
    (hend : f.position + header.length = s.capacity) :
    (m >>= fun len => read (size len)) s = .nullDeref := by
  have hdata' : f.data.drop f.position = header ++ ([] ++ rest) := hdata
  obtain ⟨t, ht, hholds, -, hcap⟩ := length_read hm h hdata'
  rw [Method.bind_ok ht, hsize]
  apply read_null hholds.sim.inv
  rw [hholds.sim.position_eq, hcap]
  exact hend

/-- The reader of a format gets the length that was written for a string that fits. -/
theorem reads_header (e : Endian) (format : StringFormat) {n : ℕ}
    (hfit : n < format.limit) : ∃ (β : Type) (m : Method β) (size : β → ℕ) (b : β),
      format.read host = (m >>= fun len => read (size len)) ∧
      Reads e m (format.header e n) b ∧ size b = n := by
  cases format with
  | f16 =>
    have hlow : n % 2 ^ 16 = n := Nat.mod_eq_of_lt hfit
    refine ⟨UInt16, readFuint16 host, UInt16.toNat, UInt16.ofNat n, rfl, ?_, ?_⟩
    · rw [StringFormat.header, hlow]
      exact reads_word host e (by decide) hfit rfl
    · rw [UInt16.toNat_ofNat', hlow]
  | f32 =>
    have hlow : n % 2 ^ 32 = n := Nat.mod_eq_of_lt hfit
    refine ⟨UInt32, readFuint32 host, UInt32.toNat, UInt32.ofNat n, rfl, ?_, ?_⟩
    · rw [StringFormat.header, hlow]
      exact reads_word host e (by decide) hfit rfl
    · rw [UInt32.toNat_ofNat', hlow]
  | f64 =>
    have hlow : n % 2 ^ 64 = n := Nat.mod_eq_of_lt hfit
    refine ⟨UInt64, readFuint64 host, UInt64.toNat, UInt64.ofNat n, rfl, ?_, ?_⟩
    · rw [StringFormat.header, hlow]
      exact reads_word host e (by decide) hfit rfl
    · rw [UInt64.toNat_ofNat', hlow]
  | vint =>
    have hfit' : n < 2 ^ 35 := hfit
    have hlow : n % 2 ^ 64 = n := Nat.mod_eq_of_lt (by omega)
    have hn : (UInt64.ofNat n).toNat = n := by rw [UInt64.toNat_ofNat', hlow]
    refine ⟨UInt64, readUint64 host, UInt64.toNat, UInt64.ofNat n, rfl, ?_, hn⟩
    have hread := reads_uint64 host e (v := UInt64.ofNat n) (by rw [hn]; exact hfit)
    rw [hn] at hread
    rwa [StringFormat.header, hlow]

theorem field_ok (field : Field) (hfit : field.2.length < field.1.limit) {rest : List UInt8}
    (h : Holds base e s f) (hdata : f.data.drop f.position = frame e field ++ rest)
    (hroom : field.2 ≠ [] ∨ f.position + (frame e field).length < s.capacity) :
    ∃ t, field.1.read host s = .ok field.2 t ∧
      Holds base e t ⟨f.data, f.position + (frame e field).length⟩ ∧ t.capacity = s.capacity := by
  obtain ⟨β, m, size, b, hread, hm, hsize⟩ := reads_header host e field.1 hfit
  rw [frame, List.append_assoc] at hdata
  rw [hread]
  apply prefixed_ok hm hsize h hdata
  by_cases hempty : field.2 = []
  · apply hroom.imp_right
    intro hlt
    rwa [frame, hempty, List.append_nil, ← hempty] at hlt
  · exact .inl hempty

theorem field_null (field : Field) (hfit : field.2.length < field.1.limit) {rest : List UInt8}
    (h : Holds base e s f) (hdata : f.data.drop f.position = frame e field ++ rest)
    (hempty : field.2 = []) (hend : f.position + (frame e field).length = s.capacity) :
    field.1.read host s = .nullDeref := by
  obtain ⟨β, m, size, b, hread, hm, hsize⟩ := reads_header host e field.1 hfit
  rw [frame, hempty, List.append_nil, ← hempty] at hdata hend
  rw [hempty, List.length_nil] at hsize
  rw [hread]
  exact prefixed_null hm hsize h hdata hend

theorem endsEmpty_cons {field next : Field} {fields : List Field} :
    EndsEmpty (field :: next :: fields) ↔ EndsEmpty (next :: fields) := by
  rw [EndsEmpty, EndsEmpty, List.getLast?_cons_cons]

theorem endsEmpty_singleton {field : Field} : EndsEmpty [field] ↔ field.2 = [] := by
  obtain ⟨format, value⟩ := field
  simp [EndsEmpty]

/-- The calls that read the fields, each with the format of its field. -/
def readFields (host : ByteOrder) (fields : List Field) : Method (List (List UInt8)) :=
  Method.each (StringFormat.read host) (fields.map Prod.fst)

/-- The end of all frames matters for a string without bytes only, and that is the last. -/
theorem readFields_cases {fields : List Field} (hfit : ∀ x ∈ fields, x.2.length < x.1.limit)
    {rest : List UInt8} (h : Holds base e s f)
    (hdata : f.data.drop f.position = fields.flatMap (frame e) ++ rest) :
    (EndsEmpty fields ∧ f.position + (fields.flatMap (frame e)).length = s.capacity ∧
      readFields host fields s = .nullDeref) ∨
    ¬ (EndsEmpty fields ∧ f.position + (fields.flatMap (frame e)).length = s.capacity) ∧
      ∃ t, readFields host fields s = .ok (fields.map Prod.snd) t ∧
        t.position = f.position + (fields.flatMap (frame e)).length := by
  have hle : f.position + (fields.flatMap (frame e)).length ≤ s.capacity := by
    have hlength := congrArg List.length hdata
    have hsize := h.sim.inv.size_le
    have hposition := h.position_le
    rw [List.length_drop, List.length_append, ← h.sim.size_eq] at hlength
    rw [← h.sim.size_eq] at hposition
    omega
  induction fields generalizing s f with
  | nil =>
    refine .inr ⟨?_, s, rfl, h.sim.position_eq⟩
    rintro ⟨⟨format, hlast⟩, -⟩
    cases hlast
  | cons field fields ih =>
    rw [List.forall_mem_cons] at hfit
    rw [List.flatMap_cons, List.append_assoc] at hdata
    rw [List.flatMap_cons, List.length_append] at hle ⊢
    cases fields with
    | nil =>
      rw [List.flatMap_nil, List.length_nil, Nat.add_zero, endsEmpty_singleton]
      rw [List.flatMap_nil, List.length_nil, Nat.add_zero] at hle
      by_cases hbad : field.2 = [] ∧ f.position + (frame e field).length = s.capacity
      · exact .inl ⟨hbad.1, hbad.2,
          Method.bind_nullDeref (field_null host field hfit.1 h hdata hbad.1 hbad.2) _⟩
      · have hroom : field.2 ≠ [] ∨ f.position + (frame e field).length < s.capacity := by
          by_cases hempty : field.2 = []
          · exact .inr (lt_of_le_of_ne hle fun heq => hbad ⟨hempty, heq⟩)
          · exact .inl hempty
        obtain ⟨t, ht, hholds, -⟩ := field_ok host field hfit.1 h hdata hroom
        exact .inr ⟨hbad, t, Method.bind_ok ht _, hholds.sim.position_eq⟩
    | cons next fields =>
      have hnext : 1 ≤ ((next :: fields).flatMap (frame e)).length := by
        have hpos := length_header_pos e next.1 next.2.length
        rw [List.flatMap_cons, frame, List.length_append, List.length_append]
        omega
      obtain ⟨t, ht, hholds, hcap⟩ :=
        field_ok host field hfit.1 h hdata (.inr (by omega))
      have hbehind : f.data.drop (f.position + (frame e field).length) =
          (next :: fields).flatMap (frame e) ++ rest := by
        rw [← List.drop_drop, hdata, List.drop_left]
      have hrun := Method.bind_ok ht fun a =>
        readFields host (next :: fields) >>= fun as => pure (a :: as)
      rw [← Nat.add_assoc] at hle ⊢
      rw [endsEmpty_cons, ← hcap]
      rcases ih hfit.2 hholds hbehind (by rw [hcap]; exact hle) with
        ⟨hends, hcapacity, hnull⟩ | ⟨hgood, u, hu, hposition⟩
      · exact .inl ⟨hends, hcapacity, hrun.trans (Method.bind_nullDeref hnull _)⟩
      · exact .inr ⟨hgood, u, hrun.trans (Method.bind_ok hu _), hposition⟩

/-- A frame with something behind it is read, and then that is. -/
theorem field_then {α : Type} (h : Holds base e s f) (field : Field)
    (hfit : field.2.length < field.1.limit) {writing : Method Unit} {reading : Method α}
    {bytes : List UInt8} {a : α} (hne : bytes ≠ []) (hw : Writes e writing bytes)
    (hr : Reads e reading bytes a) :
    ReadBack heap (do field.1.write host heap field.2; writing) []
      (do let value ← field.1.read host; let a ← reading; pure (value, a)) s (field.2, a) := by
  have hwrites : Writes e (do field.1.write host heap field.2; writing)
      (frame e field ++ bytes) := (writes_field host heap e field).bind hw
  obtain ⟨u, g, rest, hholds, hposition, hdata, -, hback⟩ := readBack_at h hwrites []
  rw [hback]
  rw [List.append_assoc] at hdata
  have hpos : 1 ≤ bytes.length := List.length_pos_iff.2 hne
  have hroom : g.position + (frame e field).length < u.capacity := by
    have hlength := congrArg List.length hdata
    have hsize := hholds.sim.inv.size_le
    rw [List.length_drop, List.length_append, List.length_append, ← hholds.sim.size_eq] at hlength
    omega
  obtain ⟨v, hv, hholds', -⟩ := field_ok host field hfit hholds hdata (.inr hroom)
  have hbehind : g.data.drop (g.position + (frame e field).length) = bytes ++ ([] ++ rest) := by
    rw [← List.drop_drop, hdata, List.drop_left]
  obtain ⟨w, hw', hend, -⟩ := hr hholds' hbehind
  refine ⟨w, ?_, ?_⟩
  · rw [Method.bind_ok hv, Method.bind_ok hw']
    rfl
  · rw [hend.sim.position_eq, hposition, List.length_append, Nat.add_assoc]

end Fields

/-- The call refuses and changes nothing, or puts a length and as many bytes of payload at the
cursor; then whatever is written behind them is read back from there. -/
def SoundFrame (host : ByteOrder) (heap : Heap) (s : ByteArrayState) (width : ℕ)
    (field : Field) : Prop :=
  (∃ what, field.1.write host heap field.2 s = .outOfRange what s) ∨
  (∃ t n payload, field.1.write host heap field.2 s = .ok () t ∧ n < 256 ^ width ∧
    ((storage t).drop s.position).take (t.position - s.position) =
      encoding s.endian width n ++ payload ∧ n = payload.length) ∧
  ∀ (α : Type) (writing : Method Unit) (reading : Method α) (bytes : List UInt8) (a : α),
    bytes ≠ [] → Writes s.endian writing bytes → Reads s.endian reading bytes a →
    ReadBack heap (do field.1.write host heap field.2; writing) []
      (do let value ← field.1.read host; let a ← reading; pure (value, a)) s (field.2, a)

theorem encoding_inj {e : Endian} {width m n : ℕ} (hm : m < 256 ^ width) (hn : n < 256 ^ width)
    (h : encoding e width m = encoding e width n) : m = n := by
  rw [← load_encoding .little e hm, ← load_encoding .little e hn, h]

/-- A format with a prefix of so many bytes frames what the prefix can count. -/
theorem soundFrame_iff (host : ByteOrder) (heap : Heap) {base : ℕ} {s : ByteArrayState}
    {f : FlatArray} (h : Holds base s.endian s f) {width : ℕ} {field : Field}
    (hheader : field.1.header s.endian field.2.length =
      encoding s.endian width (field.2.length % 256 ^ width))
    (hlimit : field.1.limit = 256 ^ width) :
    SoundFrame host heap s width field ↔ field.2.length < field.1.limit := by
  obtain ⟨t, ht, hholds, -⟩ := writes_field host heap s.endian field h
  have hlow := Nat.mod_lt field.2.length (show 0 < 256 ^ width from Nat.pow_pos (by decide))
  have hstored : ((storage t).drop s.position).take (t.position - s.position) =
      encoding s.endian width (field.2.length % 256 ^ width) ++ field.2 := by
    have hbytes := hholds.stored (drop_overwrite h.position_le _)
    rw [hholds.sim.position_eq, h.sim.position_eq, Nat.add_sub_cancel_left, hbytes, frame, hheader]
  rw [hlimit]
  constructor
  · rintro (⟨what, hthrow⟩ | ⟨⟨t', n, payload, ht', hn, hframe, hlength⟩, -⟩)
    · cases ht.symm.trans hthrow
    · cases ht.symm.trans ht'
      obtain ⟨hheads, rfl⟩ := List.append_inj (hstored.symm.trans hframe)
        (by rw [length_encoding, length_encoding])
      have hsame := encoding_inj hlow hn hheads
      rw [← hlength, ← hsame]
      exact hlow
  · intro hfit
    rw [Nat.mod_eq_of_lt hfit] at hstored
    refine .inr ⟨⟨t, field.2.length, field.2, ht, hfit, hstored, rfl⟩, ?_⟩
    intro α writing reading bytes a hne hw hr
    exact field_then host heap h field (by rw [hlimit]; exact hfit) hne hw hr

section WrittenStrings

variable (host : ByteOrder) (heap : Heap) {base : ℕ} (hb : 1 ≤ base) {s : ByteArrayState}

include hb

/-- The strings are read back unless the last of them has no bytes and ends with the last
block. -/
theorem strings_read_back_iff (hs : Used heap base s) {fields : List Field}
    (hfit : ∀ x ∈ fields, x.2.length < x.1.limit) :
    ReadBack heap (Method.forEach (fun x : Field => x.1.write host heap x.2) fields) []
      (readFields host fields) s (fields.map Prod.snd) ↔
      ¬ (EndsEmpty fields ∧ base ∣ s.position + (fields.flatMap (frame s.endian)).length ∧
        s.capacity ≤ s.position + (fields.flatMap (frame s.endian)).length) := by
  have hwrites : Writes s.endian (Method.forEach (fun x : Field => x.1.write host heap x.2) fields)
      (fields.flatMap (frame s.endian)) :=
    Writes.forEach fun x _ => writes_field host heap s.endian x
  obtain ⟨u, g, rest, hholds, hposition, hdata, hgrown, hback⟩ :=
    readBack_at (hs.holds hb) hwrites []
  dsimp only at hposition hgrown hback
  rw [List.length_nil, Nat.add_zero] at hgrown
  have hle : s.position + (fields.flatMap (frame s.endian)).length ≤ u.capacity := by
    have hlength := congrArg List.length hdata
    have hsize := hholds.sim.inv.size_le
    have hle := hholds.position_le
    rw [List.length_drop, List.length_append, ← hholds.sim.size_eq] at hlength
    rw [← hholds.sim.size_eq] at hle
    omega
  rw [hback, ← hgrown.end_iff hholds.sim.inv hholds.sim.base_eq hle, ← hposition]
  rcases readFields_cases host hfit hholds hdata with ⟨hends, hend, hnull⟩ | hgood
  · constructor
    · rintro ⟨t, ht, -⟩
      cases hnull.symm.trans ht
    · exact fun hnot => absurd ⟨hends, hend⟩ hnot
  · exact ⟨fun _ => hgood.1, fun _ => hgood.2⟩

/-- The frame is sound exactly when the prefix can hold the size of the string. -/
theorem string_frames_sound_iff (hs : Used heap base s) (value : List UInt8) :
    (SoundFrame host heap s 2 (.f16, value) ↔ value.length < 2 ^ 16) ∧
      (SoundFrame host heap s 4 (.f32, value) ↔ value.length < 2 ^ 32) :=
  ⟨soundFrame_iff host heap (hs.holds hb) rfl rfl, soundFrame_iff host heap (hs.holds hb) rfl rfl⟩

end WrittenStrings

/-- Strings of no bytes in the middle of the blocks and in the middle of the row. -/
theorem strings_read_back_empty :
    ReadBack (fun _ _ => 0) (Method.forEach (fun x : Field => x.1.write .little (fun _ _ => 0) x.2)
      [(.f16, []), (.vint, [1, 2])]) [] (readFields .little [(.f16, []), (.vint, [1, 2])])
      (.construct (fun _ _ => 0) 2) [[], [1, 2]] :=
  (strings_read_back_iff .little (fun _ _ => 0) (show 1 ≤ 2 by decide) ⟨[], [], rfl⟩
    (show ∀ x ∈ ([(.f16, []), (.vint, [1, 2])] : List Field), x.2.length < x.1.limit by decide)).2
    (by
      rintro ⟨⟨format, hlast⟩, -⟩
      cases hlast)

/-- The prefix fills the last block, and the string of no bytes has none to look into. -/
theorem empty_string_behind_last_block :
    ¬ ∀ (host : ByteOrder) (heap : Heap) (base : ℕ), 1 ≤ base → ∀ s, Used heap base s →
      ∀ fields : List Field, (∀ x ∈ fields, x.2.length < x.1.limit) →
        ReadBack heap (Method.forEach (fun x : Field => x.1.write host heap x.2) fields) []
          (readFields host fields) s (fields.map Prod.snd) := by
  intro h
  obtain ⟨stop, t, hrun, -⟩ := h .little (fun _ _ => 0) 2 (by decide) (.construct (fun _ _ => 0) 2)
    ⟨[], [], rfl⟩ [(.f16, [])] (by decide)
  have hnull : roundTrip (fun _ _ => 0)
      (Method.forEach (fun x : Field => x.1.write .little (fun _ _ => 0) x.2) [(.f16, [])]) []
      (readFields .little [(.f16, [])]) (.construct (fun _ _ => 0) 2) = .nullDeref := by decide
  cases hnull.symm.trans hrun

theorem string_frames_sound_short :
    (SoundFrame .little (fun _ _ => 0) (.construct (fun _ _ => 0) 4) 2 (.f16, [7]) ↔
      ([7] : List UInt8).length < 2 ^ 16) ∧
    (SoundFrame .little (fun _ _ => 0) (.construct (fun _ _ => 0) 4) 4 (.f32, [7]) ↔
      ([7] : List UInt8).length < 2 ^ 32) :=
  string_frames_sound_iff .little (fun _ _ => 0) (show 1 ≤ 4 by decide) ⟨[], [], rfl⟩ [7]

/-- A string of 65536 bytes is framed with the length zero. -/
theorem string_frames_truncated_length :
    ¬ ∀ (host : ByteOrder) (heap : Heap) (base : ℕ), 1 ≤ base → ∀ s, Used heap base s →
      ∀ value, SoundFrame host heap s 2 (.f16, value) ∧ SoundFrame host heap s 4 (.f32, value) := by
  intro h
  have hs : Used (fun _ _ => 0) 4 (.construct (fun _ _ => 0) 4) := ⟨[], [], rfl⟩
  obtain ⟨value, hvalue⟩ : ∃ value : List UInt8, value.length = 65536 :=
    ⟨List.replicate 65536 0, List.length_replicate⟩
  have hsound := (h .little (fun _ _ => 0) 4 (by decide) _ hs value).1
  have hfit := (soundFrame_iff .little _ (hs.holds (by decide)) rfl rfl).1 hsound
  change value.length < 2 ^ 16 at hfit
  omega

end ByteArrayStrings
