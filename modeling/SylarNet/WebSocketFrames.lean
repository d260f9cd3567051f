import SylarNet.WebSocketSession

/-!
# Frames on the wire

A frame as the protocol has it and its bytes; what the sender writes is the bytes of a frame,
and what one pass of the receiver does with the bytes of a frame.
-/
namespace WebSocketFrames

open HostWords SylarEndian SylarStream SylarStream.Stream WebSocketSession

inductive Opcode where
  | continuation
  | text
  | binary
  | close
  | ping
  | pong
  deriving DecidableEq, Repr

namespace Opcode

def code : Opcode → BitVec 4
  | .continuation => WSFrameHead.CONTINUE
  | .text => WSFrameHead.TEXT_FRAME
  | .binary => WSFrameHead.BIN_FRAME
  | .close => WSFrameHead.CLOSE
  | .ping => WSFrameHead.PING
  | .pong => WSFrameHead.PONG

def isControl : Opcode → Bool
  | .continuation | .text | .binary => false
  | .close | .ping | .pong => true

end Opcode

/-- The four bytes of a masking key. -/
abbrev Key := { k : List UInt8 // k.length = 4 }

/-- A frame of the protocol; one without a key is not masked. -/
structure Frame where
  fin : Bool
  opcode : Opcode
  key : Option Key
  payload : List UInt8
  fits : payload.length < 2 ^ 63
  control : opcode.isControl = true → fin = true ∧ payload.length ≤ 125

namespace Frame

def extendedLength (n : ℕ) : List UInt8 :=
  if n < 126 then [] else if n < 65536 then toBig 2 n else toBig 8 n

def head (f : Frame) : WSFrameHead :=
  { WSFrameHead.zero with
    fin := f.fin
    opcode := f.opcode.code
    mask := f.key.isSome
    payload := BitVec.ofNat 7 (payloadBits f.payload.length) }

def keyBytes (f : Frame) : List UInt8 := (f.key.map (·.1)).getD []

def masked (f : Frame) : List UInt8 :=
  match f.key with
  | none => f.payload
  | some k => applyMask k.1 f.payload

def encode (f : Frame) : List UInt8 :=
  f.head.toBytes ++ (extendedLength f.payload.length ++ (f.keyBytes ++ f.masked))

end Frame

theorem ofBytes_toBytes (h : WSFrameHead) : WSFrameHead.ofBytes h.toBytes = h := by
  obtain ⟨opcode, r3, r2, r1, fin, payload, mask⟩ := h
  have ho := opcode.isLt
  have hp := payload.isLt
  have hr3 := r3.toNat_le
  have hr2 := r2.toNat_le
  have hr1 := r1.toNat_le
  have hf := fin.toNat_le
  have hm := mask.toNat_le
  -- the bits of each byte as a sum below 256
  simp only [WSFrameHead.ofBytes, WSFrameHead.toBytes, List.getD_cons_zero, List.getD_cons_succ,
    UInt8.toNat_ofNat', WSFrameHead.mk.injEq]
  refine ⟨?_, ?_, ?_, ?_, ?_, ?_, ?_⟩
  · apply BitVec.eq_of_toNat_eq
    rw [BitVec.toNat_ofNat]
    omega
  · cases r3 <;> simp only [decide_eq_true_eq, decide_eq_false_iff_not, Bool.toNat_true,
      Bool.toNat_false] <;> omega
  · cases r2 <;> simp only [decide_eq_true_eq, decide_eq_false_iff_not, Bool.toNat_true,
      Bool.toNat_false] <;> omega
  · cases r1 <;> simp only [decide_eq_true_eq, decide_eq_false_iff_not, Bool.toNat_true,
      Bool.toNat_false] <;> omega
  · cases fin <;> simp only [decide_eq_true_eq, decide_eq_false_iff_not, Bool.toNat_true,
      Bool.toNat_false] <;> omega
  · apply BitVec.eq_of_toNat_eq
    rw [BitVec.toNat_ofNat]
    omega
  · cases mask <;> simp only [decide_eq_true_eq, decide_eq_false_iff_not, Bool.toNat_true,
      Bool.toNat_false] <;> omega

@[simp] theorem length_applyMask (mask data : List UInt8) :
    (applyMask mask data).length = data.length := by
  simp [applyMask]

theorem applyMask_applyMask (mask data : List UInt8) :
    applyMask mask (applyMask mask data) = data := by
  apply List.ext_getElem
  · simp
  · intro i h1 h2
    simp only [applyMask, List.getElem_mapIdx, UInt8.xor_assoc, UInt8.xor_self, UInt8.xor_zero]

theorem attempt_ok {s : Stream} (hs : Writable s) {bytes : List UInt8}
    (hpos : 0 < toInt bytes.length) :
    ∃ rest : List Int32, (∀ a ∈ rest, 0 < a.toInt) ∧ attempt s bytes =
      .ok (s.wrote rest bytes) := by
  obtain ⟨rest, hrest, hwrite⟩ := writeFixSize_spec hs bytes
  refine ⟨rest, hrest, ?_⟩
  simp [attempt, hwrite, not_le.2 hpos]

theorem attempt_error {s : Stream} (hs : Writable s) {bytes : List UInt8}
    (hneg : toInt bytes.length ≤ 0) : ∃ s', attempt s bytes = .error s' := by
  obtain ⟨rest, -, hwrite⟩ := writeFixSize_spec hs bytes
  exact ⟨_, by simp [attempt, hwrite, hneg]; rfl⟩

theorem fetch_ok {s : Stream} (hc : s.connected = true) {bytes tail : List UInt8}
    (hfits : bytes.length < 2 ^ 63) (hp : s.pending = bytes ++ tail)
    (hpos : 0 < toInt bytes.length) :
    ∃ segs, fetch s bytes.length = .ok (bytes, s.arrived segs) ∧
      (s.arrived segs).pending = tail := by
  obtain ⟨segs, hread, htail⟩ := readFixSize_spec hc hfits hp
  refine ⟨segs, ?_, htail⟩
  simp [fetch, hread, not_le.2 hpos]

theorem fetch_error {s : Stream} (hc : s.connected = true) {bytes tail : List UInt8}
    (hfits : bytes.length < 2 ^ 63) (hp : s.pending = bytes ++ tail)
    (hneg : toInt bytes.length ≤ 0) :
    ∃ s', fetch s bytes.length = .error (.left s') := by
  obtain ⟨segs, hread, -⟩ := readFixSize_spec hc hfits hp
  exact ⟨_, by simp [fetch, hread, hneg]; rfl⟩

theorem toInt_small {n : ℕ} (hpos : 0 < n) (h : n < 2 ^ 31) : 0 < toInt n := by
  rw [toInt_of_lt h]
  exact_mod_cast hpos

theorem payloadBits_lt (n : ℕ) : payloadBits n < 128 := by
  unfold payloadBits
  split
  · omega
  · split <;> omega

theorem fetch_word {s : Stream} (hc : s.connected = true) {width n : ℕ} (hpos : 0 < width)
    (hw : width < 2 ^ 31) {tail : List UInt8} (hp : s.pending = toBig width n ++ tail) :
    ∃ segs, fetch s width = .ok (toBig width n, s.arrived segs) ∧
      (s.arrived segs).pending = tail := by
  have h := fetch_ok hc (by rw [length_toBig]; omega) hp
  rw [length_toBig] at h
  exact h (toInt_small hpos hw)

/-- The seven bits hold the length or say which word holds it. -/
theorem payload_eq_iff {payload : BitVec 7} {n m : ℕ} (hm : m < 128)
    (h : payload = BitVec.ofNat 7 (payloadBits n)) :
    payload = BitVec.ofNat 7 m ↔ payloadBits n = m := by
  rw [h, ← BitVec.toNat_inj, BitVec.toNat_ofNat, BitVec.toNat_ofNat, Nat.mod_eq_of_lt hm,
    Nat.mod_eq_of_lt (payloadBits_lt n)]

/-- The three encodings of a length are told apart and read back. -/
theorem fetchLength_spec (order : ByteOrder) {s : Stream} (hc : s.connected = true)
    {head : WSFrameHead} {n : ℕ} (hn : n < 2 ^ 63)
    (hhead : head.payload = BitVec.ofNat 7 (payloadBits n)) {tail : List UInt8}
    (hp : s.pending = Frame.extendedLength n ++ tail) :
    ∃ segs, fetchLength order head s = .ok (n, s.arrived segs) ∧
      (s.arrived segs).pending = tail := by
  have h126 : head.payload = 126 ↔ payloadBits n = 126 :=
    payload_eq_iff (m := 126) (by omega) hhead
  have h127 : head.payload = 127 ↔ payloadBits n = 127 :=
    payload_eq_iff (m := 127) (by omega) hhead
  unfold fetchLength
  simp only [h126, h127]
  rcases Nat.lt_or_ge n 126 with hshort | hlong
  · have hs : payloadBits n = n := by simp [payloadBits, hshort]
    have hvalue : head.payload.toNat = n := by
      rw [hhead, BitVec.toNat_ofNat, hs]
      omega
    rw [if_neg (by omega), if_neg (by omega), hvalue]
    refine ⟨s.incoming, rfl, ?_⟩
    rw [Frame.extendedLength, if_pos hshort] at hp
    exact hp
  · rcases Nat.lt_or_ge n 65536 with hmid | hbig
    · have hs : payloadBits n = 126 := by simp [payloadBits, hmid, not_lt.2 hlong]
      rw [Frame.extendedLength, if_neg (by omega), if_pos hmid] at hp
      obtain ⟨segs, hfetch, htail⟩ := fetch_word hc (by omega) (by omega) hp
      refine ⟨segs, ?_, htail⟩
      rw [if_pos hs, hfetch]
      have hload := load_toBig order (by omega : n < 256 ^ 2)
      simp only [bind, Except.bind, hload]
    · have hs : payloadBits n = 127 := by
        simp [payloadBits, not_lt.2 hbig, not_lt.2 hlong]
      rw [Frame.extendedLength, if_neg (by omega), if_neg (by omega)] at hp
      obtain ⟨segs, hfetch, htail⟩ := fetch_word hc (by omega) (by omega) hp
      refine ⟨segs, ?_, htail⟩
      rw [if_neg (by omega), if_pos hs, hfetch]
      have hload := load_toBig order (by omega : n < 256 ^ 8)
      simp only [bind, Except.bind, hload]

/-- What a data frame makes of the message so far. -/
inductive Absorbed where
  | left
  | undefined
  | ok (p : Partial)

def absorb (maxSize : UInt32) (client : Bool) (p : Partial) (f : Frame) : Absorbed :=
  let length := f.payload.length
  let total := ((p.curLen + length) % 2 ^ 64).toNat
  if !client && !f.key.isSome then .left
  else if maxSize.toNat ≤ total then .left
  else if p.curLen < 0 then .undefined
  else if toInt length ≤ 0 then .left
  else if f.key.isSome && 2 ^ 31 < p.curLen + length then .undefined
  else
    .ok ⟨if p.opcode = 0 ∧ f.opcode ≠ .continuation then (f.opcode.code.toNat : ℤ) else p.opcode,
      ListOverwrite.overwrite
        (p.data.take total ++ List.replicate (total - p.data.length) 0) p.curLen.toNat f.payload,
      toInt (p.curLen + length)⟩

theorem head_payload (f : Frame) :
    f.head.payload = BitVec.ofNat 7 (payloadBits f.payload.length) := rfl

theorem code_eq_continue_iff (o : Opcode) :
    o.code = WSFrameHead.CONTINUE ↔ o = .continuation := by
  cases o <;> decide

/-- The key is read exactly when the frame has one. -/
theorem fetch_key {s : Stream} (hc : s.connected = true) (f : Frame) {tail : List UInt8}
    (hp : s.pending = f.keyBytes ++ tail) :
    ∃ mask segs, fetchMask f.head s = .ok (mask, s.arrived segs) ∧
      (s.arrived segs).pending = tail ∧
      (if f.key.isSome then applyMask mask f.masked else f.masked) = f.payload := by
  have hmask : f.head.mask = f.key.isSome := rfl
  unfold fetchMask
  rw [hmask]
  cases hk : f.key with
  | none =>
    refine ⟨[0, 0, 0, 0], s.incoming, rfl, ?_, ?_⟩
    · rw [Frame.keyBytes, hk] at hp
      exact hp
    · simp [Frame.masked, hk]
  | some k =>
    have hbytes : s.pending = k.1 ++ tail := by simpa [Frame.keyBytes, hk] using hp
    have h := fetch_ok hc (by rw [k.2]; omega) hbytes
    rw [k.2] at h
    obtain ⟨segs, hfetch, htail⟩ := h (toInt_small (by omega) (by omega))
    refine ⟨k.1, segs, hfetch, htail, ?_⟩
    simp [Frame.masked, hk, applyMask_applyMask]

theorem length_masked (f : Frame) : f.masked.length = f.payload.length := by
  unfold Frame.masked
  split <;> simp

/-- The branch for data frames reads the rest of its frame and nothing else. -/
theorem recvData_spec (order : ByteOrder) (maxSize : UInt32) (client : Bool) (p : Partial)
    (f : Frame) {s : Stream} (hc : s.connected = true) {tail : List UInt8}
    (hp : s.pending =
      Frame.extendedLength f.payload.length ++ (f.keyBytes ++ (f.masked ++ tail))) :
    match absorb maxSize client p f with
    | .left => ∃ s', recvData order maxSize client f.head p s = .error (.left s')
    | .undefined => recvData order maxSize client f.head p s = .error .undefined
    | .ok p' => ∃ segs, recvData order maxSize client f.head p s = .ok (p', s.arrived segs) ∧
        (s.arrived segs).pending = tail := by
  have hmask : f.head.mask = f.key.isSome := rfl
  have hop : f.opcode.code ≠ WSFrameHead.CONTINUE ↔ f.opcode ≠ .continuation :=
    not_congr (code_eq_continue_iff f.opcode)
  have hcode : f.head.opcode = f.opcode.code := rfl
  obtain ⟨segs₁, hlen, hp₁⟩ := fetchLength_spec order hc f.fits (head_payload f) hp
  obtain ⟨mask, segs₂, hkey, hp₂, hplain⟩ := fetch_key (s := s.arrived segs₁) hc f hp₁
  rw [arrived_arrived] at hkey hp₂
  by_cases hdir : (!client && !f.key.isSome) = true
  · simp only [absorb, recvData, hmask, hdir, if_true]
    exact ⟨s, rfl⟩
  by_cases hmax : maxSize.toNat ≤ ((p.curLen + f.payload.length) % 2 ^ 64).toNat
  · simp only [absorb, recvData, hmask, hlen, hdir, hmax, bind, Except.bind, if_true,
      Bool.false_eq_true, if_false]
    exact ⟨s.arrived segs₁, rfl⟩
  by_cases hneg : p.curLen < 0
  · simp only [absorb, recvData, hmask, hlen, hkey, hdir, hmax, hneg, bind, Except.bind, if_true,
      Bool.false_eq_true, if_false]
  have hsize := length_masked f
  have hfits : f.masked.length < 2 ^ 63 := hsize ▸ f.fits
  rcases le_or_gt (toInt f.payload.length) 0 with hint | hpos
  · rw [← hsize] at hint
    obtain ⟨s', hfetch⟩ := fetch_error (s := s.arrived segs₂) hc hfits hp₂ hint
    rw [hsize] at hfetch hint
    simp only [absorb, recvData, hmask, hlen, hkey, hfetch, hdir, hmax, hneg, hint, bind,
      Except.bind, if_true, Bool.false_eq_true, if_false]
    exact ⟨s', rfl⟩
  rw [← hsize] at hpos
  obtain ⟨segs₃, hfetch, hp₃⟩ := fetch_ok (s := s.arrived segs₂) hc hfits hp₂ hpos
  rw [hsize] at hfetch hpos
  rw [arrived_arrived] at hfetch hp₃
  by_cases hover : (f.key.isSome && decide (2 ^ 31 < p.curLen + f.payload.length)) = true
  · simp only [absorb, recvData, hmask, hlen, hkey, hfetch, hdir, hmax, hneg, not_le.2 hpos,
      hover, bind, Except.bind, if_true, Bool.false_eq_true, if_false]
  · simp only [absorb, recvData, hmask, hlen, hkey, hfetch, hdir, hmax, hneg, not_le.2 hpos,
      hover, hcode, hop, hplain, bind, Except.bind, Bool.false_eq_true, if_false]
    exact ⟨segs₃, rfl, hp₃⟩

theorem length_toBytes (h : WSFrameHead) : h.toBytes.length = 2 := rfl

theorem fetch_head {s : Stream} (hc : s.connected = true) {h : WSFrameHead} {tail : List UInt8}
    (hp : s.pending = h.toBytes ++ tail) :
    ∃ segs, fetch s 2 = .ok (h.toBytes, s.arrived segs) ∧ (s.arrived segs).pending = tail :=
  fetch_ok hc (by rw [length_toBytes]; omega) hp
    (toInt_small (by rw [length_toBytes]; omega) (by rw [length_toBytes]; omega))

/-- Data frames are told from the others by their opcode. -/
theorem code_of_data {o : Opcode} (h : o.isControl = false) :
    o.code ≠ WSFrameHead.PING ∧ o.code ≠ WSFrameHead.PONG ∧ (o.code = WSFrameHead.CONTINUE ∨
      o.code = WSFrameHead.TEXT_FRAME ∨ o.code = WSFrameHead.BIN_FRAME) := by
  cases o <;> first | decide | cases h

/-- Behind the head of a data frame a pass does what `recvData` does. -/
theorem recvIteration_head (order : ByteOrder) (maxSize : UInt32) (client : Bool) (p : Partial)
    {f : Frame} (hf : f.opcode.isControl = false) {s t : Stream}
    (hhead : fetch s 2 = .ok (f.head.toBytes, t)) :
    (∀ e, recvData order maxSize client f.head p t = .error e →
      recvIteration order maxSize client p s = .exit e) ∧
    (∀ p' t', recvData order maxSize client f.head p t = .ok (p', t') →
      recvIteration order maxSize client p s =
        if f.fin then .message ⟨p'.opcode, p'.data⟩ t' else .again p' t') := by
  obtain ⟨hping, hpong, hcode⟩ := code_of_data hf
  have hop : f.head.opcode = f.opcode.code := rfl
  have hfin : f.head.fin = f.fin := rfl
  constructor
  · intro e he
    simp only [recvIteration, hhead, ofBytes_toBytes, hop, hping, hpong, hcode, he, if_true,
      if_false]
  · intro p' t' hok
    simp only [recvIteration, hhead, ofBytes_toBytes, hop, hping, hpong, hcode, hfin, hok, if_true,
      if_false]

/-- A pass that meets a data frame ends the loop or has read exactly that frame. -/
theorem recvIteration_data (order : ByteOrder) (maxSize : UInt32) (client : Bool) (p : Partial)
    {f : Frame} (hf : f.opcode.isControl = false) {s : Stream} (hc : s.connected = true)
    {tail : List UInt8} (hp : s.pending = f.encode ++ tail) :
    match absorb maxSize client p f with
    | .left => ∃ s', recvIteration order maxSize client p s = .exit (.left s')
    | .undefined => recvIteration order maxSize client p s = .exit .undefined
    | .ok p' => ∃ segs, (s.arrived segs).pending = tail ∧
        recvIteration order maxSize client p s =
          if f.fin then .message ⟨p'.opcode, p'.data⟩ (s.arrived segs)
          else .again p' (s.arrived segs) := by
  rw [Frame.encode, List.append_assoc] at hp
  obtain ⟨segs, hhead, hrest⟩ := fetch_head hc hp
  have hrest' : (s.arrived segs).pending = Frame.extendedLength f.payload.length ++
      (f.keyBytes ++ (f.masked ++ tail)) := by
    rw [hrest]
    simp
  have hdata := recvData_spec order maxSize client p f (s := s.arrived segs) hc hrest'
  obtain ⟨herror, hok⟩ := recvIteration_head order maxSize client p hf hhead
  cases ha : absorb maxSize client p f with
  | left =>
    rw [ha] at hdata
    obtain ⟨s', hs'⟩ := hdata
    exact ⟨s', herror _ hs'⟩
  | undefined =>
    rw [ha] at hdata
    exact herror _ hdata
  | ok p' =>
    rw [ha] at hdata
    obtain ⟨segs', hs', htail⟩ := hdata
    exact ⟨segs', htail, hok _ _ hs'⟩

theorem wsControl_takes {s : Stream} (hc : s.connected = true) (opcode : BitVec 4)
    (ht : takes s.accepts 2 = true) : wsControl opcode s =
      (2, s.wrote (leftOver s.accepts 2) (controlHead opcode).toBytes) := by
  have htwo : toInt ((2 : ℕ) : ℤ) = 2 := toInt_of_lt (by omega)
  have hwrite := writeFixSize_takes hc
    (show takes s.accepts (controlHead opcode).toBytes.length = true from ht)
  rw [length_toBytes, htwo] at hwrite
  simp only [wsControl, hwrite]
  rfl

theorem wsControl_spec {s : Stream} (hs : Writable s) (opcode : BitVec 4) :
    ∃ rest : List Int32, (∀ a ∈ rest, 0 < a.toInt) ∧ wsControl opcode s =
      (2, s.wrote rest (controlHead opcode).toBytes) := by
  obtain ⟨htakes, hrest⟩ := takes_of_positive hs.takes 2
  exact ⟨_, hrest, wsControl_takes hs.isOpen opcode htakes⟩

theorem wsControl_fails {s : Stream} (hc : s.connected = true) (opcode : BitVec 4)
    (ht : ¬ takes s.accepts 2 = true) : (wsControl opcode s).1 ≤ 0 := by
  have hwrite := writeFixSize_fails hc
    (show ¬ takes s.accepts (controlHead opcode).toBytes.length = true from ht)
  simp only [wsControl, hwrite, if_true]

/-- The results of `write` behind the answer to a control frame, if the stream takes it: the two
bytes of a pong to a ping. -/
def answer (accepts : List Int32) (f : Frame) : Option (List Int32) :=
  if f.opcode = .ping then if takes accepts 2 then some (leftOver accepts 2) else none
  else some accepts

/-- A pass that meets a control frame answers a ping and goes on behind the head, whatever
the rest of the frame is. -/
theorem recvIteration_control (order : ByteOrder) (maxSize : UInt32) (client : Bool)
    (p : Partial) {f : Frame} (hf : f.opcode.isControl = true) {s : Stream}
    (hc : s.connected = true) {tail : List UInt8} (hp : s.pending = f.head.toBytes ++ tail) :
    match answer s.accepts f with
    | none => ∃ t, recvIteration order maxSize client p s = .exit (.left t)
    | some accepts => ∃ t, t.connected = true ∧ t.accepts = accepts ∧ t.pending = tail ∧
        recvIteration order maxSize client p s = .again p t := by
  obtain ⟨segs, hhead, hrest⟩ := fetch_head hc hp
  have hop : f.head.opcode = f.opcode.code := rfl
  simp only [recvIteration, hhead, ofBytes_toBytes, hop]
  cases ho : f.opcode with
  | continuation | text | binary =>
    rw [ho] at hf
    cases hf
  | ping =>
    by_cases ht : takes s.accepts 2 = true
    · have hpong := wsControl_takes (s := s.arrived segs) hc WSFrameHead.PONG ht
      simp only [answer, ho, ht, Opcode.code, if_true, wsPong, hpong]
      exact ⟨(s.arrived segs).wrote _ _, hc, rfl, hrest, rfl⟩
    · have hpong := wsControl_fails (s := s.arrived segs) hc WSFrameHead.PONG ht
      simp only [answer, ho, ht, Opcode.code, if_true, wsPong, hpong]
      exact ⟨_, rfl⟩
  | close | pong =>
    simp only [answer, ho, reduceCtorEq, if_false]
    exact ⟨s.arrived segs, hc, rfl, hrest, rfl⟩

/-- At the end of the stream the loop is left. -/
theorem recvIteration_end (order : ByteOrder) (maxSize : UInt32) (client : Bool) (p : Partial)
    {s : Stream} (hp : s.pending = []) :
    ∃ s', recvIteration order maxSize client p s = .exit (.left s') := by
  have hend := readFixSize_end hp (by omega : 0 < 2) (by omega)
  refine ⟨(s.readFixSize 2).2.2, ?_⟩
  simp only [recvIteration, fetch, hend, if_true]

/-- The frame that a call of the sender is about. -/
def Frame.sent (order : ByteOrder) (rand : UInt32) (client fin : Bool) (o : Opcode)
    (data : List UInt8) (ho : o.isControl = false) (hd : data.length < 2 ^ 63) : Frame where
  fin := fin
  opcode := o
  key := if client then some ⟨store order 4 rand.toNat, by simp⟩ else none
  payload := data
  fits := hd
  control := by simp [ho]

theorem attemptLength_ok (order : ByteOrder) {s : Stream} (hs : Writable s) (n : ℕ) :
    ∃ rest : List Int32, (∀ a ∈ rest, 0 < a.toInt) ∧
      attemptLength order (payloadBits n) n s =
        .ok (s.wrote rest (Frame.extendedLength n)) := by
  unfold attemptLength Frame.extendedLength
  rcases Nat.lt_or_ge n 126 with hshort | hlong
  · have h : payloadBits n = n := by simp [payloadBits, hshort]
    rw [if_neg (by omega), if_neg (by omega), if_pos hshort]
    exact ⟨s.accepts, hs.takes, by simp [Stream.wrote]⟩
  · rcases Nat.lt_or_ge n 65536 with hmid | hbig
    · have h : payloadBits n = 126 := by simp [payloadBits, hmid, not_lt.2 hlong]
      rw [if_pos h, if_neg (by omega), if_pos hmid, store_byteswapOnLittleEndian]
      apply attempt_ok hs
      rw [length_toBig]
      exact toInt_small (by omega) (by omega)
    · have h : payloadBits n = 127 := by
        simp [payloadBits, not_lt.2 hbig, not_lt.2 hlong]
      rw [if_neg (by omega), if_pos h, if_neg (by omega), if_neg (by omega),
        store_byteswapOnLittleEndian]
      apply attempt_ok hs
      rw [length_toBig]
      exact toInt_small (by omega) (by omega)

theorem ofInt_code (o : Opcode) : BitVec.ofInt 4 (o.code.toNat : ℤ) = o.code := by
  cases o <;> decide

end WebSocketFrames
