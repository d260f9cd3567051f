import SylarNet.WebSocketFrames

/-!
# Messages and their fragments

What `WSSendMessage` puts on the wire is a frame, and `WSRecvMessage` makes of a list of data
frames what `deliver` says. The round trip of a message and of its fragments follows.
-/
namespace WebSocketMessages

open HostWords SylarStream SylarStream.Stream WebSocketSession WebSocketFrames

section Send

variable (order : ByteOrder) (rand : UInt32) (client fin : Bool) {o : Opcode}
  (ho : o.isControl = false) {data : List UInt8} (hd : data.length < 2 ^ 63)

/-- What has been written before the payload. -/
def preamble (f : Frame) : List UInt8 :=
  f.head.toBytes ++ (Frame.extendedLength f.payload.length ++ f.keyBytes)

theorem encode_eq_preamble (f : Frame) : f.encode = preamble f ++ f.masked := by
  simp [Frame.encode, preamble]

theorem header_ok {s : Stream} (hs : Writable s) (f : Frame) :
    ∃ rest : List Int32, (∀ a ∈ rest, 0 < a.toInt) ∧
      (attempt s f.head.toBytes >>=
        attemptLength order (payloadBits f.payload.length) f.payload.length) =
      .ok (s.wrote rest (f.head.toBytes ++ Frame.extendedLength f.payload.length)) := by
  have hpos : 0 < toInt f.head.toBytes.length :=
    toInt_small (by rw [length_toBytes]; omega) (by rw [length_toBytes]; omega)
  obtain ⟨rest, hrest, hhead⟩ := attempt_ok hs hpos
  obtain ⟨rest', hrest', hlen⟩ := attemptLength_ok order
    (hs.wrote hrest f.head.toBytes) f.payload.length
  refine ⟨rest', hrest', ?_⟩
  rw [hhead]
  simp only [bind, Except.bind, hlen, wrote_wrote]

theorem mask_ok {s : Stream} (hs : Writable s) {mask : List UInt8} (hmask : mask.length = 4) :
    ∃ rest : List Int32, (∀ a ∈ rest, 0 < a.toInt) ∧ attemptMask client mask s =
      .ok (s.wrote rest (if client then mask else [])) := by
  cases client with
  | false => exact ⟨s.accepts, hs.takes, by simp [attemptMask, Stream.wrote]⟩
  | true =>
    have hpos : 0 < toInt mask.length := toInt_small (by omega) (by omega)
    obtain ⟨rest, hrest, hok⟩ := attempt_ok hs hpos
    exact ⟨rest, hrest, by simp [attemptMask, hok]⟩

/-- The sender has written everything but the payload when it comes to the last `writeFixSize`,
whose result decides. -/
theorem wsSendMessage_eq {s : Stream} (hs : Writable s) :
    ∃ (msg : WSFrameMessage) (rest : List Int32), (∀ a ∈ rest, 0 < a.toInt) ∧
      wsSendMessage order rand s ⟨o.code.toNat, data⟩ client fin =
        match attempt (s.wrote rest (preamble (Frame.sent order rand client fin o data ho hd)))
          (Frame.sent order rand client fin o data ho hd).masked with
        | .error s => (-1, msg, s.close)
        | .ok s => (toInt (data.length + 2), msg, s) := by
  have hmask : (store order 4 rand.toNat).length = 4 := length_store order 4 _
  obtain ⟨f, hf⟩ : ∃ f, f = Frame.sent order rand client fin o data ho hd := ⟨_, rfl⟩
  have hhead : messageHead ⟨o.code.toNat, data⟩ client fin = f.head := by
    simp only [hf, messageHead, ofInt_code, Frame.head, Frame.sent]
    cases client <;> rfl
  have hkey : (if client then store order 4 rand.toNat else []) = f.keyBytes := by
    rw [hf]
    cases client <;> rfl
  have hpayload : f.payload = data := by rw [hf]; rfl
  rw [← hf]
  obtain ⟨rest, hrest, hheader⟩ := header_ok order hs f
  rw [hpayload] at hheader
  obtain ⟨rest', hrest', hbody⟩ := mask_ok client
    (hs.wrote hrest (f.head.toBytes ++ Frame.extendedLength data.length)) hmask
  have hpre : f.head.toBytes ++ Frame.extendedLength data.length ++ f.keyBytes = preamble f := by
    rw [preamble, hpayload, List.append_assoc]
  rw [hkey, wrote_wrote, hpre] at hbody
  cases client with
  | false =>
    have hplain : f.masked = data := by rw [hf]; rfl
    refine ⟨⟨o.code.toNat, data⟩, rest', hrest', ?_⟩
    simp only [wsSendMessage, hhead, hheader, hbody, hplain, Bool.false_eq_true, if_false]
    rfl
  | true =>
    have hxor : f.masked = applyMask (store order 4 rand.toNat) data := by rw [hf]; rfl
    refine ⟨⟨o.code.toNat, applyMask (store order 4 rand.toNat) data⟩, rest', hrest', ?_⟩
    simp only [wsSendMessage, hhead, hheader, hbody, hxor, if_true]
    rfl

theorem wsSendMessage_ok {s : Stream} (hs : Writable s) (hpos : 0 < toInt data.length) :
    ∃ (msg : WSFrameMessage) (rest : List Int32), (∀ a ∈ rest, 0 < a.toInt) ∧
      wsSendMessage order rand s ⟨o.code.toNat, data⟩ client fin =
        (toInt (data.length + 2), msg,
          s.wrote rest (Frame.sent order rand client fin o data ho hd).encode) := by
  obtain ⟨msg, rest, hrest, hsend⟩ := wsSendMessage_eq order rand client fin ho hd hs
  have hlen : 0 < toInt (Frame.sent order rand client fin o data ho hd).masked.length := by
    rw [length_masked]
    exact hpos
  obtain ⟨rest', hrest', hlast⟩ := attempt_ok (hs.wrote hrest _) hlen
  refine ⟨msg, rest', hrest', ?_⟩
  rw [hsend, hlast, wrote_wrote, ← encode_eq_preamble]

include ho hd in
/-- A payload whose length is no positive `int` is taken for a failure. -/
theorem wsSendMessage_failed {s : Stream} (hs : Writable s) (hneg : toInt data.length ≤ 0) :
    ∃ msg s', wsSendMessage order rand s ⟨o.code.toNat, data⟩ client fin =
      (-1, msg, Stream.close s') := by
  obtain ⟨msg, rest, hrest, hsend⟩ := wsSendMessage_eq order rand client fin ho hd hs
  have hlen : toInt (Frame.sent order rand client fin o data ho hd).masked.length ≤ 0 := by
    rw [length_masked]
    exact hneg
  obtain ⟨s', hlast⟩ := attempt_error (hs.wrote hrest _) hlen
  exact ⟨msg, s', by rw [hsend, hlast]⟩

end Send

section Receive

/-- What the receiver makes of a list of frames; a message leaves the frames behind it. -/
inductive Delivery where
  | message (m : WSFrameMessage) (rest : List Frame)
  | closed
  | undefined

variable (order : ByteOrder) (maxSize : UInt32) (client : Bool)

/-- Control frames are passed over and data frames are put together until a final one, or
until one that the receiver does not take. -/
def deliver : Partial → List Frame → Delivery
  | _, [] => .closed
  | p, f :: fs =>
    if f.opcode.isControl then deliver p fs
    else
      match absorb maxSize client p f with
      | .left => .closed
      | .undefined => .undefined
      | .ok p' => if f.fin then .message ⟨p'.opcode, p'.data⟩ fs else deliver p' fs

def encodeAll (fs : List Frame) : List UInt8 := fs.flatMap Frame.encode

variable {maxSize client}

/-- The loop over data frames does what `deliver` says. -/
theorem recvLoop_deliver (maxSize : UInt32) (client : Bool) (p : Partial) {fs : List Frame}
    (hdata : ∀ f ∈ fs, f.opcode.isControl = false) {s : Stream} (hc : s.connected = true)
    {tail : List UInt8} (hp : s.pending = encodeAll fs ++ tail) {fuel : ℕ}
    (hfuel : fs.length < fuel) :
    match deliver maxSize client p fs with
    | .message m rest => ∃ s', recvLoop order maxSize client fuel p s = .ok (some m, s') ∧
        s'.connected = true ∧ s'.pending = encodeAll rest ++ tail
    | .closed => tail = [] →
        ∃ s', recvLoop order maxSize client fuel p s = .ok (none, Stream.close s')
    | .undefined => recvLoop order maxSize client fuel p s = .error .undefined := by
  induction fs generalizing p s fuel with
  | nil =>
    intro htail
    obtain ⟨n, rfl⟩ : ∃ n, fuel = n + 1 := ⟨fuel - 1, by omega⟩
    have hnil : s.pending = [] := by simp [hp, encodeAll, htail]
    obtain ⟨s', hexit⟩ := recvIteration_end order maxSize client p hnil
    exact ⟨s', by simp only [recvLoop, hexit]⟩
  | cons f fs ih =>
    obtain ⟨n, rfl⟩ : ∃ n, fuel = n + 1 := ⟨fuel - 1, by omega⟩
    have hn : fs.length < n := by
      simp only [List.length_cons] at hfuel
      omega
    obtain ⟨hctl, hrest⟩ := List.forall_mem_cons.1 hdata
    rw [encodeAll, List.flatMap_cons, List.append_assoc] at hp
    change s.pending = f.encode ++ (encodeAll fs ++ tail) at hp
    have hpass := recvIteration_data order maxSize client p hctl hc hp
    simp only [deliver, hctl, Bool.false_eq_true, if_false]
    cases ha : absorb maxSize client p f with
    | left =>
      rw [ha] at hpass
      obtain ⟨s', hexit⟩ := hpass
      exact fun _ => ⟨s', by simp only [recvLoop, hexit]⟩
    | undefined =>
      rw [ha] at hpass
      simp only at hpass
      simp only [recvLoop, hpass]
    | ok p' =>
      rw [ha] at hpass
      obtain ⟨segs, htail, hpass⟩ := hpass
      cases hfin : f.fin with
      | true =>
        rw [hfin, if_pos rfl] at hpass
        exact ⟨s.arrived segs, by simp only [recvLoop, hpass], hc, htail⟩
      | false =>
        rw [hfin, if_neg (by simp)] at hpass
        have hloop := ih p' (s := s.arrived segs) hrest hc htail hn
        simp only [Bool.false_eq_true, if_false, recvLoop, hpass]
        exact hloop

theorem length_encode_pos (f : Frame) : 0 < f.encode.length := by
  simp [Frame.encode, WSFrameHead.toBytes]

theorem length_le_encodeAll (fs : List Frame) : fs.length ≤ (encodeAll fs).length := by
  induction fs with
  | nil => simp
  | cons f fs ih =>
    have hpos := length_encode_pos f
    simp only [encodeAll, List.flatMap_cons, List.length_append, List.length_cons] at ih ⊢
    omega

/-- While the counter of the receiver has not wrapped around, a data frame is appended. -/
theorem absorb_fragment {p : Partial} (hcur : p.curLen = p.data.length)
    {f : Frame} (hdir : client = true ∨ f.key.isSome = true)
    (hpos : 0 < f.payload.length) (hlt : f.payload.length < 2 ^ 31)
    (hmax : p.data.length + f.payload.length < maxSize.toNat) :
    absorb maxSize client p f =
      if f.key.isSome = true ∧ 2 ^ 31 < p.data.length + f.payload.length then .undefined
      else .ok ⟨if p.opcode = 0 ∧ f.opcode ≠ .continuation then (f.opcode.code.toNat : ℤ)
          else p.opcode,
        p.data ++ f.payload, toInt ((p.data.length + f.payload.length : ℕ) : ℤ)⟩ := by
  have hsize := maxSize.toNat_lt
  have htotal : ((p.curLen + f.payload.length) % 2 ^ 64).toNat =
      p.data.length + f.payload.length := by
    rw [hcur]
    omega
  have hnonneg : ¬ p.curLen < 0 := by omega
  have hint : ¬ toInt f.payload.length ≤ 0 := not_le.2 (toInt_small hpos hlt)
  have hdir' : ¬ (!client && !f.key.isSome) = true := by
    rcases hdir with h | h <;> simp [h]
  have hover : (f.key.isSome && decide (2 ^ 31 < p.curLen + f.payload.length)) = true ↔
      f.key.isSome = true ∧ 2 ^ 31 < p.data.length + f.payload.length := by
    rw [Bool.and_eq_true, decide_eq_true_iff, hcur]
    constructor <;> intro h <;> refine ⟨h.1, ?_⟩ <;> omega
  have hdata : ListOverwrite.overwrite (p.data.take (p.data.length + f.payload.length) ++
      List.replicate (p.data.length + f.payload.length - p.data.length) 0) p.curLen.toNat
        f.payload = p.data ++ f.payload := by
    rw [hcur, Int.toNat_natCast, List.take_of_length_le (by omega), ListOverwrite.overwrite]
    simp
  simp only [absorb, hdir', htotal, not_le.2 hmax, hnonneg, hint, hover, hdata, Bool.false_eq_true,
    if_false]
  rw [hcur]
  norm_cast

/-- Once the counter has wrapped around, its sum with any length exceeds the limit. -/
theorem absorb_wrapped (client : Bool) {p : Partial} {n : ℕ} (hcur : p.curLen = toInt n)
    (hn : 2 ^ 31 ≤ n) {f : Frame} (hmax : n + f.payload.length < maxSize.toNat) :
    absorb maxSize client p f = .left := by
  have hsize := maxSize.toNat_lt
  have hwrap : p.curLen = (n : ℤ) - 2 ^ 32 := by
    rw [hcur, toInt_eq_of_lt (by omega), if_neg (by omega)]
  have htotal : maxSize.toNat ≤ ((p.curLen + f.payload.length) % 2 ^ 64).toNat := by
    rw [hwrap]
    omega
  simp only [absorb, htotal, if_true, ite_self]

end Receive

section Fragments

/-- The frames of a message that is sent in fragments. -/
inductive Fragmented (masked : Bool) : Opcode → List (List UInt8) → List Frame → Prop where
  | last {o : Opcode} {f : Frame} (hfin : f.fin = true) (ho : f.opcode = o)
    (hkey : f.key.isSome = masked) : Fragmented masked o [f.payload] [f]
  | more {o : Opcode} {f : Frame} {rest : List (List UInt8)} {fs : List Frame}
    (hfin : f.fin = false) (ho : f.opcode = o) (hkey : f.key.isSome = masked)
    (htail : Fragmented masked .continuation rest fs) :
    Fragmented masked o (f.payload :: rest) (f :: fs)

variable {masked : Bool}

theorem Fragmented.ne_nil {o : Opcode} {parts : List (List UInt8)} {fs : List Frame}
    (h : Fragmented masked o parts fs) : parts ≠ [] := by
  cases h <;> simp

theorem Fragmented.data {o : Opcode} {parts : List (List UInt8)} {fs : List Frame}
    (h : Fragmented masked o parts fs) (ho : o.isControl = false) :
    ∀ f ∈ fs, f.opcode.isControl = false := by
  induction h with
  | last _ hop _ =>
    intro g hg
    rw [List.mem_singleton.1 hg, hop, ho]
  | more _ hop _ _ ih =>
    intro g hg
    rcases List.mem_cons.1 hg with rfl | hg
    · rw [hop, ho]
    · exact ih rfl g hg

/-- The counter of the receiver is an `int`: it must not wrap around before the last fragment,
and with a mask not even there. -/
def Countable (masked : Bool) (start : ℕ) (parts : List (List UInt8)) : Prop :=
  start + parts.dropLast.flatten.length < 2 ^ 31 ∧
    (masked = true → start + parts.flatten.length ≤ 2 ^ 31)

/-- The message so far with one more fragment. -/
def Partial.extend (p : Partial) (o : Opcode) (data : List UInt8) : Partial :=
  ⟨if p.opcode = 0 ∧ o ≠ .continuation then (o.code.toNat : ℤ) else p.opcode, p.data ++ data,
    toInt ((p.data.length + data.length : ℕ) : ℤ)⟩

theorem Partial.extend_curLen (p : Partial) (o : Opcode) (data : List UInt8) :
    (Partial.extend p o data).curLen = toInt ((p.data.length + data.length : ℕ) : ℤ) := by
  simp only [Partial.extend]

theorem deliver_cons {maxSize : UInt32} {f : Frame} (hdata : f.opcode.isControl = false)
    (hkey : f.key.isSome = masked) {p : Partial} (hcur : p.curLen = p.data.length)
    (hlen : 0 < f.payload.length ∧ f.payload.length < 2 ^ 31)
    (hmax : p.data.length + f.payload.length < maxSize.toNat) (fs : List Frame) :
    deliver maxSize (!masked) p (f :: fs) =
      if masked = true ∧ 2 ^ 31 < p.data.length + f.payload.length then .undefined
      else if f.fin then
        .message ⟨(Partial.extend p f.opcode f.payload).opcode, p.data ++ f.payload⟩ fs
      else deliver maxSize (!masked) (Partial.extend p f.opcode f.payload) fs := by
  have hdir : (!masked) = true ∨ f.key.isSome = true := by
    rw [hkey]
    cases masked <;> simp
  have habs := absorb_fragment hcur hdir hlen.1 hlen.2 hmax
  simp only [deliver, hdata, Bool.false_eq_true, if_false, habs, hkey]
  by_cases hover : masked = true ∧ 2 ^ 31 < p.data.length + f.payload.length
  · simp only [hover, and_self, if_true]
  · simp only [hover, if_false, Partial.extend]

theorem deliver_wrapped {maxSize : UInt32} {o : Opcode} {rest : List (List UInt8)}
    {fs : List Frame} (h : Fragmented masked o rest fs) (ho : o.isControl = false) {p : Partial}
    {o' : Opcode} {data : List UInt8} (hwrap : 2 ^ 31 ≤ p.data.length + data.length)
    (hmax : p.data.length + (data.length + rest.flatten.length) < maxSize.toNat) :
    deliver maxSize (!masked) (Partial.extend p o' data) fs = .closed := by
  cases h with
  | @last _ f hfin hop hkey | @more _ f _ _ hfin hop hkey htail =>
    simp only [List.flatten_cons, List.length_append] at hmax
    have hnext : p.data.length + data.length + f.payload.length < maxSize.toNat := by omega
    have habs := absorb_wrapped (!masked) (Partial.extend_curLen p o' data) hwrap hnext
    simp only [deliver, hop, ho, Bool.false_eq_true, if_false, habs]

theorem deliver_fragments {maxSize : UInt32} {o : Opcode} (ho : o.isControl = false)
    {parts : List (List UInt8)} {fs : List Frame} (h : Fragmented masked o parts fs)
    {p : Partial} (hcur : p.curLen = p.data.length) (hint : p.data.length < 2 ^ 31)
    (hparts : ∀ d ∈ parts, 0 < d.length ∧ d.length < 2 ^ 31)
    (hmax : p.data.length + parts.flatten.length < maxSize.toNat) :
    (Countable masked p.data.length parts → deliver maxSize (!masked) p fs =
      .message ⟨if p.opcode = 0 ∧ o ≠ .continuation then (o.code.toNat : ℤ) else p.opcode,
        p.data ++ parts.flatten⟩ []) ∧
    (¬ Countable masked p.data.length parts →
      deliver maxSize (!masked) p fs = .closed ∨ deliver maxSize (!masked) p fs = .undefined) := by
  induction h generalizing p with
  | @last o f hfin hop hkey =>
    subst hop
    have hlen := hparts f.payload (by simp)
    simp only [Countable, List.dropLast_singleton, List.flatten_cons, List.flatten_nil,
      List.append_nil, List.length_nil, Nat.add_zero] at hmax ⊢
    rw [deliver_cons ho hkey hcur hlen hmax, if_pos hfin]
    constructor
    · intro hc
      rw [if_neg (fun hover => absurd (hc.2 hover.1) (by omega))]
      rfl
    · intro hc
      rw [if_pos (by_contra fun hover => hc ⟨hint, fun hm => by_contra fun hgt =>
        hover ⟨hm, by omega⟩⟩)]
      exact .inr rfl
  | @more o f rest fs hfin hop hkey htail ih =>
    subst hop
    have hlen := hparts f.payload (by simp)
    have hflat : (f.payload :: rest).flatten.length = f.payload.length + rest.flatten.length := by
      simp
    have hlast : (f.payload :: rest).dropLast.flatten.length =
        f.payload.length + rest.dropLast.flatten.length := by
      rw [List.dropLast_cons_of_ne_nil htail.ne_nil]
      simp
    rw [hflat] at hmax
    have hstep := deliver_cons ho hkey hcur hlen (by omega : _ < maxSize.toNat) fs
    simp only [hfin, Bool.false_eq_true, if_false] at hstep
    have hsize : (Partial.extend p f.opcode f.payload).data.length =
        p.data.length + f.payload.length := by
      simp [Partial.extend]
    rcases Nat.lt_or_ge (p.data.length + f.payload.length) (2 ^ 31) with hlt | hwrap
    · rw [if_neg (by omega)] at hstep
      have hcur' : (Partial.extend p f.opcode f.payload).curLen =
          (Partial.extend p f.opcode f.payload).data.length := by
        rw [hsize, Partial.extend_curLen, toInt_of_lt hlt]
      have hcount : Countable masked p.data.length (f.payload :: rest) ↔
          Countable masked (Partial.extend p f.opcode f.payload).data.length rest := by
        simp only [Countable, hflat, hlast, hsize, Nat.add_assoc]
      obtain ⟨hgood, hbad⟩ := ih rfl hcur' (by omega) (fun d hd => hparts d (by simp [hd]))
        (by omega)
      rw [hstep, hcount]
      refine ⟨fun hc => ?_, hbad⟩
      rw [hgood hc]
      simp [Partial.extend]
    · -- the counter wraps around here and the next frame is refused
      have hnot : ¬ Countable masked p.data.length (f.payload :: rest) := by
        intro hc
        have := hc.1
        omega
      refine ⟨fun hc => absurd hc hnot, ?_⟩
      intro _
      rw [hstep]
      split
      · exact .inr rfl
      · exact .inl (deliver_wrapped htail rfl hwrap (by omega))

/-- The caller sends one message after the other, the first with its opcode and the others as
continuations, the last one final; every call draws its own mask. -/
def sendFragments (order : ByteOrder) (client : Bool) :
    Stream → ℤ → List (List UInt8 × UInt32) → List ℤ × Stream
  | s, _, [] => ([], s)
  | s, opcode, (data, rand) :: rest =>
    let (r, _, s) := wsSendMessage order rand s ⟨opcode, data⟩ client rest.isEmpty
    let (rs, s) := sendFragments order client s WSFrameHead.CONTINUE.toNat rest
    (r :: rs, s)

/-- A length that every cast to `int` on the way leaves alone. -/
def Sendable (data : List UInt8) : Prop := 0 < data.length ∧ data.length + 2 < 2 ^ 31

/-- One call returns a positive value exactly for a payload of sendable length. -/
theorem send_positive_iff (order : ByteOrder) (rand : UInt32) (client fin : Bool) {o : Opcode}
    (ho : o.isControl = false) {data : List UInt8} (hd : data.length < 2 ^ 32) {s : Stream}
    (hs : Writable s) :
    0 < (wsSendMessage order rand s ⟨o.code.toNat, data⟩ client fin).1 ↔ Sendable data := by
  have hfits : data.length < 2 ^ 63 := by omega
  have hlen := toInt_eq_of_lt hd
  rcases le_or_gt (toInt data.length) 0 with hneg | hpos
  · obtain ⟨msg, s', hsend⟩ := wsSendMessage_failed order rand client fin ho hfits hs hneg
    rw [hsend, Sendable]
    split at hlen <;> constructor <;> intro h <;> omega
  · obtain ⟨msg, rest, -, hsend⟩ := wsSendMessage_ok order rand client fin ho hfits hs hpos
    have hlt : data.length < 2 ^ 31 := by
      split at hlen <;> omega
    have hret := toInt_eq_of_lt (by omega : data.length + 2 < 2 ^ 32)
    have hcast : ((data.length + 2 : ℕ) : ℤ) = (data.length : ℤ) + 2 := by omega
    rw [hcast] at hret
    rw [hsend, Sendable]
    simp only [hret]
    split <;> constructor <;> intro h <;> split at hlen <;> omega

theorem code_continuation :
    (WSFrameHead.CONTINUE.toNat : ℤ) = Opcode.continuation.code.toNat := rfl

theorem sendFragments_positive_iff (order : ByteOrder) (client : Bool) {o : Opcode}
    (ho : o.isControl = false) {parts : List (List UInt8 × UInt32)}
    (hparts : ∀ x ∈ parts, x.1.length < 2 ^ 32) {s : Stream} (hs : Writable s) :
    (∀ r ∈ (sendFragments order client s o.code.toNat parts).1, 0 < r) ↔
      ∀ x ∈ parts, Sendable x.1 := by
  induction parts generalizing o s with
  | nil => simp [sendFragments]
  | cons x parts ih =>
    obtain ⟨data, rand⟩ := x
    have hd : data.length < 2 ^ 32 := hparts (data, rand) (by simp)
    have hone := send_positive_iff order rand client parts.isEmpty ho hd hs
    simp only [sendFragments, List.forall_mem_cons]
    rw [hone]
    constructor
    · rintro ⟨hfirst, hrest⟩
      obtain ⟨msg, rest, hw, hsend⟩ := wsSendMessage_ok order rand client parts.isEmpty ho
        (by omega) hs (toInt_small hfirst.1 (by have := hfirst.2; omega))
      rw [hsend, code_continuation] at hrest
      exact ⟨hfirst, (ih rfl (fun y hy => hparts y (by simp [hy])) (hs.wrote hw _)).1 hrest⟩
    · rintro ⟨hfirst, hrest⟩
      obtain ⟨msg, rest, hw, hsend⟩ := wsSendMessage_ok order rand client parts.isEmpty ho
        (by omega) hs (toInt_small hfirst.1 (by have := hfirst.2; omega))
      rw [hsend, code_continuation]
      exact ⟨hfirst, (ih rfl (fun y hy => hparts y (by simp [hy])) (hs.wrote hw _)).2 hrest⟩

/-- Sendable fragments are written as frames, one behind the other. -/
theorem sendFragments_ok (order : ByteOrder) (client : Bool) {o : Opcode}
    (ho : o.isControl = false) {parts : List (List UInt8 × UInt32)} (hne : parts ≠ [])
    (hparts : ∀ x ∈ parts, Sendable x.1) {s : Stream} (hs : Writable s) :
    ∃ (rest : List Int32) (fs : List Frame), Fragmented client o (parts.map (·.1)) fs ∧
      (sendFragments order client s o.code.toNat parts).2 = s.wrote rest (encodeAll fs) := by
  induction parts generalizing o s with
  | nil => exact absurd rfl hne
  | cons x parts ih =>
    obtain ⟨data, rand⟩ := x
    have hfirst : Sendable data := hparts (data, rand) (by simp)
    have hfits : data.length < 2 ^ 63 := by
      have := hfirst.2
      omega
    obtain ⟨msg, rest, hw, hsend⟩ := wsSendMessage_ok order rand client parts.isEmpty ho hfits hs
      (toInt_small hfirst.1 (by have := hfirst.2; omega))
    have hkey : (Frame.sent order rand client parts.isEmpty o data ho hfits).key.isSome =
        client := by
      cases client <;> rfl
    cases parts with
    | nil =>
      refine ⟨rest, [Frame.sent order rand client true o data ho hfits], ?_, ?_⟩
      · exact .last (f := Frame.sent order rand client true o data ho hfits) rfl rfl hkey
      · simp only [sendFragments, hsend, encodeAll, List.flatMap_singleton]
        rfl
    | cons y parts =>
      obtain ⟨rest', fs, hfs, hout⟩ := ih (o := .continuation) rfl (by simp)
        (fun z hz => hparts z (List.mem_cons_of_mem _ hz))
        (hs.wrote hw (Frame.sent order rand client false o data ho hfits).encode)
      refine ⟨rest', Frame.sent order rand client false o data ho hfits :: fs, ?_, ?_⟩
      · exact .more (f := Frame.sent order rand client false o data ho hfits) rfl rfl hkey hfs
      · rw [sendFragments, hsend, code_continuation]
        simp only [List.isEmpty_cons, hout, wrote_wrote, encodeAll, List.flatMap_cons]

/-- What the loop of the receiver does with frames of data is what `deliver` says. -/
theorem wsRecvMessage_fragments (order : ByteOrder) (maxSize : UInt32) {o : Opcode}
    (ho : o.isControl = false) {parts : List (List UInt8)} {fs : List Frame}
    (h : Fragmented masked o parts fs) {r : Stream} (hr : r.connected = true)
    {tail : List UInt8} (hp : r.pending = encodeAll fs ++ tail) :
    match deliver maxSize (!masked) .init fs with
    | .message m rest => ∃ r', wsRecvMessage order maxSize r (!masked) = .ok (some m, r') ∧
        r'.connected = true ∧ r'.pending = encodeAll rest ++ tail
    | .closed => tail = [] →
        ∃ r', wsRecvMessage order maxSize r (!masked) = .ok (none, Stream.close r')
    | .undefined => wsRecvMessage order maxSize r (!masked) = .error .undefined := by
  have hdata := h.data ho
  have hfuel : fs.length < r.pending.length + 1 := by
    have := length_le_encodeAll fs
    rw [hp, List.length_append]
    omega
  exact recvLoop_deliver order maxSize (!masked) .init hdata hr hp hfuel

/-- Some stream has these bytes to come. -/
theorem exists_stream (bytes : List UInt8) :
    ∃ r : Stream, r.connected = true ∧ r.pending = bytes := by
  by_cases h : bytes = []
  · exact ⟨⟨true, [], ⟨0, by decide⟩, [], []⟩, rfl, h.symm⟩
  · exact ⟨⟨true, [⟨bytes, h⟩], ⟨0, by decide⟩, [], []⟩, rfl, by simp [pending]⟩

/-- Fragments that are sent one after the other arrive as one message exactly when no cast to
`int` on the way changes a length, which an empty fragment always breaks. -/
theorem fragments_delivered_iff (order order' : ByteOrder) (maxSize : UInt32) (client : Bool)
    {o : Opcode} (ho : o = .text ∨ o = .binary) {parts : List (List UInt8 × UInt32)}
    (hne : parts ≠ []) (hmax : (parts.map (·.1)).flatten.length < maxSize.toNat) {s : Stream}
    (hs : Writable s) :
    ((∀ r ∈ (sendFragments order client s o.code.toNat parts).1, 0 < r) ∧
      (sendFragments order client s o.code.toNat parts).2.connected = true ∧
      ∀ written, (sendFragments order client s o.code.toNat parts).2.outgoing =
          s.outgoing ++ written →
        ∀ (r : Stream) (tail : List UInt8), r.connected = true → r.pending = written ++ tail →
          ∃ r', wsRecvMessage order' maxSize r (!client) =
            .ok (some ⟨o.code.toNat, (parts.map (·.1)).flatten⟩, r') ∧
            r'.connected = true ∧ r'.pending = tail) ↔
    (∀ x ∈ parts, 0 < x.1.length ∧ x.1.length + 2 < 2 ^ 31) ∧
      (parts.map (·.1)).dropLast.flatten.length < 2 ^ 31 ∧
      (client = true → (parts.map (·.1)).flatten.length ≤ 2 ^ 31) := by
  have hctl : o.isControl = false := by rcases ho with rfl | rfl <;> rfl
  have hopcode : (if (Partial.init).opcode = 0 ∧ o ≠ .continuation then (o.code.toNat : ℤ)
      else (Partial.init).opcode) = o.code.toNat := by
    rcases ho with rfl | rfl <;> rfl
  have hlimit := maxSize.toNat_lt
  have hsmall : ∀ x ∈ parts, x.1.length < 2 ^ 32 := by
    intro x hx
    have hle : x.1.length ≤ (parts.map (·.1)).flatten.length :=
      (List.sublist_flatten_of_mem (List.mem_map_of_mem hx)).length_le
    omega
  rw [sendFragments_positive_iff order client hctl hsmall hs]
  by_cases hsend : ∀ x ∈ parts, Sendable x.1
  swap
  · constructor
    · exact fun h => absurd h.1 hsend
    · exact fun h => absurd h.1 hsend
  obtain ⟨rest, fs, hfs, hout⟩ := sendFragments_ok order client hctl hne hsend hs
  have hlens : ∀ d ∈ parts.map (·.1), 0 < d.length ∧ d.length < 2 ^ 31 := by
    intro d hd
    obtain ⟨x, hx, rfl⟩ := List.mem_map.1 hd
    have := hsend x hx
    exact ⟨this.1, by have := this.2; omega⟩
  obtain ⟨hgood, hbad⟩ := deliver_fragments hctl hfs (p := .init) rfl (by simp [Partial.init])
    hlens (by simpa [Partial.init] using hmax)
  rw [hopcode] at hgood
  have hcount : Countable client (Partial.init).data.length (parts.map (·.1)) ↔
      (parts.map (·.1)).dropLast.flatten.length < 2 ^ 31 ∧
        (client = true → (parts.map (·.1)).flatten.length ≤ 2 ^ 31) := by
    simp [Countable, Partial.init]
  rw [← hcount, hout]
  constructor
  · rintro ⟨-, -, hrecv⟩
    refine ⟨hsend, by_contra ?_⟩
    intro hnot
    obtain ⟨r, hr, hp⟩ := exists_stream (encodeAll fs)
    rw [← List.append_nil (encodeAll fs)] at hp
    obtain ⟨r', hok, -, -⟩ := hrecv (encodeAll fs) rfl r [] hr hp
    have hloop := wsRecvMessage_fragments order' maxSize hctl hfs hr hp
    rcases hbad hnot with hclosed | hundef
    · rw [hclosed] at hloop
      obtain ⟨r'', hnone⟩ := hloop rfl
      rw [hnone] at hok
      cases hok
    · rw [hundef] at hloop
      simp only at hloop
      rw [hloop] at hok
      cases hok
  · rintro ⟨-, hc⟩
    refine ⟨hsend, hs.isOpen, ?_⟩
    intro written hw r tail hr hp
    have hwritten : encodeAll fs = written := List.append_cancel_left hw
    rw [← hwritten] at hp
    have hloop := wsRecvMessage_fragments order' maxSize hctl hfs hr hp
    rw [hgood hc] at hloop
    obtain ⟨r', hok, hopen, hrest⟩ := hloop
    exact ⟨r', hok, hopen, hrest⟩

/-- Two fragments of a masked text; the receiver gets them cut at other places. -/
theorem fragments_delivered_two :
    (∀ r ∈ (sendFragments .little true ⟨true, [], ⟨0, by decide⟩, [3, 1], []⟩
        Opcode.text.code.toNat [([104], 5), ([105, 33], 9)]).1, 0 < r) ∧
    (sendFragments .little true ⟨true, [], ⟨0, by decide⟩, [3, 1], []⟩
        Opcode.text.code.toNat [([104], 5), ([105, 33], 9)]).2.connected = true ∧
    ∀ written, (sendFragments .little true ⟨true, [], ⟨0, by decide⟩, [3, 1], []⟩
        Opcode.text.code.toNat [([104], 5), ([105, 33], 9)]).2.outgoing = [] ++ written →
      ∀ (r : Stream) (tail : List UInt8), r.connected = true → r.pending = written ++ tail →
        ∃ r', wsRecvMessage .big 1024 r false = .ok (some ⟨1, [104, 105, 33]⟩, r') ∧
          r'.connected = true ∧ r'.pending = tail :=
  (fragments_delivered_iff .little .big 1024 true (.inl rfl) (by simp) (by decide)
    ⟨rfl, by simp⟩).2 (by decide)

/-- An empty message: its head is written, then the stream is closed and the call fails. -/
theorem empty_fragment_refused :
    (sendFragments .little false ⟨true, [], ⟨0, by decide⟩, [], []⟩ Opcode.text.code.toNat
      [([], 0)]).1 = [-1] ∧
    (sendFragments .little false ⟨true, [], ⟨0, by decide⟩, [], []⟩ Opcode.text.code.toNat
      [([], 0)]).2.connected = false ∧
    ¬ ∀ r ∈ (sendFragments .little false ⟨true, [], ⟨0, by decide⟩, [], []⟩
      Opcode.text.code.toNat [([], 0)]).1, 0 < r := by
  decide

/-- What the sender makes of a message is put together to that message, with the stream right
behind its frame. -/
theorem wsRecvMessage_sent (order order' : ByteOrder) (rand : UInt32) {maxSize : UInt32}
    (hmax : maxSize.toNat ≤ 2 ^ 31) (client : Bool) {o : Opcode} (ho : o = .text ∨ o = .binary)
    (hctl : o.isControl = false) {data : List UInt8} (hfits : data.length < 2 ^ 63)
    (hpos : 1 ≤ data.length) (hlt : data.length < maxSize.toNat) {r : Stream}
    (hr : r.connected = true) {tail : List UInt8}
    (hp : r.pending = (Frame.sent order rand client true o data hctl hfits).encode ++ tail) :
    ∃ segs, wsRecvMessage order' maxSize r (!client) =
        .ok (some ⟨o.code.toNat, data⟩, r.arrived segs) ∧
      (r.arrived segs).pending = tail := by
  obtain ⟨f, hf⟩ : ∃ f, f = Frame.sent order rand client true o data hctl hfits := ⟨_, rfl⟩
  have hkey : f.key.isSome = client := by
    rw [hf]
    cases client <;> rfl
  have hpayload : f.payload = data := by rw [hf]; rfl
  have hop : f.opcode = o := by rw [hf]; rfl
  have hfin : f.fin = true := by rw [hf]; rfl
  rw [← hf] at hp
  have hdir : (!client) = true ∨ f.key.isSome = true := by
    rw [hkey]
    cases client <;> simp
  have habs := absorb_fragment (p := .init) rfl hdir (by rw [hpayload]; exact hpos)
    (by rw [hpayload]; omega) (by simpa [hpayload, Partial.init] using hlt)
  rw [if_neg (by simp [hpayload, Partial.init]; omega)] at habs
  have hpass := recvIteration_data order' maxSize (!client) .init (by rw [hop]; exact hctl) hr hp
  rw [habs] at hpass
  obtain ⟨segs, htail, hpass⟩ := hpass
  rw [hfin, if_pos rfl] at hpass
  refine ⟨segs, ?_, htail⟩
  have hmsg : (⟨if (Partial.init).opcode = 0 ∧ f.opcode ≠ .continuation
      then (f.opcode.code.toNat : ℤ) else (Partial.init).opcode,
      (Partial.init).data ++ f.payload⟩ : WSFrameMessage) = ⟨o.code.toNat, data⟩ := by
    rw [hop, hpayload]
    rcases ho with rfl | rfl <;> rfl
  simp only [wsRecvMessage, recvLoop, hpass, hmsg]

/-- A message of either kind and in either direction comes out of the receiver as it went in,
with the stream right behind its frame, however the bytes are cut into reads. -/
theorem message_round_trip (order order' : ByteOrder) (rand : UInt32) {maxSize : UInt32}
    (hmax : maxSize.toNat ≤ 2 ^ 31) (client : Bool) {o : Opcode} (ho : o = .text ∨ o = .binary)
    {data : List UInt8} (hpos : 1 ≤ data.length) (hlt : data.length < maxSize.toNat) {s : Stream}
    (hs : Writable s) :
    ∃ written, (wsSendMessage order rand s ⟨o.code.toNat, data⟩ client true).2.2.outgoing =
        s.outgoing ++ written ∧
      (wsSendMessage order rand s ⟨o.code.toNat, data⟩ client true).2.2.connected = true ∧
      ∀ (r : Stream) (tail : List UInt8), r.connected = true → r.pending = written ++ tail →
        ∃ segs, wsRecvMessage order' maxSize r (!client) =
            .ok (some ⟨o.code.toNat, data⟩, r.arrived segs) ∧
          (r.arrived segs).pending = tail := by
  have hctl : o.isControl = false := by rcases ho with rfl | rfl <;> rfl
  have hfits : data.length < 2 ^ 63 := by omega
  obtain ⟨msg, rest, -, hsend⟩ := wsSendMessage_ok order rand client true hctl hfits hs
    (toInt_small hpos (by omega))
  rw [hsend]
  refine ⟨(Frame.sent order rand client true o data hctl hfits).encode, rfl, hs.isOpen, ?_⟩
  intro r tail hr hp
  exact wsRecvMessage_sent order order' rand hmax client ho hctl hfits hpos hlt hr hp

/-- A masked text of one byte; the limit is the default one. -/
theorem message_round_trip_masked :
    ∃ written, (wsSendMessage .little 77 ⟨true, [], ⟨0, by decide⟩, [1], []⟩ ⟨1, [104]⟩ true
        true).2.2.outgoing = [] ++ written ∧
      ∀ (r : Stream) (tail : List UInt8), r.connected = true → r.pending = written ++ tail →
        ∃ segs, wsRecvMessage .big 33554432 r false = .ok (some ⟨1, [104]⟩, r.arrived segs) ∧
          (r.arrived segs).pending = tail := by
  obtain ⟨written, hout, -, hrecv⟩ := message_round_trip .little .big 77
    (by decide : (33554432 : UInt32).toNat ≤ 2 ^ 31) true (.inl rfl)
    (by decide : 1 ≤ [(104 : UInt8)].length) (by decide)
    (⟨rfl, by simp⟩ : Writable ⟨true, [], ⟨0, by decide⟩, [1], []⟩)
  exact ⟨written, hout, hrecv⟩

end Fragments

end WebSocketMessages
