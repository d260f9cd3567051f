import SylarNet.WebSocketMessages

/-!
# What sending does to the message

`WSSendMessage` gets the message by a shared pointer. A client masks the data in place, and a
message that is sent again is masked once more.
-/
namespace WebSocketSending

open HostWords SylarStream SylarStream.Stream WebSocketSession WebSocketFrames WebSocketMessages

/-- The head and the length behind it get out. -/
def HeaderSent (order : ByteOrder) (s : Stream) (m : WSFrameMessage) (client fin : Bool) : Prop :=
  ∃ t, (attempt s (messageHead m client fin).toBytes >>=
    attemptLength order (payloadBits m.data.length) m.data.length) = .ok t

/-- The data after a client has sent them with this value of `rand()`. -/
def mask (order : ByteOrder) (rand : UInt32) (data : List UInt8) : List UInt8 :=
  applyMask (store order 4 rand.toNat) data

/-- One message object sent once for each value of `rand()`. -/
def sendAgain (order : ByteOrder) (client : Bool) :
    List UInt32 → WSFrameMessage → Stream → WSFrameMessage × Stream
  | [], m, s => (m, s)
  | rand :: rands, m, s =>
    let (_, m, s) := wsSendMessage order rand s m client true
    sendAgain order client rands m s

/-- So many messages, taken from the stream one after the other. -/
def receiveAgain (order : ByteOrder) (maxSize : UInt32) (client : Bool) :
    ℕ → Stream → Except Fault (List (Option WSFrameMessage))
  | 0, _ => .ok []
  | n + 1, s => do
    let (m, s) ← wsRecvMessage order maxSize s client
    let ms ← receiveAgain order maxSize client n s
    .ok (m :: ms)

/-- What the object holds at each of its sendings: a client's send masks it for the next ones. -/
def payloads (order : ByteOrder) (client : Bool) : List UInt8 → List UInt32 → List (List UInt8)
  | _, [] => []
  | data, rand :: rands =>
    data :: payloads order client (if client then mask order rand data else data) rands

theorem payloads_server (order : ByteOrder) (data : List UInt8) (rands : List UInt32) :
    payloads order false data rands = List.replicate rands.length data := by
  induction rands with
  | nil => rfl
  | cons rand rands ih =>
    rw [payloads, if_neg (by decide), ih]
    rfl

section Send

variable {order : ByteOrder} {s : Stream} {client fin : Bool}

theorem sent_message (order : ByteOrder) (rand : UInt32) (s : Stream) (m : WSFrameMessage)
    (client fin : Bool) :
    (HeaderSent order s m client fin → (wsSendMessage order rand s m client fin).2.1 =
      if client then { m with data := mask order rand m.data } else m) ∧
    (¬ HeaderSent order s m client fin → (wsSendMessage order rand s m client fin).2.1 = m) := by
  unfold wsSendMessage HeaderSent
  dsimp only
  cases attempt s (messageHead m client fin).toBytes >>=
      attemptLength order (payloadBits m.data.length) m.data.length with
  | error t =>
    refine ⟨?_, fun _ => rfl⟩
    rintro ⟨t', ht⟩
    cases ht
  | ok t =>
    refine ⟨fun _ => ?_, fun hno => absurd ⟨t, rfl⟩ hno⟩
    dsimp only
    split
    · rfl
    · rfl

theorem headerSent_of_writable (hs : Writable s) (m : WSFrameMessage) :
    HeaderSent order s m client fin := by
  have hpos : 0 < toInt (messageHead m client fin).toBytes.length :=
    toInt_small (by rw [length_toBytes]; omega) (by rw [length_toBytes]; omega)
  obtain ⟨rest, hrest, hhead⟩ := attempt_ok hs hpos
  obtain ⟨rest', -, hlen⟩ := attemptLength_ok order (hs.wrote hrest _) m.data.length
  exact ⟨_, by rw [hhead]; exact hlen⟩

end Send

section Again

variable (order order' : ByteOrder) {maxSize : UInt32} (client : Bool) {o : Opcode}

/-- One of the sendings: the frame, and the object for the next one. -/
theorem send_once (rand : UInt32) (hctl : o.isControl = false) {data : List UInt8}
    (hfits : data.length < 2 ^ 63) (hint : 0 < toInt data.length) {s : Stream} (hs : Writable s) :
    ∃ rest : List Int32, Writable (s.wrote rest
        (Frame.sent order rand client true o data hctl hfits).encode) ∧
      ∃ v, wsSendMessage order rand s ⟨o.code.toNat, data⟩ client true =
        (v, ⟨o.code.toNat, if client then mask order rand data else data⟩,
          s.wrote rest (Frame.sent order rand client true o data hctl hfits).encode) := by
  obtain ⟨msg, rest, hrest, hsend⟩ := wsSendMessage_ok order rand client true hctl hfits hs hint
  refine ⟨rest, hs.wrote hrest _, toInt (data.length + 2), ?_⟩
  have hmsg := (sent_message order rand s ⟨o.code.toNat, data⟩ client true).1
    (headerSent_of_writable hs _)
  rw [hsend] at hmsg ⊢
  change msg = _ at hmsg
  rw [hmsg]
  cases client with
  | false => rfl
  | true => rfl

theorem sendAgain_received (hmax : maxSize.toNat ≤ 2 ^ 31) (ho : o = .text ∨ o = .binary)
    {data : List UInt8} (hpos : 1 ≤ data.length) (hlt : data.length < maxSize.toNat)
    {s : Stream} (hs : Writable s) (rands : List UInt32) :
    ∃ written, (sendAgain order client rands ⟨o.code.toNat, data⟩ s).2.outgoing =
        s.outgoing ++ written ∧
      ∀ (r : Stream) (tail : List UInt8), r.connected = true → r.pending = written ++ tail →
        receiveAgain order' maxSize (!client) rands.length r =
          .ok ((payloads order client data rands).map fun d => some ⟨o.code.toNat, d⟩) := by
  have hctl : o.isControl = false := by rcases ho with rfl | rfl <;> rfl
  induction rands generalizing data s with
  | nil => exact ⟨[], (List.append_nil _).symm, fun _ _ _ _ => rfl⟩
  | cons rand rands ih =>
    have hfits : data.length < 2 ^ 63 := by omega
    obtain ⟨rest, hs', v, hsend⟩ := send_once order client rand hctl hfits
      (toInt_small hpos (by omega)) hs
    have hlength : (if client then mask order rand data else data).length = data.length := by
      split
      · exact length_applyMask _ data
      · rfl
    obtain ⟨written, hout, hrecv⟩ := ih (hlength.symm ▸ hpos) (hlength.symm ▸ hlt) hs'
    refine ⟨(Frame.sent order rand client true o data hctl hfits).encode ++ written, ?_, ?_⟩
    · rw [sendAgain, hsend, ← List.append_assoc]
      exact hout
    · intro r tail hr hp
      rw [List.append_assoc] at hp
      obtain ⟨segs, hone, hrest⟩ := wsRecvMessage_sent order order' rand hmax client ho hctl hfits
        hpos hlt hr hp
      rw [List.length_cons, receiveAgain, hone]
      simp only [bind, Except.bind]
      rw [hrecv (r.arrived segs) tail hr hrest]
      rfl

end Again

/-- Sending keeps the opcode, and the data too unless a client gets as far as its mask. A server
delivers one message object each time as it is, a client with the masks of the sendings before. -/
theorem sending_masks_in_place (order order' : ByteOrder) {maxSize : UInt32}
    (hmax : maxSize.toNat ≤ 2 ^ 31) {o : Opcode} (ho : o = .text ∨ o = .binary)
    {data : List UInt8} (hpos : 1 ≤ data.length) (hlt : data.length < maxSize.toNat) :
    (∀ (rand : UInt32) (s : Stream) (m : WSFrameMessage) (client fin : Bool),
      (wsSendMessage order rand s m client fin).2.1.opcode = m.opcode ∧
      (client = false ∨ ¬ HeaderSent order s m client fin →
        (wsSendMessage order rand s m client fin).2.1.data = m.data) ∧
      (client = true → HeaderSent order s m client fin →
        (wsSendMessage order rand s m client fin).2.1.data = mask order rand m.data)) ∧
    (∀ (client : Bool) (s : Stream) (rands : List UInt32), Writable s →
      ∃ written, (sendAgain order client rands ⟨o.code.toNat, data⟩ s).2.outgoing =
          s.outgoing ++ written ∧
        ∀ (r : Stream) (tail : List UInt8), r.connected = true → r.pending = written ++ tail →
          receiveAgain order' maxSize (!client) rands.length r =
            .ok ((payloads order client data rands).map fun d => some ⟨o.code.toNat, d⟩)) ∧
    ∀ rands, payloads order false data rands = List.replicate rands.length data := by
  refine ⟨?_, ?_, payloads_server order data⟩
  · intro rand s m client fin
    obtain ⟨hsent, hkept⟩ := sent_message order rand s m client fin
    by_cases hheader : HeaderSent order s m client fin
    · rw [hsent hheader]
      cases client with
      | false => exact ⟨rfl, fun _ => rfl, fun h => absurd h (by decide)⟩
      | true => exact ⟨rfl, fun h => absurd hheader (h.resolve_left (by decide)), fun _ _ => rfl⟩
    · rw [hkept hheader]
      exact ⟨rfl, fun _ => rfl, fun _ h => absurd h hheader⟩
  · intro client s rands hs
    exact sendAgain_received order order' client hmax ho hpos hlt hs rands

/-- A client sends two bytes twice; the second time they carry the first mask. -/
theorem sending_twice :
    ∃ written, (sendAgain .little true [77, 5] ⟨Opcode.text.code.toNat, [104, 105]⟩
        ⟨true, [], ⟨0, by decide⟩, [1, 2], []⟩).2.outgoing = [] ++ written ∧
      ∀ (r : Stream) (tail : List UInt8), r.connected = true → r.pending = written ++ tail →
        receiveAgain .big 1024 false 2 r =
          .ok ((payloads .little true [104, 105] [77, 5]).map fun d =>
            some ⟨Opcode.text.code.toNat, d⟩) :=
  (sending_masks_in_place .little .big (by decide : (1024 : UInt32).toNat ≤ 2 ^ 31)
    (.inl rfl : Opcode.text = .text ∨ Opcode.text = .binary)
    (by decide : 1 ≤ [(104 : UInt8), 105].length) (by decide)).2.1 true
    ⟨true, [], ⟨0, by decide⟩, [1, 2], []⟩ [77, 5] ⟨rfl, by simp⟩

/-- A client that sends one byte. -/
theorem client_changes_message :
    ¬ ∀ (order : ByteOrder) (rand : UInt32) (s : Stream) (m : WSFrameMessage) (client fin : Bool),
      (wsSendMessage order rand s m client fin).2.1 = m := by
  intro h
  have hsame := h .little 77 ⟨true, [], ⟨0, by decide⟩, [], []⟩ ⟨1, [104]⟩ true true
  exact absurd hsame (by decide)

end WebSocketSending
