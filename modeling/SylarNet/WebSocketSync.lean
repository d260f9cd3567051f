import SylarNet.WebSocketMessages

/-!
# Frame synchronisation of the receiver

Every pass of the loop of `WSRecvMessage` should take one whole frame. The passes that meet a
control frame read its head only.
-/
namespace WebSocketSync

open HostWords SylarStream SylarStream.Stream WebSocketSession WebSocketFrames WebSocketMessages

variable (order : ByteOrder) (maxSize : UInt32) (client : Bool)

/-- Every pass of the loop that goes on has read exactly one frame. -/
def InSync : Partial → Stream → List Frame → Prop
  | _, _, [] => True
  | p, s, _ :: fs =>
    match recvIteration order maxSize client p s with
    | .again p' s' => s'.pending = encodeAll fs ∧ InSync p' s' fs
    | .message _ _ => True
    | .exit (.left _) => True
    | .exit .undefined => False

/-- A close frame comes before the data frame that ends the loop. -/
def MeetsClose : Partial → List Frame → Prop
  | _, [] => False
  | p, f :: fs =>
    if f.opcode.isControl then f.opcode = .close ∨ MeetsClose p fs
    else
      match absorb maxSize client p f with
      | .ok p' => f.fin = false ∧ MeetsClose p' fs
      | .left | .undefined => False

/-- No control frame has a key or a payload, and no message ends behind a close frame; `closing`
says that one was met and `accepts` has the results of the writes to come. A pong that they do not
take ends the loop, and then there was no message to come, or a close frame is among the frames. -/
def Harmless : Bool → List Int32 → Partial → List Frame → Prop
  | _, _, _, [] => True
  | closing, accepts, p, f :: fs =>
    if f.opcode.isControl then
      match answer accepts f with
      | none =>
        closing = true ∨ MeetsClose maxSize client p fs ∨ deliver maxSize client p fs = .closed
      | some rest =>
        f.key = none ∧ f.payload = [] ∧ Harmless (closing || decide (f.opcode = .close)) rest p fs
    else
      match absorb maxSize client p f with
      | .left => True
      | .undefined => False
      | .ok p' => if f.fin then closing = false else Harmless closing accepts p' fs

variable {order maxSize client}

/-- What is left of a control frame behind its head. -/
theorem encode_control {f : Frame} (hf : f.opcode.isControl = true) :
    f.encode = f.head.toBytes ++ (f.keyBytes ++ f.masked) := by
  have hlen : f.payload.length < 126 := by
    have := (f.control hf).2
    omega
  simp [Frame.encode, Frame.extendedLength, hlen]

theorem rest_eq_nil_iff (f : Frame) :
    f.keyBytes ++ f.masked = [] ↔ f.key = none ∧ f.payload = [] := by
  rw [List.append_eq_nil_iff, ← List.length_eq_zero_iff (l := f.masked), length_masked,
    List.length_eq_zero_iff]
  cases hk : f.key with
  | none => simp [Frame.keyBytes, hk]
  | some k =>
    have hne : k.1 ≠ [] := by
      intro h
      have := k.2
      simp [h] at this
    simp [Frame.keyBytes, hk, hne]

def dataFrames (fs : List Frame) : List Frame := fs.filter fun f => !f.opcode.isControl

/-- The message, if there is one, without the frames behind it. -/
def Delivery.outcome : Delivery → Except Fault (Option WSFrameMessage)
  | .message m _ => .ok (some m)
  | .closed => .ok none
  | .undefined => .error .undefined

theorem outcome_dataFrames (fs : List Frame) (p : Partial) :
    Delivery.outcome (deliver maxSize client p (dataFrames fs)) =
      Delivery.outcome (deliver maxSize client p fs) := by
  induction fs generalizing p with
  | nil => rfl
  | cons f fs ih =>
    cases hctl : f.opcode.isControl with
    | true =>
      have hskip : dataFrames (f :: fs) = dataFrames fs := by simp [dataFrames, hctl]
      rw [hskip, ih]
      simp only [deliver, hctl, if_true]
    | false =>
      have hkeep : dataFrames (f :: fs) = f :: dataFrames fs := by simp [dataFrames, hctl]
      simp only [hkeep, deliver, hctl, Bool.false_eq_true, if_false]
      cases absorb maxSize client p f with
      | left => rfl
      | undefined => rfl
      | ok p' =>
        simp only
        split
        · rfl
        · exact ih p'

/-- The result of the receiver on data frames. -/
theorem wsRecvMessage_data {fs : List Frame} (hdata : ∀ f ∈ fs, f.opcode.isControl = false)
    {s : Stream} (hc : s.connected = true) (hp : s.pending = encodeAll fs) :
    (wsRecvMessage order maxSize s client).map (·.1) =
      Delivery.outcome (deliver maxSize client .init fs) := by
  have hfuel : fs.length < s.pending.length + 1 := by
    have := length_le_encodeAll fs
    rw [hp]
    omega
  rw [← List.append_nil (encodeAll fs)] at hp
  have hloop := recvLoop_deliver order maxSize client .init hdata hc hp hfuel
  unfold wsRecvMessage
  cases hd : deliver maxSize client .init fs with
  | message m rest =>
    rw [hd] at hloop
    obtain ⟨s', hok, -⟩ := hloop
    rw [hok]
    rfl
  | closed =>
    rw [hd] at hloop
    obtain ⟨s', hok⟩ := hloop rfl
    rw [hok]
    rfl
  | undefined =>
    rw [hd] at hloop
    simp only at hloop
    rw [hloop]
    rfl

/-- With a close frame the stream is closed and nothing returned; otherwise the result is that of
the data frames. -/
structure Settled (closing : Prop) (d : Delivery)
    (r : Except Fault (Option WSFrameMessage × Stream)) : Prop where
  closes : closing → ∃ t, r = .ok (none, t) ∧ t.connected = false
  delivers : ¬ closing → r.map (·.1) = Delivery.outcome d

theorem outcome_eq_none {d : Delivery} : Except.ok none = Delivery.outcome d ↔ d = .closed := by
  cases d <;> simp [Delivery.outcome]

/-- Where the loop is left, only a message to come is missed. -/
theorem settled_left {closing : Prop} {d : Delivery} (t : Stream) :
    Settled closing d (.ok (none, t.close)) ↔ closing ∨ d = .closed := by
  constructor
  · intro h
    by_cases hclosing : closing
    · exact .inl hclosing
    · exact .inr (outcome_eq_none.1 (h.delivers hclosing))
  · intro h
    refine ⟨fun _ => ⟨t.close, rfl, rfl⟩, fun hnot => ?_⟩
    exact outcome_eq_none.2 (h.resolve_left hnot)

theorem settled_message {closing : Prop} (m : WSFrameMessage) (fs : List Frame) (t : Stream) :
    Settled closing (.message m fs) (.ok (some m, t)) ↔ ¬ closing := by
  refine ⟨fun h hclosing => ?_, fun hnot => ⟨fun h => absurd h hnot, fun _ => rfl⟩⟩
  obtain ⟨t', heq, -⟩ := h.closes hclosing
  cases heq

theorem settled_iff_harmless (order : ByteOrder) {fs : List Frame} (closing : Bool) {p : Partial}
    {s : Stream} (hc : s.connected = true) (hp : s.pending = encodeAll fs) {fuel : ℕ}
    (hfuel : fs.length < fuel) :
    (InSync order maxSize client p s fs ∧
      Settled (closing = true ∨ MeetsClose maxSize client p fs) (deliver maxSize client p fs)
        (recvLoop order maxSize client fuel p s)) ↔
    Harmless maxSize client closing s.accepts p fs := by
  induction fs generalizing closing p s fuel with
  | nil =>
    obtain ⟨n, rfl⟩ : ∃ n, fuel = n + 1 := ⟨fuel - 1, by omega⟩
    obtain ⟨t, hexit⟩ := recvIteration_end order maxSize client p hp
    simp only [InSync, recvLoop, hexit, settled_left, deliver, Harmless, or_true, and_self]
  | cons f fs ih =>
    obtain ⟨n, rfl⟩ : ∃ n, fuel = n + 1 := ⟨fuel - 1, by omega⟩
    have hn : fs.length < n := by
      simp only [List.length_cons] at hfuel
      omega
    change s.pending = f.encode ++ encodeAll fs at hp
    cases hctl : f.opcode.isControl with
    | true =>
      rw [encode_control hctl, List.append_assoc] at hp
      have hpass := recvIteration_control order maxSize client p hctl hc hp
      simp only [InSync, MeetsClose, deliver, Harmless, recvLoop, hctl, if_true]
      cases hans : answer s.accepts f with
      | none =>
        rw [hans] at hpass
        obtain ⟨t, hexit⟩ := hpass
        have hping : f.opcode ≠ .close := by
          intro hclose
          simp [answer, hclose] at hans
        simp only [hexit, settled_left, hping, false_or, true_and, or_assoc]
      | some rest =>
        rw [hans] at hpass
        obtain ⟨t, hopen, haccepts, htail, hagain⟩ := hpass
        simp only [hagain]
        by_cases hbare : f.key = none ∧ f.payload = []
        · have hnil := (rest_eq_nil_iff f).2 hbare
          rw [hnil, List.nil_append] at htail
          have hrest := ih (closing || decide (f.opcode = .close)) (p := p) hopen htail hn
          simp only [Bool.or_eq_true, decide_eq_true_eq, or_assoc, haccepts] at hrest
          simp only [htail, hbare.1, hbare.2, true_and, hrest]
        · have hne : t.pending ≠ encodeAll fs := by
            intro heq
            rw [htail] at heq
            exact hbare ((rest_eq_nil_iff f).1 (List.append_left_eq_self.1 heq))
          constructor
          · exact fun h => absurd h.1.1 hne
          · exact fun h => absurd ⟨h.1, h.2.1⟩ hbare
    | false =>
      have hpass := recvIteration_data order maxSize client p hctl hc hp
      simp only [InSync, MeetsClose, deliver, Harmless, recvLoop, hctl, Bool.false_eq_true,
        if_false]
      cases ha : absorb maxSize client p f with
      | left =>
        rw [ha] at hpass
        obtain ⟨t, hexit⟩ := hpass
        simp only [hexit, settled_left, or_true, and_self]
      | undefined =>
        rw [ha] at hpass
        simp only at hpass
        simp only [hpass, false_and]
      | ok p' =>
        rw [ha] at hpass
        obtain ⟨segs, htail, hpass⟩ := hpass
        cases hfin : f.fin with
        | true =>
          rw [hfin, if_pos rfl] at hpass
          simp [hpass, settled_message]
        | false =>
          rw [hfin, if_neg (by simp)] at hpass
          simp only [hpass, htail, Bool.false_eq_true, if_false, true_and]
          exact ih closing (s := s.arrived segs) hc htail hn

/-- On a stream of frames the receiver stays in step, closes the stream for a close frame and
returns otherwise what the data frames alone give, exactly when the control frames up to the end
of the message have neither key nor payload, none of them is a close with a message behind it,
their answers are taken and the message does not outgrow `int`. -/
theorem frame_sync_iff (order : ByteOrder) (maxSize : UInt32) (client : Bool) {fs : List Frame}
    {s : Stream} (hc : s.connected = true) (hp : s.pending = encodeAll fs) :
    (InSync order maxSize client .init s fs ∧
      (MeetsClose maxSize client .init fs →
        ∃ t, wsRecvMessage order maxSize s client = .ok (none, t) ∧ t.connected = false) ∧
      (¬ MeetsClose maxSize client .init fs → ∀ s' : Stream, s'.connected = true →
        s'.pending = encodeAll (dataFrames fs) →
          (wsRecvMessage order maxSize s client).map (·.1) =
            (wsRecvMessage order maxSize s' client).map (·.1))) ↔
    Harmless maxSize client false s.accepts .init fs := by
  have hfuel : fs.length < s.pending.length + 1 := by
    have := length_le_encodeAll fs
    rw [hp]
    omega
  have hdata : ∀ f ∈ dataFrames fs, f.opcode.isControl = false := by
    intro f hf
    simpa using (List.mem_filter.1 hf).2
  rw [← settled_iff_harmless order false hc hp hfuel]
  constructor
  · rintro ⟨hsync, hcloses, hdelivers⟩
    refine ⟨hsync, fun h => hcloses (h.resolve_left (by simp)), fun hnot => ?_⟩
    obtain ⟨s', hc', hp'⟩ := exists_stream (encodeAll (dataFrames fs))
    have hresult := hdelivers (fun h => hnot (.inr h)) s' hc' hp'
    rw [wsRecvMessage_data hdata hc' hp', outcome_dataFrames] at hresult
    exact hresult
  · rintro ⟨hsync, hsettled⟩
    refine ⟨hsync, fun h => hsettled.closes (.inr h), fun hnot s' hc' hp' => ?_⟩
    rw [wsRecvMessage_data hdata hc' hp', outcome_dataFrames]
    exact hsettled.delivers (by simp [hnot])

/-- Under a limit of at most `2 ^ 31` bytes the counter of the receiver does not wrap around. -/
theorem absorb_counter (hmax : maxSize.toNat ≤ 2 ^ 31) {p : Partial}
    (hcur : 0 ≤ p.curLen ∧ p.curLen < 2 ^ 31) (f : Frame) :
    absorb maxSize client p f ≠ .undefined ∧
      ∀ p', absorb maxSize client p f = .ok p' → 0 ≤ p'.curLen ∧ p'.curLen < 2 ^ 31 := by
  have hfits := f.fits
  by_cases hover : maxSize.toNat ≤ ((p.curLen + f.payload.length) % 2 ^ 64).toNat
  · have hleft : absorb maxSize client p f = .left := by
      simp only [absorb, hover, if_true, ite_self]
    rw [hleft]
    exact ⟨by simp, fun p' h => by cases h⟩
  · have hsum : p.curLen + f.payload.length < 2 ^ 31 := by omega
    have hnonneg : ¬ p.curLen < 0 := by omega
    have hbound : ¬ (f.key.isSome && decide (2 ^ 31 < p.curLen + f.payload.length)) = true := by
      simp only [Bool.and_eq_true, decide_eq_true_eq, not_and]
      omega
    have hint : toInt (p.curLen + f.payload.length) = p.curLen + f.payload.length := by
      apply Int.bmod_eq_of_le <;> omega
    simp only [absorb, hover, hnonneg, hbound, if_false]
    split
    · exact ⟨by simp, fun p' h => by cases h⟩
    · split
      · exact ⟨by simp, fun p' h => by cases h⟩
      · refine ⟨by simp, ?_⟩
        intro p' h
        have hnext : p'.curLen = p.curLen + f.payload.length := by
          rw [← Absorbed.ok.inj h, hint]
        omega

/-- Only a limit above `2 ^ 31` bytes lets the receiver count beyond `int`. -/
theorem deliver_ne_undefined (hmax : maxSize.toNat ≤ 2 ^ 31) {p : Partial}
    (hcur : 0 ≤ p.curLen ∧ p.curLen < 2 ^ 31) (fs : List Frame) :
    deliver maxSize client p fs ≠ .undefined := by
  induction fs generalizing p with
  | nil => simp [deliver]
  | cons f fs ih =>
    cases hctl : f.opcode.isControl with
    | true =>
      simp only [deliver, hctl, if_true]
      exact ih hcur
    | false =>
      obtain ⟨hdefined, hnext⟩ := absorb_counter hmax hcur f
      simp only [deliver, hctl, Bool.false_eq_true, if_false]
      cases ha : absorb maxSize client p f with
      | left => simp
      | undefined => exact absurd ha hdefined
      | ok p' =>
        simp only
        split
        · simp
        · exact ih (hnext p' ha)

/-- A final frame without key and payload. -/
def bare (o : Opcode) : Frame := ⟨true, o, none, [], by decide, fun _ => by decide⟩

theorem encode_bare (o : Opcode) : (bare o).encode = (controlHead o.code).toBytes := by
  cases o <;> rfl

/-- The control frames that the library itself sends are bare. -/
theorem wsPing_wsPong_bare {s : Stream} (hs : Writable s) :
    (∃ rest : List Int32, wsPing s = (2, s.wrote rest (bare .ping).encode)) ∧
      ∃ rest : List Int32, wsPong s = (2, s.wrote rest (bare .pong).encode) := by
  obtain ⟨ping, -, hping⟩ := wsControl_spec hs WSFrameHead.PING
  obtain ⟨pong, -, hpong⟩ := wsControl_spec hs WSFrameHead.PONG
  rw [encode_bare, encode_bare]
  exact ⟨⟨ping, hping⟩, pong, hpong⟩

/-- A ping as a client has to send it, masked and without a payload. -/
def maskedPing : Frame := ⟨true, .ping, some ⟨[1, 2, 3, 4], rfl⟩, [], by decide, by decide⟩
def maskedText : Frame := ⟨true, .text, some ⟨[1, 2, 3, 4], rfl⟩, [104], by decide, by decide⟩
def bareText : Frame := ⟨true, .text, none, [104], by decide, by decide⟩

/-- A client gets a ping between two reads of its message. -/
theorem frame_sync_bare_ping :
    InSync .little 1024 true .init
        ⟨true, [⟨encodeAll [bare .ping, bareText], by decide⟩], ⟨0, by decide⟩, [], []⟩
        [bare .ping, bareText] ∧
      ∀ s' : Stream, s'.connected = true → s'.pending = encodeAll [bareText] →
        (wsRecvMessage .little 1024
          ⟨true, [⟨encodeAll [bare .ping, bareText], by decide⟩], ⟨0, by decide⟩, [], []⟩
          true).map (·.1) = (wsRecvMessage .little 1024 s' true).map (·.1) := by
  have hp : (⟨true, [⟨encodeAll [bare .ping, bareText], by decide⟩], ⟨0, by decide⟩, [], []⟩ :
      Stream).pending = encodeAll [bare .ping, bareText] := by decide
  have hsync := (frame_sync_iff .little 1024 true rfl hp).2 ⟨rfl, rfl, rfl⟩
  have hopen : ¬ MeetsClose 1024 true .init [bare .ping, bareText] := by
    rintro (h | ⟨h, -⟩) <;> cases h
  exact ⟨hsync.1, hsync.2.2 hopen⟩

/-- A server that gets a ping takes its masking key for the next head and gives up, where it
would have returned the message that follows; and a client returns the message behind a close. -/
theorem masked_ping_out_of_sync :
    ¬ InSync .little 1024 false .init
      ⟨true, [⟨encodeAll [maskedPing, maskedText], by decide⟩], ⟨0, by decide⟩, [], []⟩
      [maskedPing, maskedText] ∧
    (wsRecvMessage .little 1024
      ⟨true, [⟨encodeAll [maskedPing, maskedText], by decide⟩], ⟨0, by decide⟩, [], []⟩
      false).map (·.1) = .ok none ∧
    (wsRecvMessage .little 1024
      ⟨true, [⟨encodeAll [maskedText], by decide⟩], ⟨0, by decide⟩, [], []⟩ false).map (·.1) =
      .ok (some ⟨1, [104]⟩) ∧
    (wsRecvMessage .little 1024
      ⟨true, [⟨encodeAll [bare .close, bareText], by decide⟩], ⟨0, by decide⟩, [], []⟩ true).map
      (·.1) = .ok (some ⟨1, [104]⟩) := by
  refine ⟨fun h => absurd h.1 (by decide), by decide, by decide, by decide⟩

end WebSocketSync
