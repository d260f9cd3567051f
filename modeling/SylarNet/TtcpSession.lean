import SylarNet.Conversations
import SylarNet.HostWords
import SylarNet.StepRuns
import Mathlib.Data.Int.Notation
import Mathlib.Algebra.Group.Int.Defs

/-!
# A ttcp session

`transmit` and `receive` of `1_ttcp/ttcp_blocking.cc` at the two ends of a connection, with the
loops of `Util::WriteFixedBytes` and `Util::ReadFixedBytes`. A party is the program that is left
to run, up to its next system call; the calls are answered by the channels of the connection.
-/
namespace TtcpSession

open Conversations HostWords StepRuns

/-- What is left of a function that returns an `α`. -/
inductive Session (α : Type) where
  /-- Inside `WriteFixedBytes(sockfd, buf, length)`. -/
  | write (buf : List UInt8) (length : ℤ) (written : ℕ) (next : ℕ → Session α)
  /-- Inside `ReadFixedBytes(sockfd, buf, length)`, with what was read so far. -/
  | read (length : ℤ) (buf : List UInt8) (next : List UInt8 → Session α)
  | returned (result : α)
  | exit
  /-- An assertion failed. -/
  | abort

variable {α β : Type}

def Session.bind : Session α → (α → Session β) → Session β
  | .write buf length written next, f => .write buf length written fun nw => (next nw).bind f
  | .read length buf next, f => .read length buf fun bs => (next bs).bind f
  | .returned result, f => f result
  | .exit, _ => .exit
  | .abort, _ => .abort

instance : Monad Session where
  pure := .returned
  bind := Session.bind

/-- The test of the loop. -/
def writeLoop (buf : List UInt8) (length : ℤ) (written : ℕ) (next : ℕ → Session α) : Session α :=
  if written < length then .write buf length written next else next written

def readLoop (length : ℤ) (buf : List UInt8) (next : List UInt8 → Session α) : Session α :=
  if buf.length < length then .read length buf next else next buf

def writeFixedBytes (buf : List UInt8) (length : ℤ) : Session ℕ :=
  writeLoop buf length 0 .returned

/-- Returns the bytes; `nread` is their number. -/
def readFixedBytes (length : ℤ) : Session (List UInt8) := readLoop length [] .returned

def assert (condition : Prop) [Decidable condition] : Session Unit :=
  if condition then pure () else .abort

structure Options where
  length : Int32
  number : Int32
  deriving DecidableEq, Repr

structure SessionMessage where
  number : Int32
  length : Int32
  deriving DecidableEq, Repr

/-- `ntohl` is the same function. -/
def htonl (order : ByteOrder) (v : Int32) : Int32 :=
  match order with
  | .little => (UInt32.ofNat (byteswap 4 v.toUInt32.toNat)).toInt32
  | .big => v

/-- The bytes of an `int32_t`. -/
def bytesOf (order : ByteOrder) (v : Int32) : List UInt8 := store order 4 v.toUInt32.toNat

def ofBytes (order : ByteOrder) (bs : List UInt8) : Int32 :=
  (UInt32.ofNat (load order bs)).toInt32

/-- The struct is packed. -/
def SessionMessage.bytes (order : ByteOrder) (m : SessionMessage) : List UInt8 :=
  bytesOf order m.number ++ bytesOf order m.length

def SessionMessage.ofBytes (order : ByteOrder) (bs : List UInt8) : SessionMessage :=
  ⟨TtcpSession.ofBytes order (bs.take 4), TtcpSession.ofBytes order (bs.drop 4)⟩

/-- `static_cast<int>(sizeof(int32_t) + length)`. -/
def totalLen (length : Int32) : Int32 := Int32.ofInt (4 + length.toInt)

def patternByte (i : ℕ) : UInt8 :=
  UInt8.ofNat ("0123456789ABCDEF".toList.getD (i % 16) '0').toNat

/-- The `data` that `transmit` fills in. -/
def pattern (length : Int32) : List UInt8 := (List.range length.toInt.toNat).map patternByte

/-- The loop of `transmit`; what it returns are the acks that it read. -/
def transmitLoop (order : ByteOrder) (opt : Options) (payload : List UInt8) :
    ℕ → List Int32 → Session (List Int32)
  | 0, acks => pure acks
  | left + 1, acks => do
    let nw ← writeFixedBytes payload (totalLen opt.length).toInt
    assert (nw = (totalLen opt.length).toInt)
    let bs ← readFixedBytes 4
    assert (bs.length = 4)
    let ack := htonl order (ofBytes order bs)
    assert (ack = opt.length)
    transmitLoop order opt payload left (acks ++ [ack])

def transmit (order : ByteOrder) (opt : Options) : Session (List Int32) := do
  let sessionMsg : SessionMessage := ⟨htonl order opt.number, htonl order opt.length⟩
  let nw ← writeFixedBytes (sessionMsg.bytes order) 8
  if nw ≠ 8 then .exit
  else
    let payload := bytesOf order (htonl order opt.length) ++ pattern opt.length
    transmitLoop order opt payload opt.number.toInt.toNat []

/-- The loop of `receive`; what it returns are the payloads that it read. -/
def receiveLoop (order : ByteOrder) (sessionMsg : SessionMessage) :
    ℕ → List (List UInt8) → Session (List (List UInt8))
  | 0, payloads => pure payloads
  | left + 1, payloads => do
    let bs ← readFixedBytes 4
    if bs.length ≠ 4 then .exit
    else
      let payloadLength := htonl order (ofBytes order bs)
      assert (payloadLength = sessionMsg.length)
      let data ← readFixedBytes payloadLength.toInt
      if (data.length : ℤ) ≠ payloadLength.toInt then .exit
      else
        let nw ← writeFixedBytes (bytesOf order (htonl order payloadLength)) 4
        if nw ≠ 4 then .exit
        else receiveLoop order sessionMsg left (payloads ++ [data])

def receive (order : ByteOrder) : Session (List (List UInt8)) := do
  let bs ← readFixedBytes 8
  if bs.length ≠ 8 then .exit
  else
    let message := SessionMessage.ofBytes order bs
    let sessionMsg : SessionMessage := ⟨htonl order message.number, htonl order message.length⟩
    receiveLoop order sessionMsg sessionMsg.number.toInt.toNat []

/-- How a `read` or a `write` ends. -/
inductive Result where
  | moved (n : ℕ)
  | zero
  | interrupted
  | failed
  deriving DecidableEq, Repr

/-- `close(sockfd)` is the last call of both functions; leaving the process closes too. -/
def Session.closed : Session α → Bool
  | .returned _ | .exit | .abort => true
  | .write .. | .read .. => false

/-- The pending system call of a party, with what it put into its channel and what it left in
the other. A call can be interrupted, or move any positive part of what it is asked to move. Only
when the other end is closed does a `write` fail, or a `read` of the empty channel return zero. -/
def call (closed : Bool) (inn : List UInt8) :
    Session α → Result → Option (Session α × List UInt8 × List UInt8)
  | .write buf length written next, .moved nw =>
    if 0 < nw ∧ nw ≤ length - written then
      some (writeLoop buf length (written + nw) next, (buf.drop written).take nw, inn)
    else none
  | .write buf length written next, .interrupted =>
    some (writeLoop buf length written next, [], inn)
  | .write _ _ written next, .failed => if closed then some (next written, [], inn) else none
  | .read length buf next, .moved nr =>
    if 0 < nr ∧ nr ≤ length - buf.length ∧ nr ≤ inn.length then
      some (readLoop length (buf ++ inn.take nr) next, [], inn.drop nr)
    else none
  | .read length buf next, .interrupted => some (readLoop length buf next, [], inn)
  | .read _ buf next, .zero =>
    if closed = true ∧ inn = [] then some (next buf, [], inn) else none
  | _, _ => none

structure Connection where
  transmitter : Session (List Int32)
  receiver : Session (List (List UInt8))
  toReceiver : List UInt8
  toTransmitter : List UInt8

/-- The machines at the two ends may differ in their byte order. -/
def connect (here there : ByteOrder) (opt : Options) : Connection :=
  ⟨transmit here opt, receive there, [], []⟩

/-- The transmitter is on the left. -/
def step (c : Connection) : Side × Result → Option (List UInt8 × Connection)
  | (.left, r) =>
    (call c.receiver.closed c.toTransmitter c.transmitter r).map fun o =>
      (o.2.1, { c with
        transmitter := o.1
        toReceiver := c.toReceiver ++ o.2.1
        toTransmitter := o.2.2 })
  | (.right, r) =>
    (call c.transmitter.closed c.toReceiver c.receiver r).map fun o =>
      (o.2.1, { c with
        receiver := o.1
        toTransmitter := c.toTransmitter ++ o.2.1
        toReceiver := o.2.2 })

/-- The program keeps to what is left of the conversation, and returns `result` at its end. -/
inductive Follows (me you : Side) (result : α) : Session α → Script UInt8 → Prop where
  | returned : Follows me you result (.returned result) []
  | write {buf : List UInt8} {written : ℕ} {next : ℕ → Session α} {rest : Script UInt8}
      (hlt : written < buf.length) (hnext : Follows me you result (next buf.length) rest) :
      Follows me you result (.write buf buf.length written next)
        (speech me (buf.drop written) ++ rest)
  | read {length : ℕ} {buf missing : List UInt8} {next : List UInt8 → Session α}
      {rest : Script UInt8} (hmissing : missing ≠ [])
      (hlength : buf.length + missing.length = length)
      (hnext : Follows me you result (next (buf ++ missing)) rest) :
      Follows me you result (.read length buf next) (speech you missing ++ rest)

variable {me you : Side} {result : α}

theorem Follows.writeLoop {buf : List UInt8} {written : ℕ} {next : ℕ → Session α}
    {rest : Script UInt8} (hle : written ≤ buf.length)
    (hnext : Follows me you result (next buf.length) rest) :
    Follows me you result (writeLoop buf buf.length written next)
      (speech me (buf.drop written) ++ rest) := by
  rcases Nat.lt_or_eq_of_le hle with hlt | heq
  · rw [TtcpSession.writeLoop, if_pos (by exact_mod_cast hlt)]
    exact .write hlt hnext
  · rw [TtcpSession.writeLoop, if_neg (by omega), heq, List.drop_length]
    exact hnext

theorem Follows.readLoop {length : ℕ} {buf missing : List UInt8} {next : List UInt8 → Session α}
    {rest : Script UInt8} (hlength : buf.length + missing.length = length)
    (hnext : Follows me you result (next (buf ++ missing)) rest) :
    Follows me you result (readLoop length buf next) (speech you missing ++ rest) := by
  by_cases hmissing : missing = []
  · subst hmissing
    rw [List.append_nil] at hnext
    rw [TtcpSession.readLoop, if_neg (by simp only [List.length_nil] at hlength; omega)]
    exact hnext
  · have hpos := List.length_pos_iff.2 hmissing
    rw [TtcpSession.readLoop, if_pos (by omega)]
    exact .read hmissing hlength hnext

theorem writeFixedBytes_bind (buf : List UInt8) (length : ℤ) (f : ℕ → Session α) :
    (writeFixedBytes buf length >>= f) = writeLoop buf length 0 f := by
  simp only [writeFixedBytes, writeLoop]
  split <;> rfl

theorem readFixedBytes_bind (length : ℤ) (f : List UInt8 → Session α) :
    (readFixedBytes length >>= f) = readLoop length [] f := by
  simp only [readFixedBytes, readLoop]
  split <;> rfl

theorem Follows.writeFixedBytes {buf : List UInt8} {length : ℤ} {f : ℕ → Session α}
    {rest : Script UInt8} (hlength : length = buf.length)
    (hf : Follows me you result (f buf.length) rest) :
    Follows me you result (writeFixedBytes buf length >>= f) (speech me buf ++ rest) := by
  rw [writeFixedBytes_bind, hlength]
  exact Follows.writeLoop (Nat.zero_le _) hf

theorem Follows.readFixedBytes {words : List UInt8} {length : ℤ} {f : List UInt8 → Session α}
    {rest : Script UInt8} (hlength : length = words.length)
    (hf : Follows me you result (f words) rest) :
    Follows me you result (readFixedBytes length >>= f) (speech you words ++ rest) := by
  rw [readFixedBytes_bind, hlength]
  exact Follows.readLoop (by simp) hf

theorem assert_bind {condition : Prop} [Decidable condition] (h : condition)
    (f : Unit → Session α) : (assert condition >>= f) = f () := by
  rw [assert, if_pos h]
  rfl

/-- A party that is through has nothing left to say or to hear. -/
theorem Follows.closed {p : Session α} {script : Script UInt8}
    (h : Follows me you result p script) (hclosed : p.closed = true) : script = [] := by
  cases h with
  | returned => rfl
  | write => cases hclosed
  | read => cases hclosed

/-- What one system call does to a party that keeps to the conversation. -/
theorem Follows.after_call {p q : Session α} {mine yours : Script UInt8} {closed : Bool}
    {out said inn left : List UInt8} {r : Result} (h : Follows me you result p mine)
    (hside : me ≠ you) (hs : InStep me you mine yours out inn)
    (hclosed : closed = true → yours = [])
    (hcall : call closed inn p r = some (q, said, left)) :
    ∃ mine', Follows me you result q mine' ∧ InStep me you mine' yours (out ++ said) left := by
  cases h with
  | returned => cases r <;> cases hcall
  | @write buf written next rest hlt hnext =>
    cases r with
    | moved nw =>
      simp only [call] at hcall
      split at hcall
      · rename_i hnw
        cases hcall
        have hsplit : buf.drop written
            = (buf.drop written).take nw ++ buf.drop (written + nw) := by
          rw [← List.drop_drop, List.take_append_drop]
        rw [hsplit, speech_append, List.append_assoc] at hs
        exact ⟨_, Follows.writeLoop (by omega) hnext, hs.say hside⟩
      · cases hcall
    | zero => cases hcall
    | interrupted =>
      cases hcall
      rw [List.append_nil]
      exact ⟨_, Follows.writeLoop hlt.le hnext, hs⟩
    | failed =>
      simp only [call] at hcall
      split at hcall
      · rename_i hc
        rw [hclosed hc] at hs
        rw [List.drop_eq_getElem_cons hlt] at hs
        exact absurd hs (InStep.listened hside)
      · cases hcall
  | @read length buf missing next rest hmissing hlength hnext =>
    cases r with
    | moved nr =>
      simp only [call] at hcall
      split at hcall
      · rename_i hnr
        cases hcall
        obtain ⟨hpos, hle, hinn⟩ := hnr
        have htake : (inn.take nr).length = nr := List.length_take_of_le hinn
        rw [← List.take_append_drop nr inn] at hs
        have hheard := hs.heard (by rw [htake]; omega)
        rw [htake] at hheard
        rw [← List.take_append_drop nr missing, speech_append, List.append_assoc, ← hheard] at hs
        rw [List.append_nil]
        refine ⟨speech you (missing.drop nr) ++ rest, Follows.readLoop ?_ ?_, hs.hear⟩
        · rw [List.length_append, htake, List.length_drop]
          omega
        · rw [hheard, List.append_assoc, List.take_append_drop]
          exact hnext
      · cases hcall
    | zero =>
      simp only [call] at hcall
      split at hcall
      · rename_i hc
        rw [hclosed hc.1] at hs
        obtain ⟨x, xs, rfl⟩ := List.exists_cons_of_ne_nil hmissing
        exact absurd hc.2 hs.awaited
      · cases hcall
    | interrupted =>
      cases hcall
      rw [List.append_nil]
      exact ⟨_, Follows.readLoop hlength hnext, hs⟩
    | failed => cases hcall

/-- Where the two parties are in the conversation, with what they return at its end. -/
def InSession (acks : List Int32) (payloads : List (List UInt8)) (c : Connection) : Prop :=
  ∃ mine yours, Follows .left .right acks c.transmitter mine ∧
    Follows .right .left payloads c.receiver yours ∧
    InStep .left .right mine yours c.toReceiver c.toTransmitter

variable {acks : List Int32} {payloads : List (List UInt8)} {c d : Connection}

theorem InSession.after_step {e : Side × Result} {o : List UInt8} (h : InSession acks payloads c)
    (hstep : step c e = some (o, d)) : InSession acks payloads d := by
  obtain ⟨mine, yours, hleft, hright, hs⟩ := h
  obtain ⟨side, r⟩ := e
  cases side with
  | left =>
    obtain ⟨⟨p, said, inn⟩, hcall, heq⟩ := Option.map_eq_some_iff.1 hstep
    cases heq
    obtain ⟨mine', hfollows, hs'⟩ := hleft.after_call (by decide) hs hright.closed hcall
    exact ⟨mine', yours, hfollows, hright, hs'⟩
  | right =>
    obtain ⟨⟨p, said, inn⟩, hcall, heq⟩ := Option.map_eq_some_iff.1 hstep
    cases heq
    obtain ⟨yours', hfollows, hs'⟩ := hright.after_call (by decide) hs.symm hleft.closed hcall
    exact ⟨mine, yours', hleft, hfollows, hs'.symm⟩

/-- A value in the byte order of the network. -/
def wire (v : Int32) : List UInt8 := toBig 4 v.toUInt32.toNat

@[simp] theorem length_wire (v : Int32) : (wire v).length = 4 := length_toBig 4 _

theorem bytesOf_htonl (order : ByteOrder) (v : Int32) : bytesOf order (htonl order v) = wire v := by
  cases order with
  | little =>
    have hlt : byteswap 4 v.toUInt32.toNat < 2 ^ 32 := by
      have h := ofLittle_lt (toBig 4 v.toUInt32.toNat)
      rwa [length_toBig] at h
    simp only [bytesOf, htonl, UInt32.toUInt32_toInt32, UInt32.toNat_ofNat_of_lt' hlt]
    exact toLittle_byteswap 4 _
  | big => rfl

theorem htonl_ofBytes (order : ByteOrder) (v : Int32) :
    htonl order (ofBytes order (wire v)) = v := by
  have hlt : v.toUInt32.toNat < 256 ^ 4 := v.toUInt32.toNat_lt
  cases order with
  | little =>
    have hload : ofLittle (wire v) < 2 ^ 32 := by
      have h := ofLittle_lt (wire v)
      rwa [length_wire] at h
    have hswap : byteswap 4 (ofLittle (wire v)) = v.toUInt32.toNat := by
      have h := byteswap_ofLittle (wire v)
      rw [length_wire] at h
      rw [h, wire, ofLittle_reverse_toBig hlt]
    simp only [htonl, ofBytes, load, UInt32.toUInt32_toInt32, UInt32.toNat_ofNat_of_lt' hload,
      hswap, UInt32.ofNat_toNat, Int32.toInt32_toUInt32]
  | big =>
    simp only [htonl, ofBytes, load, wire, ofLittle_reverse_toBig hlt, UInt32.ofNat_toNat,
      Int32.toInt32_toUInt32]

@[simp] theorem length_pattern (length : Int32) :
    (pattern length).length = length.toInt.toNat := by
  simp [pattern]

theorem toInt_totalLen {length : Int32} (h : 0 ≤ length) (hmax : length.toInt ≤ 2 ^ 31 - 5) :
    (totalLen length).toInt = 4 + length.toInt := by
  have hpos := Int32.le_iff_toInt_le.1 h
  have hzero : (0 : Int32).toInt = 0 := rfl
  exact Int32.toInt_ofInt_of_le (by omega) (by omega)

/-- What the two parties say to each other in `left` passes of their loops. -/
def rounds (length : Int32) : ℕ → Script UInt8
  | 0 => []
  | left + 1 => speech .left (wire length) ++ (speech .left (pattern length) ++
      (speech .right (wire length) ++ rounds length left))

def conversation (opt : Options) : Script UInt8 :=
  speech .left (wire opt.number ++ wire opt.length) ++ rounds opt.length opt.number.toInt.toNat

section Follows

variable (here there : ByteOrder) {opt : Options} (hl : 0 ≤ opt.length)
  (hmax : opt.length.toInt ≤ 2 ^ 31 - 5)

include hl hmax

theorem transmitLoop_follows (left : ℕ) (acks : List Int32) :
    Follows .left .right (acks ++ List.replicate left opt.length)
      (transmitLoop here opt (wire opt.length ++ pattern opt.length) left acks)
      (rounds opt.length left) := by
  induction left generalizing acks with
  | zero =>
    rw [List.replicate_zero, List.append_nil]
    exact .returned
  | succ left ih =>
    have hpos := Int32.le_iff_toInt_le.1 hl
    have hzero : (0 : Int32).toInt = 0 := rfl
    have htotal := toInt_totalLen hl hmax
    have hbuf : (totalLen opt.length).toInt = (wire opt.length ++ pattern opt.length).length := by
      rw [htotal, List.length_append, length_wire, length_pattern]
      omega
    rw [rounds, ← List.append_assoc, ← speech_append]
    apply Follows.writeFixedBytes hbuf
    rw [assert_bind hbuf.symm]
    apply Follows.readFixedBytes (by rw [length_wire]; rfl)
    rw [assert_bind (length_wire _), htonl_ofBytes, assert_bind rfl]
    rw [List.replicate_succ, List.append_cons]
    exact ih (acks ++ [opt.length])

theorem transmit_follows : Follows .left .right
    (List.replicate opt.number.toInt.toNat opt.length) (transmit here opt) (conversation opt) := by
  have hlength : (wire opt.number ++ wire opt.length).length = 8 := by
    rw [List.length_append, length_wire, length_wire]
  simp only [transmit, SessionMessage.bytes, bytesOf_htonl, conversation]
  apply Follows.writeFixedBytes (by rw [hlength]; rfl)
  rw [if_neg (not_not.2 hlength)]
  exact transmitLoop_follows here hl hmax _ []

omit hmax in
theorem receiveLoop_follows (number : Int32) (left : ℕ) (payloads : List (List UInt8)) :
    Follows .right .left (payloads ++ List.replicate left (pattern opt.length))
      (receiveLoop there ⟨number, opt.length⟩ left payloads) (rounds opt.length left) := by
  induction left generalizing payloads with
  | zero =>
    rw [List.replicate_zero, List.append_nil]
    exact .returned
  | succ left ih =>
    have hpos := Int32.le_iff_toInt_le.1 hl
    have hzero : (0 : Int32).toInt = 0 := rfl
    have hdata : opt.length.toInt = (pattern opt.length).length := by
      rw [length_pattern]
      omega
    apply Follows.readFixedBytes (by rw [length_wire]; rfl)
    simp only [htonl_ofBytes, bytesOf_htonl]
    rw [if_neg (not_not.2 (length_wire _)), assert_bind trivial]
    apply Follows.readFixedBytes hdata
    rw [if_neg (not_not.2 hdata.symm)]
    apply Follows.writeFixedBytes (by rw [length_wire]; rfl)
    rw [if_neg (not_not.2 (length_wire _))]
    rw [List.replicate_succ, List.append_cons]
    exact ih (payloads ++ [pattern opt.length])

omit hmax in
theorem receive_follows : Follows .right .left
    (List.replicate opt.number.toInt.toNat (pattern opt.length)) (receive there)
    (conversation opt) := by
  have hlength : (wire opt.number ++ wire opt.length).length = 8 := by
    rw [List.length_append, length_wire, length_wire]
  apply Follows.readFixedBytes (by rw [hlength]; rfl)
  rw [if_neg (not_not.2 hlength)]
  simp only [SessionMessage.ofBytes, List.take_left' (length_wire _),
    List.drop_left' (length_wire _), htonl_ofBytes]
  exact receiveLoop_follows there hl opt.number _ []

theorem inSession_connect : InSession (List.replicate opt.number.toInt.toNat opt.length)
    (List.replicate opt.number.toInt.toNat (pattern opt.length)) (connect here there opt) :=
  ⟨conversation opt, conversation opt, transmit_follows here hl hmax, receive_follows there hl,
    .ahead (conversation opt) []⟩

end Follows

/-- Neither an assertion nor an `exit(1)` is reached. -/
def Session.Sound : Session α → Prop
  | .abort | .exit => False
  | _ => True

theorem Follows.sound {p : Session α} {script : Script UInt8}
    (h : Follows me you result p script) : p.Sound := by
  cases h <;> trivial

def Session.Reads : Session α → Prop
  | .read .. => True
  | _ => False

/-- Both parties wait to read, and nothing is on its way to either. -/
def Connection.MutualWait (c : Connection) : Prop :=
  c.transmitter.Reads ∧ c.receiver.Reads ∧ c.toReceiver = [] ∧ c.toTransmitter = []

theorem Follows.hears {p : Session α} {script : Script UInt8}
    (h : Follows me you result p script) (hreads : p.Reads) :
    ∃ x xs rest, script = speech you (x :: xs) ++ rest := by
  cases h with
  | returned => cases hreads
  | write => cases hreads
  | read hmissing =>
    obtain ⟨x, xs, rfl⟩ := List.exists_cons_of_ne_nil hmissing
    exact ⟨x, xs, _, rfl⟩

theorem InSession.not_mutualWait (h : InSession acks payloads c) : ¬c.MutualWait := by
  rintro ⟨hleft, hright, hthere, hhere⟩
  obtain ⟨mine, yours, hmine, hyours, hs⟩ := h
  obtain ⟨x, xs, rest, rfl⟩ := hmine.hears hleft
  obtain ⟨y, ys, rest', rfl⟩ := hyours.hears hright
  rw [hthere, hhere] at hs
  exact hs.not_both_hear (by decide)

theorem Follows.moves {p : Session α} {script : Script UInt8} {inn : List UInt8} (closed : Bool)
    (h : Follows me you result p script) (hopen : p.closed = false)
    (hinn : p.Reads → inn ≠ []) : ∃ o, call closed inn p (.moved 1) = some o := by
  cases h with
  | returned => cases hopen
  | @write buf written next rest hlt hnext =>
    refine ⟨_, if_pos ⟨Nat.one_pos, ?_⟩⟩
    omega
  | @read length buf missing next rest hmissing hlength hnext =>
    have hpos := List.length_pos_iff.2 hmissing
    have harrived := List.length_pos_iff.2 (hinn trivial)
    refine ⟨_, if_pos ⟨Nat.one_pos, ?_, harrived⟩⟩
    omega

/-- As long as one of the parties is not through, one of them can move a byte. -/
theorem InSession.progress (h : InSession acks payloads c)
    (hopen : c.transmitter.closed = false ∨ c.receiver.closed = false) :
    ∃ side o, step c (side, .moved 1) = some o := by
  have hwait := h.not_mutualWait
  obtain ⟨mine, yours, hmine, hyours, hs⟩ := h
  by_cases hleft : c.transmitter.closed = false ∧ (c.transmitter.Reads → c.toTransmitter ≠ [])
  · obtain ⟨o, hcall⟩ := hmine.moves c.receiver.closed hleft.1 hleft.2
    exact ⟨.left, _, Option.map_eq_some_iff.2 ⟨o, hcall, rfl⟩⟩
  -- the transmitter is through or waits: then it is the receiver's turn
  have hright : c.receiver.closed = false ∧ (c.receiver.Reads → c.toReceiver ≠ []) := by
    rcases Bool.eq_false_or_eq_true c.transmitter.closed with hclosed | hwaits
    · refine ⟨hopen.resolve_left (by rw [hclosed]; decide), ?_⟩
      intro hreads
      obtain ⟨x, xs, rest, rfl⟩ := hyours.hears hreads
      rw [hmine.closed hclosed] at hs
      exact hs.symm.awaited
    · obtain ⟨hreads, hempty⟩ := Classical.not_imp.1 (fun h => hleft ⟨hwaits, h⟩)
      rw [ne_eq, not_not] at hempty
      refine ⟨?_, fun hright harrived => hwait ⟨hreads, hright, harrived, hempty⟩⟩
      rcases Bool.eq_false_or_eq_true c.receiver.closed with hclosed | hopen
      · obtain ⟨x, xs, rest, rfl⟩ := hmine.hears hreads
        rw [hyours.closed hclosed] at hs
        exact absurd hempty hs.awaited
      · exact hopen
  obtain ⟨o, hcall⟩ := hyours.moves c.transmitter.closed hright.1 hright.2
  exact ⟨.right, _, Option.map_eq_some_iff.2 ⟨o, hcall, rfl⟩⟩

/-- In every interleaving of the system calls of the two parties: no assertion fails, neither
waits for the other, and at the end each has read what the other was to send. -/
theorem session_protocol (here there : ByteOrder) (opt : Options) (hl : 0 ≤ opt.length)
    (hmax : opt.length.toInt ≤ 2 ^ 31 - 5) (calls : List (Side × Result))
    (h : ∃ os, run step (connect here there opt) calls = some (os, c)) :
    c.transmitter.Sound ∧ c.receiver.Sound ∧ ¬c.MutualWait ∧
    (c.transmitter.closed = false ∨ c.receiver.closed = false →
      ∃ side o, step c (side, .moved 1) = some o) ∧
    ∀ acks payloads, c.transmitter = .returned acks → c.receiver = .returned payloads →
      payloads = List.replicate opt.number.toInt.toNat (pattern opt.length) ∧
      acks = List.replicate opt.number.toInt.toNat opt.length := by
  obtain ⟨os, hrun⟩ := h
  have hin := run_invariant (fun _ _ _ _ hs _ he => hs.after_step he)
    (inSession_connect here there hl hmax) (guarded_true _ _) hrun
  have hprogress := hin.progress
  have hwait := hin.not_mutualWait
  obtain ⟨mine, yours, hmine, hyours, -⟩ := hin
  refine ⟨hmine.sound, hyours.sound, hwait, hprogress, ?_⟩
  intro acks payloads hacks hpayloads
  rw [hacks] at hmine
  rw [hpayloads] at hyours
  cases hmine
  cases hyours
  exact ⟨rfl, rfl⟩

def oneMessageCalls : List (Side × Result) :=
  [(.left, .moved 3), (.right, .moved 2), (.left, .interrupted), (.left, .moved 5),
    (.right, .moved 6), (.right, .interrupted), (.left, .moved 4), (.right, .moved 4),
    (.left, .moved 1), (.right, .moved 1), (.right, .moved 4), (.left, .moved 4)]

/-- One message of one byte from a little-endian machine to a big-endian one. -/
theorem session_protocol_one_message : ∃ os c,
    run step (connect .little .big ⟨1, 1⟩) oneMessageCalls = some (os, c) ∧
    c.transmitter = .returned [1] ∧ c.receiver = .returned [pattern 1] ∧ ¬c.MutualWait := by
  refine ⟨_, _, rfl, rfl, rfl, ?_⟩
  have h := session_protocol .little .big ⟨1, 1⟩ (by decide) (by decide) oneMessageCalls ⟨_, rfl⟩
  exact h.2.2.1

end TtcpSession
