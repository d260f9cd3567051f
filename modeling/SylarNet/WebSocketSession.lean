import SylarNet.ListOverwrite
import SylarNet.SylarEndian
import SylarNet.SylarStream

/-!
# WebSocket messages over a stream

`WSSendMessage`, `WSRecvMessage`, `WSPing` and `WSPong`. The byte order of the host and the
value of `rand()` are parameters. One pass of the loop of `WSRecvMessage` is a function of its
own; leaving the loop by `break` closes the stream.
-/
namespace WebSocketSession

open HostWords SylarEndian SylarStream

/-- Two bytes: opcode, `rsv3`, `rsv2`, `rsv1`, `fin` and then payload, `mask`, each byte from
its lowest bit on. -/
structure WSFrameHead where
  opcode : BitVec 4
  rsv3 : Bool
  rsv2 : Bool
  rsv1 : Bool
  fin : Bool
  payload : BitVec 7
  mask : Bool
  deriving DecidableEq, Repr

namespace WSFrameHead

def CONTINUE : BitVec 4 := 0
def TEXT_FRAME : BitVec 4 := 1
def BIN_FRAME : BitVec 4 := 2
def CLOSE : BitVec 4 := 8
def PING : BitVec 4 := 9
def PONG : BitVec 4 := 10

/-- After `memset` to zero. -/
def zero : WSFrameHead := ⟨0, false, false, false, false, 0, false⟩

def toBytes (h : WSFrameHead) : List UInt8 :=
  [UInt8.ofNat (h.opcode.toNat + 16 * h.rsv3.toNat + 32 * h.rsv2.toNat + 64 * h.rsv1.toNat +
      128 * h.fin.toNat),
    UInt8.ofNat (h.payload.toNat + 128 * h.mask.toNat)]

def ofBytes (bytes : List UInt8) : WSFrameHead :=
  let a := (bytes.getD 0 0).toNat
  let b := (bytes.getD 1 0).toNat
  ⟨BitVec.ofNat 4 a, a / 16 % 2 = 1, a / 32 % 2 = 1, a / 64 % 2 = 1, a / 128 % 2 = 1,
    BitVec.ofNat 7 b, b / 128 % 2 = 1⟩

end WSFrameHead

structure WSFrameMessage where
  opcode : ℤ
  data : List UInt8
  deriving DecidableEq, Repr

/-- `data[i] ^= mask[i % 4]` for every `i`. -/
def applyMask (mask data : List UInt8) : List UInt8 :=
  data.mapIdx fun i b => b ^^^ mask.getD (i % 4) 0

/-- `if(stream->writeFixSize(..) <= 0) break;` -/
def attempt (s : Stream) (bytes : List UInt8) : Except Stream Stream :=
  let (r, s) := s.writeFixSize bytes
  if r ≤ 0 then .error s else .ok s

def attemptLength (order : ByteOrder) (payload size : ℕ) (s : Stream) : Except Stream Stream :=
  if payload = 126 then attempt s (store order 2 (byteswapOnLittleEndian order 2 size))
  else if payload = 127 then attempt s (store order 8 (byteswapOnLittleEndian order 8 size))
  else .ok s

def attemptMask (client : Bool) (mask : List UInt8) (s : Stream) : Except Stream Stream :=
  if client then attempt s mask else .ok s

/-- The seven bits for the length, which 126 and 127 replace by a word behind the head. -/
def payloadBits (size : ℕ) : ℕ := if size < 126 then size else if size < 65536 then 126 else 127

def messageHead (msg : WSFrameMessage) (client fin : Bool) : WSFrameHead :=
  { WSFrameHead.zero with
    fin := fin
    opcode := BitVec.ofInt 4 msg.opcode
    mask := client
    payload := BitVec.ofNat 7 (payloadBits msg.data.length) }

/-- Also returns the message, whose data a client masks in place. -/
def wsSendMessage (order : ByteOrder) (rand : UInt32) (s : Stream) (msg : WSFrameMessage)
    (client fin : Bool) : ℤ × WSFrameMessage × Stream :=
  let size := msg.data.length
  let header : Except Stream Stream := do
    let s ← attempt s (messageHead msg client fin).toBytes
    attemptLength order (payloadBits size) size s
  match header with
  | .error s => (-1, msg, s.close)
  | .ok s =>
    let mask := store order 4 rand.toNat
    let msg := if client then { msg with data := applyMask mask msg.data } else msg
    let body : Except Stream Stream := do
      let s ← attemptMask client mask s
      attempt s msg.data
    match body with
    | .error s => (-1, msg, s.close)
    | .ok s => (Stream.toInt (size + 2), msg, s)

def controlHead (opcode : BitVec 4) : WSFrameHead :=
  { WSFrameHead.zero with fin := true, opcode := opcode }

/-- `WSPing` and `WSPong` write a final head with their opcode and nothing else. -/
def wsControl (opcode : BitVec 4) (s : Stream) : ℤ × Stream :=
  let (v, s) := s.writeFixSize (controlHead opcode).toBytes
  if v ≤ 0 then (v, s.close) else (v, s)

def wsPing (s : Stream) : ℤ × Stream := wsControl WSFrameHead.PING s
def wsPong (s : Stream) : ℤ × Stream := wsControl WSFrameHead.PONG s

/-- The variables of the loop of `WSRecvMessage`. -/
structure Partial where
  opcode : ℤ
  data : List UInt8
  curLen : ℤ
  deriving DecidableEq, Repr

def Partial.init : Partial := ⟨0, [], 0⟩

/-- How the loop is left without a message: by `break`, or by undefined behaviour. -/
inductive Exit where
  | left (s : Stream)
  | undefined

/-- `if(stream->readFixSize(..) <= 0) break;` -/
def fetch (s : Stream) (length : ℕ) : Except Exit (List UInt8 × Stream) :=
  let (r, bytes, s) := s.readFixSize length
  if r ≤ 0 then .error (.left s) else .ok (bytes, s)

def fetchLength (order : ByteOrder) (head : WSFrameHead) (s : Stream) :
    Except Exit (ℕ × Stream) :=
  if head.payload = 126 then do
    let (bytes, s) ← fetch s 2
    .ok (byteswapOnLittleEndian order 2 (load order bytes), s)
  else if head.payload = 127 then do
    let (bytes, s) ← fetch s 8
    .ok (byteswapOnLittleEndian order 8 (load order bytes), s)
  else .ok (head.payload.toNat, s)

/-- `char mask[4] = {0}`, read only if the head announces it. -/
def fetchMask (head : WSFrameHead) (s : Stream) : Except Exit (List UInt8 × Stream) :=
  if head.mask then fetch s 4 else .ok ([0, 0, 0, 0], s)

/-- The branch of the loop for data frames. `cur_len + length` is computed in `uint64_t`, but
`cur_len + i`, with which the loop that unmasks indexes, in `int`; and `&data[cur_len]` is no
place in the data once `cur_len` has wrapped around. -/
def recvData (order : ByteOrder) (maxSize : UInt32) (client : Bool) (head : WSFrameHead)
    (p : Partial) (s : Stream) : Except Exit (Partial × Stream) :=
  if !client && !head.mask then .error (.left s)
  else do
    let (length, s) ← fetchLength order head s
    let total := ((p.curLen + length) % 2 ^ 64).toNat
    if maxSize.toNat ≤ total then .error (.left s)
    else
      let (mask, s) ← fetchMask head s
      let resized := p.data.take total ++ List.replicate (total - p.data.length) 0
      if p.curLen < 0 then .error .undefined
      else
      let (bytes, s) ← fetch s length
      if head.mask && 2 ^ 31 < p.curLen + length then .error .undefined
      else
        let bytes := if head.mask then applyMask mask bytes else bytes
        let opcode := if p.opcode = 0 ∧ head.opcode ≠ WSFrameHead.CONTINUE
          then (head.opcode.toNat : ℤ) else p.opcode
        .ok (⟨opcode, ListOverwrite.overwrite resized p.curLen.toNat bytes,
          Stream.toInt (p.curLen + length)⟩, s)

inductive Iteration where
  | again (p : Partial) (s : Stream)
  | message (m : WSFrameMessage) (s : Stream)
  | exit (e : Exit)

/-- One pass of the loop of `WSRecvMessage`. -/
def recvIteration (order : ByteOrder) (maxSize : UInt32) (client : Bool) (p : Partial)
    (s : Stream) : Iteration :=
  match fetch s 2 with
  | .error e => .exit e
  | .ok (bytes, s) =>
    let head := WSFrameHead.ofBytes bytes
    if head.opcode = WSFrameHead.PING then
      let (v, s) := wsPong s
      if v ≤ 0 then .exit (.left s) else .again p s
    else if head.opcode = WSFrameHead.PONG then .again p s
    else if head.opcode = WSFrameHead.CONTINUE ∨ head.opcode = WSFrameHead.TEXT_FRAME ∨
        head.opcode = WSFrameHead.BIN_FRAME then
      match recvData order maxSize client head p s with
      | .error e => .exit e
      | .ok (p, s) => if head.fin then .message ⟨p.opcode, p.data⟩ s else .again p s
    else .again p s

inductive Fault where
  | undefined
  | outOfFuel
  deriving DecidableEq, Repr

def recvLoop (order : ByteOrder) (maxSize : UInt32) (client : Bool) :
    ℕ → Partial → Stream → Except Fault (Option WSFrameMessage × Stream)
  | 0, _, _ => .error .outOfFuel
  | fuel + 1, p, s =>
    match recvIteration order maxSize client p s with
    | .again p s => recvLoop order maxSize client fuel p s
    | .message m s => .ok (some m, s)
    | .exit (.left s) => .ok (none, s.close)
    | .exit .undefined => .error .undefined

/-- A pass that goes on has read a head, so that there are no more passes than bytes. -/
def wsRecvMessage (order : ByteOrder) (maxSize : UInt32) (s : Stream) (client : Bool) :
    Except Fault (Option WSFrameMessage × Stream) :=
  recvLoop order maxSize client (s.pending.length + 1) .init s

end WebSocketSession
