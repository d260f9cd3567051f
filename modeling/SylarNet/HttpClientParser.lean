import SylarNet.Http11Parser
import SylarNet.HttpClientGrammar

/-!
# The parser of response headers

`httpclient_parser_execute` is built as `http_parser_execute` is. Some of its actions read a
number from the buffer, up to the null byte that has to follow it, and not from the slice that
a callback gets. Its checks do not fail an assertion but return -1.
-/
namespace HttpClientParser

open RagelMachine HttpClientGrammar SylarStream
open Http11Parser (Fault Slice len slice)
open Http11Grammar (between digit xdigit space)

inductive Element where
  | reasonPhrase
  | statusCode
  | chunkSize
  | httpVersion
  | headerDone
  | lastChunk
  deriving DecidableEq, Repr

inductive Callback where
  | element (e : Element) (s : Slice)
  | httpField (field value : Slice)
  deriving DecidableEq, Repr

/-- `httpclient_parser_init` leaves `status` as it is in memory. -/
structure HttpclientParser where
  cs : Option State
  bodyStart : ℕ
  contentLen : ℤ
  status : Option ℤ
  chunked : Bool
  chunksDone : Bool
  close : Bool
  nread : ℕ
  mark : ℕ
  fieldStart : ℕ
  fieldLen : ℕ

def httpclientParserInit (status : Option ℤ) : HttpclientParser :=
  ⟨some State.initial, 0, -1, status, false, false, false, 0, 0, 0, 0⟩

def digitValue (c : UInt8) : ℕ :=
  if digit c then c.toNat - 48 else if between 65 70 c then c.toNat - 55 else c.toNat - 87

def inBase (base : ℕ) (c : UInt8) : Bool := xdigit c && digitValue c < base

/-- `0x` with a digit behind it. -/
def startsHex : List UInt8 → Bool
  | 48 :: x :: d :: _ => (x == 120 || x == 88) && xdigit d
  | _ => false

/-- Of a text that ends with a null byte; the result is that of 64 bits, clamped. -/
def strtol (base : ℕ) (text : List UInt8) : ℤ :=
  let t := text.dropWhile space
  let negative := t.head? = some 45
  let t := if t.head? = some 45 ∨ t.head? = some 43 then t.tail else t
  let t := if base = 16 ∧ startsHex t = true then t.drop 2 else t
  let n : ℤ := (t.takeWhile (inBase base)).foldl (fun n c => base * n + digitValue c) 0
  if negative then max (-n) (-2 ^ 63) else min n (2 ^ 63 - 1)

/-- One action at the byte `fpc` of the buffer. -/
def act (buffer : List UInt8) (fpc : ℕ) (q : HttpclientParser) :
    Action → HttpclientParser × List Callback
  | .mark => ({ q with mark := fpc }, [])
  | .startField => ({ q with fieldStart := fpc }, [])
  | .writeField => ({ q with fieldLen := len q.fieldStart fpc }, [])
  | .startValue => ({ q with mark := fpc }, [])
  | .writeContentLen =>
    ({ q with contentLen := Stream.toInt (strtol 10 (buffer.drop q.mark)) }, [])
  | .writeConnectionClose => ({ q with close := true }, [])
  | .writeValue => (q, [.httpField ⟨q.fieldStart, q.fieldLen⟩ (slice q.mark fpc)])
  | .reasonPhrase => (q, [.element .reasonPhrase (slice q.mark fpc)])
  | .statusCode =>
    ({ q with status := some (Stream.toInt (strtol 10 (buffer.drop q.mark))) },
      [.element .statusCode (slice q.mark fpc)])
  | .httpVersion => (q, [.element .httpVersion (slice q.mark fpc)])
  | .chunkSize =>
    let contentLen := Stream.toInt (strtol 16 (buffer.drop q.mark))
    ({ q with chunked := true, contentLen := contentLen, chunksDone := contentLen ≤ 0 },
      [.element (if contentLen ≤ 0 then .lastChunk else .chunkSize) (slice q.mark fpc)])
  | .transChunked => ({ q with chunked := true }, [])
  | .done =>
    ({ q with bodyStart := fpc + 1 },
      [.element .headerDone ⟨fpc + 1, buffer.length - fpc - 1⟩])

/-- The actions of a transition; `done` ends with `fbreak`. -/
def perform (buffer : List UInt8) (fpc : ℕ) :
    HttpclientParser → List Action → HttpclientParser × List Callback × Bool
  | q, [] => (q, [], false)
  | q, a :: as =>
    let r := act buffer fpc q a
    if a = .done then (r.1, r.2, true)
    else
      let t := perform buffer fpc r.1 as
      (t.1, r.2 ++ t.2.1, t.2.2)

/-- `%% write exec` over the bytes from `p` on. -/
def exec (buffer : List UInt8) :
    HttpclientParser → ℕ → List UInt8 → HttpclientParser × ℕ × List Callback
  | q, p, [] => (q, p, [])
  | q, p, c :: cs =>
    match q.cs with
    | none => (q, p, [])
    | some st =>
      match main.next st c with
      | none => ({ q with cs := none }, p, [])
      | some (st, acts) =>
        let r := perform buffer p q acts
        let q := { r.1 with cs := some st }
        if r.2.2 then (q, p + 1, r.2.1)
        else
          let t := exec buffer q (p + 1) cs
          (t.1, t.2.1, r.2.1 ++ t.2.2)

def reset (q : HttpclientParser) : HttpclientParser :=
  { q with nread := 0, mark := 0, fieldLen := 0, fieldStart := 0 }

/-- Also returns the calls made. The caller has put a null byte behind the buffer. -/
def httpclientParserExecute (q : HttpclientParser) (buffer : List UInt8) (off : ℕ) :
    Except Fault (HttpclientParser × ℤ × List Callback) :=
  let len := buffer.length
  if ¬ (off ≤ len ∧ ((len - off : ℕ) : ℤ) = Stream.toInt len - Stream.toInt off) then
    .error .assertion
  else
    let r := exec buffer (reset q) off (buffer.drop off)
    let q := { r.1 with nread := r.1.nread + (r.2.1 - off) }
    if r.2.1 ≤ len ∧ q.nread ≤ len ∧ q.bodyStart ≤ len then
      if q.mark < len ∧ q.fieldLen ≤ len ∧ q.fieldStart < len then
        .ok (q, Stream.toInt q.nread, r.2.2)
      else .ok (q, -1, r.2.2)
    else .error .assertion

def httpclientParserHasError (q : HttpclientParser) : Bool := q.cs = none

/-- Nothing leads out of a final state, so that there is one of them,
`httpclient_parser_first_final`. -/
def httpclientParserIsFinished (q : HttpclientParser) : Bool :=
  match q.cs with
  | none => false
  | some st => main.accepting st

def httpclientParserFinish (q : HttpclientParser) : ℤ :=
  if httpclientParserHasError q then -1 else if httpclientParserIsFinished q then 1 else 0

end HttpClientParser
