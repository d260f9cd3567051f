import SylarNet.Http11Grammar
import SylarNet.SylarStream

/-!
# The parser of request headers

`http_parser_execute`: the machine runs over the bytes of one buffer, its actions keep indices
into that buffer and pass slices of it to the callbacks. The callbacks do not touch the parser,
so that a run returns the calls it makes, in their order. `mark`, `field_start` and `field_len`
are set back to zero by every call, `query_start` never is, and the state of the machine stays.
-/
namespace Http11Parser

open RagelMachine Http11Grammar SylarStream

/-- What a callback is given: an index into the buffer and a `size_t`. -/
structure Slice where
  start : ℕ
  length : ℕ
  deriving DecidableEq, Repr

inductive Element where
  | requestMethod
  | requestUri
  | fragment
  | requestPath
  | queryString
  | httpVersion
  | headerDone
  deriving DecidableEq, Repr

/-- A call of `element_cb` or `field_cb`; without a slice if the index was never set. -/
inductive Callback where
  | element (e : Element) (s : Option Slice)
  | httpField (field value : Slice)
  deriving DecidableEq, Repr

/-- `cs` is `none` in the error state. `http_parser_init` leaves `query_start` and
`uri_relaxed` as they are in memory. -/
structure HttpParser where
  cs : Option State
  bodyStart : ℕ
  contentLen : ℤ
  nread : ℕ
  mark : ℕ
  fieldStart : ℕ
  fieldLen : ℕ
  queryStart : Option ℕ
  xmlSent : Bool
  jsonSent : Bool
  uriRelaxed : Bool

def httpParserInit (uriRelaxed : Bool) : HttpParser :=
  ⟨some State.initial, 0, 0, 0, 0, 0, 0, none, false, false, uriRelaxed⟩

/-- `LEN`, a difference of `size_t`. -/
def len (start fpc : ℕ) : ℕ := (((fpc : ℤ) - start) % 2 ^ 64).toNat

def slice (start fpc : ℕ) : Slice := ⟨start, len start fpc⟩

/-- One action at the byte `fpc` of a buffer that ends at `pe`. -/
def act (pe fpc : ℕ) (q : HttpParser) : Action → HttpParser × List Callback
  | .mark => ({ q with mark := fpc }, [])
  | .startField => ({ q with fieldStart := fpc }, [])
  | .writeField => ({ q with fieldLen := len q.fieldStart fpc }, [])
  | .startValue => ({ q with mark := fpc }, [])
  | .writeValue => (q, [.httpField ⟨q.fieldStart, q.fieldLen⟩ (slice q.mark fpc)])
  | .requestMethod => (q, [.element .requestMethod (slice q.mark fpc)])
  | .requestUri => (q, [.element .requestUri (slice q.mark fpc)])
  | .fragment => (q, [.element .fragment (slice q.mark fpc)])
  | .startQuery => ({ q with queryStart := some fpc }, [])
  | .queryString => (q, [.element .queryString (q.queryStart.map (slice · fpc))])
  | .httpVersion => (q, [.element .httpVersion (slice q.mark fpc)])
  | .requestPath => (q, [.element .requestPath (slice q.mark fpc)])
  | .done =>
    if q.xmlSent || q.jsonSent then
      ({ q with
        bodyStart := q.mark
        contentLen := Stream.toInt ((fpc : ℤ) - q.mark + 1) }, [])
    else
      ({ q with bodyStart := fpc + 1 }, [.element .headerDone (some ⟨fpc + 1, pe - fpc - 1⟩)])
  | .xml => ({ q with xmlSent := true }, [])
  | .json => ({ q with jsonSent := true }, [])

/-- The actions of a transition; `done` ends with `fbreak`, which leaves the machine. -/
def perform (pe fpc : ℕ) : HttpParser → List Action → HttpParser × List Callback × Bool
  | q, [] => (q, [], false)
  | q, a :: as =>
    let r := act pe fpc q a
    if a = .done then (r.1, r.2, true)
    else
      let t := perform pe fpc r.1 as
      (t.1, r.2 ++ t.2.1, t.2.2)

/-- `%% write exec` over the bytes from `p` on. In the error state `p` stays at the byte that
led there, behind `fbreak` it is at the next one. -/
def exec (pe : ℕ) : HttpParser → ℕ → List UInt8 → HttpParser × ℕ × List Callback
  | q, p, [] => (q, p, [])
  | q, p, c :: cs =>
    match q.cs with
    | none => (q, p, [])
    | some st =>
      match (main q.uriRelaxed).next st c with
      | none => ({ q with cs := none }, p, [])
      | some (st, acts) =>
        let r := perform pe p q acts
        let q := { r.1 with cs := some st }
        if r.2.2 then (q, p + 1, r.2.1)
        else
          let t := exec pe q (p + 1) cs
          (t.1, t.2.1, r.2.1 ++ t.2.2)

/-- What a parser, of requests or of responses, and the function around it can fail with. -/
inductive Fault where
  | assertion
  | outsideBuffer
  | overflow
  | lengthError
  | outOfFuel
  deriving DecidableEq, Repr

/-- What `http_parser_execute` sets back. -/
def reset (q : HttpParser) : HttpParser :=
  { q with nread := 0, mark := 0, fieldLen := 0, fieldStart := 0 }

/-- Also returns the calls made. -/
def httpParserExecute (q : HttpParser) (buffer : List UInt8) (off : ℕ) :
    Except Fault (HttpParser × ℕ × List Callback) :=
  let len := buffer.length
  if len = 0 then .ok (q, 0, [])
  else if ¬ (off ≤ len ∧ ((len - off : ℕ) : ℤ) = Stream.toInt len - Stream.toInt off) then
    .error .assertion
  else
    let r := exec len (reset q) off (buffer.drop off)
    let q := { r.1 with nread := r.1.nread + (r.2.1 - off) }
    if r.2.1 ≤ len ∧ q.nread ≤ len ∧ q.bodyStart ≤ len ∧ q.mark < len ∧ q.fieldLen ≤ len ∧
        q.fieldStart < len then .ok (q, q.nread, r.2.2)
    else .error .assertion

def httpParserHasError (q : HttpParser) : Bool := q.cs = none

/-- The final states are numbered from `http_parser_first_final` on. -/
def httpParserIsFinished (q : HttpParser) : Bool :=
  match q.cs with
  | none => false
  | some st => (main q.uriRelaxed).accepting st

def httpParserFinish (q : HttpParser) : ℤ :=
  if httpParserHasError q then -1 else if httpParserIsFinished q then 1 else 0

end Http11Parser
