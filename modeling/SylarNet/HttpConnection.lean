import SylarNet.HttpClientParser
import SylarNet.HttpSession

/-!
# Receiving a response

`HttpResponseParser` with its callbacks, and `HttpConnection::recvResponse` with its body of a
known length or in chunks. `execute` with `chunck` starts the parser anew.
-/
namespace HttpConnection

open SylarHttp SylarStream HttpClientParser
open Http11Parser (Fault)
open HttpSession (strncmpEq textOf recvBody)

/-- `m_data` and `m_error`, which the callbacks write. -/
structure Collected where
  data : HttpResponse
  error : ℕ
  deriving DecidableEq, Repr

structure HttpResponseParser where
  parser : HttpclientParser
  collected : Collected

def HttpResponseParser.new (status : Option ℤ) : HttpResponseParser :=
  ⟨httpclientParserInit status, ⟨HttpResponse.new 0x11 true, 0⟩⟩

def onResponseReason (text : List UInt8) (r : Collected) : Collected :=
  { r with data := { r.data with reason := text } }

/-- `atoi` does not look at the length. -/
def onResponseStatus (chars : List UInt8) (r : Collected) : Collected :=
  { r with data := { r.data with status := Stream.toInt (strtol 10 chars) } }

def onResponseVersion (text : List UInt8) (r : Collected) : Collected :=
  if strncmpEq text.length text (bytes "HTTP/1.1") then
    { r with data := { r.data with version := 0x11 } }
  else if strncmpEq text.length text (bytes "HTTP/1.0") then
    { r with data := { r.data with version := 0x10 } }
  else { r with error := 1001 }

def onResponseHttpField (field value : List UInt8) (r : Collected) : Collected :=
  { r with data := r.data.setHeader field value }

def onCallback (buffer : List UInt8) (r : Collected) : Callback → Except Fault Collected
  | .element .reasonPhrase s => (textOf buffer s).map (onResponseReason · r)
  | .element .statusCode s =>
    if s.start ≤ buffer.length then .ok (onResponseStatus (buffer.drop s.start) r)
    else .error .outsideBuffer
  | .element .httpVersion s => (textOf buffer s).map (onResponseVersion · r)
  -- The bodies of `on_response_chunk`, `on_response_last_chunk` and
  -- `on_response_header_done` are empty.
  | .element .chunkSize _ => .ok r
  | .element .lastChunk _ => .ok r
  | .element .headerDone _ => .ok r
  | .httpField field value =>
    if field.length = 0 then .ok r
    else do
      let name ← textOf buffer field
      let text ← textOf buffer value
      .ok (onResponseHttpField name text r)

namespace HttpResponseParser

/-- The number of bytes parsed; the caller's buffer then starts behind them. The move of a
buffer from in front of its first byte, for -1, is outside of it. -/
def execute (p : HttpResponseParser) (data : List UInt8) (chunck : Bool) :
    Except Fault (HttpResponseParser × ℕ) := do
  let parser := if chunck then httpclientParserInit p.parser.status else p.parser
  let (q, offset, calls) ← httpclientParserExecute parser data 0
  let r ← calls.foldlM (onCallback data) p.collected
  if offset < 0 then .error .outsideBuffer else .ok (⟨q, r⟩, offset.toNat)

def isFinished (p : HttpResponseParser) : ℤ := httpclientParserFinish p.parser

def hasError (p : HttpResponseParser) : Bool :=
  p.collected.error ≠ 0 || httpclientParserHasError p.parser

def getContentLength (lexicalCast : List UInt8 → Option UInt64) (p : HttpResponseParser) :
    UInt64 :=
  p.collected.data.getHeaderAs lexicalCast (bytes "content-length") 0

end HttpResponseParser

/-- The loop that reads the header. Returns the parser with what is left in the buffer. -/
def recvHeader (buffSize : ℕ) : ℕ → HttpResponseParser → List UInt8 → Stream →
    Except Fault (Option (HttpResponseParser × List UInt8) × Stream)
  | 0, _, _, _ => .error .outOfFuel
  | fuel + 1, parser, data, s =>
    let (len, bytes, s) := s.read (buffSize - data.length)
    if len ≤ 0 then .ok (none, s.close)
    else do
      let data := data ++ bytes
      let (parser, nparse) ← parser.execute data false
      if parser.hasError then .ok (none, s.close)
      else
        let data := data.drop nparse
        if (data.length : ℤ) = Stream.toInt buffSize then .ok (none, s.close)
        else if parser.isFinished ≠ 0 then .ok (some (parser, data), s)
        else recvHeader buffSize fuel parser data s

/-- The loop over the line with the size of a chunk, `begin` in its first pass. -/
def recvChunkSize (buffSize : ℕ) : ℕ → Bool → HttpResponseParser → List UInt8 → Stream →
    Except Fault (Option (HttpResponseParser × List UInt8) × Stream)
  | 0, _, _, _, _ => .error .outOfFuel
  | fuel + 1, begin, parser, data, s =>
    let (rt, bytes, s) :=
      if !begin || data.length = 0 then s.read (buffSize - data.length) else (1, [], s)
    if rt ≤ 0 then .ok (none, s.close)
    else do
      let data := data ++ bytes
      let (parser, nparse) ← parser.execute data true
      if parser.hasError then .ok (none, s.close)
      else
        let data := data.drop nparse
        if (data.length : ℤ) = Stream.toInt buffSize then .ok (none, s.close)
        else if parser.isFinished ≠ 0 then .ok (some (parser, data), s)
        else recvChunkSize buffSize fuel false parser data s

/-- `while (left > 0)`; every pass that goes on reads a byte. -/
def recvLeft (buffSize : ℕ) : ℕ → ℤ → List UInt8 → Stream → Option (List UInt8) × Stream
  | 0, _, body, s => (some body, s)
  | fuel + 1, left, body, s =>
    if left > 0 then
      let length := if left > Stream.toInt buffSize then Stream.toInt buffSize else left
      let (rt, bytes, s) := s.read (length % 2 ^ 64).toNat
      if rt ≤ 0 then (none, s.close)
      else recvLeft buffSize fuel (left - rt) (body ++ bytes) s
    else (some body, s)

/-- `body.resize(body.size() - 2)` throws where the size wraps around. -/
def withoutLineEnd (body : List UInt8) : Except Fault (List UInt8) :=
  if body.length < 2 then .error .lengthError else .ok (body.take (body.length - 2))

/-- The content of a chunk with its line end. Returns the body so far and what is left in the
buffer. -/
def recvChunk (buffSize : ℕ) (contentLen : ℤ) (data body : List UInt8) (s : Stream) :
    Except Fault (Option (List UInt8 × List UInt8) × Stream) :=
  if contentLen + 2 ≥ 2 ^ 31 then .error .overflow
  else if contentLen + 2 ≤ data.length then
    if contentLen < 0 then .error .lengthError
    else
      .ok (some (body ++ data.take contentLen.toNat, data.drop (contentLen.toNat + 2)), s)
  else
    let left := contentLen - data.length + 2
    match recvLeft buffSize left.toNat left (body ++ data) s with
    | (none, s) => .ok (none, s)
    | (some body, s) => (withoutLineEnd body).map fun body => (some (body, []), s)

/-- `do .. while(!client_parser.chunks_done)` -/
def recvChunks (buffSize : ℕ) : ℕ → HttpResponseParser → List UInt8 → List UInt8 → Stream →
    Except Fault (Option (HttpResponseParser × List UInt8) × Stream)
  | 0, _, _, _, _ => .error .outOfFuel
  | fuel + 1, parser, data, body, s => do
    let (head, s) ← recvChunkSize buffSize (s.pending.length + 2) true parser data s
    match head with
    | none => .ok (none, s)
    | some (parser, data) =>
      let (chunk, s) ← recvChunk buffSize parser.parser.contentLen data body s
      match chunk with
      | none => .ok (none, s)
      | some (body, data) =>
        if parser.parser.chunksDone then .ok (some (parser, body), s)
        else recvChunks buffSize fuel parser data body s

/-- `if (!body.empty())`, which leaves the empty body of a new response. -/
def withBody (response : HttpResponse) (body : List UInt8) : HttpResponse :=
  if body.isEmpty then response else { response with body := body }

/-- Behind the header of a response that is not chunked. -/
def recvRest (lexicalCast : List UInt8 → Option UInt64) (parser : HttpResponseParser)
    (data : List UInt8) (s : Stream) : Option HttpResponse × Stream :=
  let bodyLength := ((parser.getContentLength lexicalCast).toNat : ℤ).bmod (2 ^ 64)
  if bodyLength > 0 then
    match recvBody bodyLength data s with
    | (none, s) => (none, s)
    | (some body, s) => (some (withBody parser.collected.data body), s)
  else (some parser.collected.data, s)

/-- The memory behind `status` is a parameter. Every pass of a loop that goes on has parsed or
read a byte, so that there are no more passes than bytes. -/
def recvResponse (lexicalCast : List UInt8 → Option UInt64) (buffSize : ℕ) (status : Option ℤ)
    (s : Stream) : Except Fault (Option HttpResponse × Stream) := do
  let fuel := s.pending.length + 1
  let (header, s) ← recvHeader buffSize fuel (.new status) [] s
  match header with
  | none => .ok (none, s)
  | some (parser, data) =>
    if parser.parser.chunked then
      let (chunks, s) ← recvChunks buffSize fuel parser data [] s
      .ok (chunks.map fun r => withBody r.1.collected.data r.2, s)
    else .ok (recvRest lexicalCast parser data s)

/-!
## One pass

The loops over the header and over the line with a size have the same body behind their read.
-/

abbrev Received := Except Fault (Option (HttpResponseParser × List UInt8) × Stream)

section Passes

variable (parser : HttpResponseParser) (chunck : Bool) (data : List UInt8)
  (read : ℤ × List UInt8 × Stream) (again : HttpResponseParser → List UInt8 → Stream → Received)

/-- What a pass can come to. -/
inductive Pass (r : Received) : Prop where
  | closed (h : r = .ok (none, read.2.2.close))
  | fault (f : Fault) (hexec : parser.execute (data ++ read.2.1) chunck = .error f)
      (h : r = .error f)
  | done (p : HttpResponseParser) (n : ℕ) (hlen : ¬ read.1 ≤ 0)
      (hexec : parser.execute (data ++ read.2.1) chunck = .ok (p, n))
      (herror : p.hasError = false) (hfinished : p.isFinished ≠ 0)
      (h : r = .ok (some (p, (data ++ read.2.1).drop n), read.2.2))
  | more (p : HttpResponseParser) (n : ℕ) (hlen : ¬ read.1 ≤ 0)
      (hexec : parser.execute (data ++ read.2.1) chunck = .ok (p, n))
      (h : r = again p ((data ++ read.2.1).drop n) read.2.2)

/-- The body of both loops. -/
def passBody (buffSize : ℕ) : Received :=
  if read.1 ≤ 0 then .ok (none, read.2.2.close)
  else do
    let (p, n) ← parser.execute (data ++ read.2.1) chunck
    if p.hasError then .ok (none, read.2.2.close)
    else if (((data ++ read.2.1).drop n).length : ℤ) = Stream.toInt buffSize then
      .ok (none, read.2.2.close)
    else if p.isFinished ≠ 0 then .ok (some (p, (data ++ read.2.1).drop n), read.2.2)
    else again p ((data ++ read.2.1).drop n) read.2.2

theorem pass_passBody (buffSize : ℕ) :
    Pass parser chunck data read again (passBody parser chunck data read again buffSize) := by
  unfold passBody
  split
  · exact .closed rfl
  · next hlen =>
    cases hexec : parser.execute (data ++ read.2.1) chunck with
    | error f => exact .fault f hexec rfl
    | ok x =>
      obtain ⟨p, n⟩ := x
      simp only [bind, Except.bind]
      split
      · exact .closed rfl
      · next herror =>
        split
        · exact .closed rfl
        · split
          · next hfinished => exact .done p n hlen hexec (by simpa using herror) hfinished rfl
          · exact .more p n hlen hexec rfl

end Passes

theorem recvHeader_pass (buffSize fuel : ℕ) (parser : HttpResponseParser) (data : List UInt8)
    (s : Stream) :
    Pass parser false data (s.read (buffSize - data.length)) (recvHeader buffSize fuel)
      (recvHeader buffSize (fuel + 1) parser data s) :=
  pass_passBody ..

/-- What `recvChunkSize` has read at the start of a pass. -/
def refill (buffSize : ℕ) (begin : Bool) (data : List UInt8) (s : Stream) :
    ℤ × List UInt8 × Stream :=
  if !begin || data.length = 0 then s.read (buffSize - data.length) else (1, [], s)

theorem recvChunkSize_pass (buffSize fuel : ℕ) (begin : Bool) (parser : HttpResponseParser)
    (data : List UInt8) (s : Stream) :
    Pass parser true data (refill buffSize begin data s) (recvChunkSize buffSize fuel false)
      (recvChunkSize buffSize (fuel + 1) begin parser data s) :=
  pass_passBody ..

/-- What the content of a chunk can come to: it is in the buffer with its line end, or the rest of
it has to be read. -/
inductive Content (data body : List UInt8) (s : Stream)
    (read : ℕ → ℤ → Option (List UInt8) × Stream)
    (r : Except Fault (Option (List UInt8 × List UInt8) × Stream)) : Prop where
  | fault (f : Fault) (hf : f ≠ .outOfFuel) (h : r = .error f)
  | buffered (body' : List UInt8) (n : ℕ) (h : r = .ok (some (body', data.drop n), s))
  | closed (fuel : ℕ) (left : ℤ) (t : Stream) (hread : read fuel left = (none, t))
      (h : r = .ok (none, t))
  | whole (fuel : ℕ) (left : ℤ) (all body' : List UInt8) (t : Stream)
      (hread : read fuel left = (some all, t)) (h : r = .ok (some (body', []), t))

theorem recvChunk_content (buffSize : ℕ) (contentLen : ℤ) (data body : List UInt8) (s : Stream) :
    Content data body s (fun fuel left => recvLeft buffSize fuel left (body ++ data) s)
      (recvChunk buffSize contentLen data body s) := by
  unfold recvChunk
  split
  · exact .fault .overflow nofun rfl
  · split
    · split
      · exact .fault .lengthError nofun rfl
      · exact .buffered _ _ rfl
    · dsimp only
      split
      · next hread => exact .closed _ _ _ hread rfl
      · next hread =>
        unfold withoutLineEnd
        split
        · exact .fault .lengthError nofun rfl
        · exact .whole _ _ _ _ _ hread rfl

theorem bind_ok {ε α β : Type} {x : Except ε α} {f : α → Except ε β} {b : β}
    (h : x >>= f = .ok b) : ∃ a, x = .ok a ∧ f a = .ok b := by
  cases x with
  | error e => cases h
  | ok a => exact ⟨a, rfl, h⟩

theorem bind_error {ε α β : Type} {x : Except ε α} {f : α → Except ε β} {e : ε}
    (h : x >>= f = .error e) : x = .error e ∨ ∃ a, x = .ok a ∧ f a = .error e := by
  cases x with
  | error e' => exact .inl (by cases h; rfl)
  | ok a => exact .inr ⟨a, rfl, h⟩

/-- What every step keeps, the run over a list of calls keeps. -/
theorem foldlM_keeps {ε σ α β : Type} {f : σ → α → Except ε σ} (g : σ → β)
    (hstep : ∀ {s a t}, f s a = .ok t → g t = g s) {l : List α} {s t : σ}
    (h : l.foldlM f s = .ok t) : g t = g s := by
  induction l generalizing s with
  | nil =>
    cases h
    rfl
  | cons a l ih =>
    simp only [List.foldlM_cons] at h
    obtain ⟨u, hcall, hmore⟩ := bind_ok h
    exact (ih hmore).trans (hstep hcall)

end HttpConnection
