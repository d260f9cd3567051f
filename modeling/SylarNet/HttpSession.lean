import SylarNet.Http11Parser

/-!
# Receiving a request

`HttpRequestParser` with its callbacks, and `HttpSession::recvRequest`. What the callbacks were
given is returned beside the request.
-/
namespace HttpSession

open SylarHttp SylarStream Http11Parser

/-- `m_data` and `m_error`, which the callbacks write. -/
structure Collected where
  data : HttpRequest
  error : ℕ
  deriving DecidableEq, Repr

structure HttpRequestParser where
  parser : HttpParser
  collected : Collected

def HttpRequestParser.new (uriRelaxed : Bool) : HttpRequestParser :=
  ⟨httpParserInit uriRelaxed, ⟨HttpRequest.new 0x11 true, 0⟩⟩

/-- `strncmp(..) == 0` -/
def strncmpEq : ℕ → List UInt8 → List UInt8 → Bool
  | 0, _, _ => true
  | n + 1, s, t =>
    s.headD 0 == t.headD 0 && (s.headD 0 == 0 || strncmpEq n s.tail t.tail)

/-- Does not look at the length. -/
def onRequestMethod (chars : List UInt8) (r : Collected) : Collected :=
  if charsToHttpMethod chars = .INVAILD_METHOD then { r with error := 1000 }
  else { r with data := { r.data with method := charsToHttpMethod chars } }

def onRequestFragment (text : List UInt8) (r : Collected) : Collected :=
  { r with data := { r.data with fragment := text } }

def onRequestPath (text : List UInt8) (r : Collected) : Collected :=
  { r with data := { r.data with path := text } }

def onRequestQuery (text : List UInt8) (r : Collected) : Collected :=
  { r with data := { r.data with query := text } }

def onRequestVersion (text : List UInt8) (r : Collected) : Collected :=
  if strncmpEq text.length text (bytes "HTTP/1.1") then
    { r with data := { r.data with version := 0x11 } }
  else if strncmpEq text.length text (bytes "HTTP/1.0") then
    { r with data := { r.data with version := 0x10 } }
  else { r with error := 1001 }

def onRequestHttpField (field value : List UInt8) (r : Collected) : Collected :=
  if field.length = 0 then r
  else { r with data := r.data.setHeader field value }

/-- `std::string(at, length)` -/
def textOf (buffer : List UInt8) (s : Slice) : Except Fault (List UInt8) :=
  if s.start + s.length ≤ buffer.length then .ok ((buffer.drop s.start).take s.length)
  else .error .outsideBuffer

def onElement (buffer : List UInt8) (e : Element) (s : Slice) (r : Collected) :
    Except Fault Collected :=
  match e with
  | .requestMethod =>
    (textOf buffer s).map fun _ => onRequestMethod (buffer.drop s.start) r
  | .fragment => (textOf buffer s).map (onRequestFragment · r)
  | .requestPath => (textOf buffer s).map (onRequestPath · r)
  | .queryString => (textOf buffer s).map (onRequestQuery · r)
  | .httpVersion => (textOf buffer s).map (onRequestVersion · r)
  -- The bodies of `on_request_uri` and `on_request_header_done` are empty.
  | .requestUri => .ok r
  | .headerDone => .ok r

def onCallback (buffer : List UInt8) (r : Collected) : Callback → Except Fault Collected
  | .element _ none => .error .outsideBuffer
  | .element e (some s) => onElement buffer e s r
  | .httpField field value => do
    let name ← textOf buffer field
    let text ← textOf buffer value
    .ok (onRequestHttpField name text r)

namespace HttpRequestParser

/-- The number of bytes parsed; the caller's buffer then starts behind them. -/
def execute (p : HttpRequestParser) (data : List UInt8) :
    Except Fault (HttpRequestParser × ℕ × List Callback) := do
  let (q, offset, calls) ← httpParserExecute p.parser data 0
  let r ← calls.foldlM (onCallback data) p.collected
  .ok (⟨q, r⟩, offset, calls)

def isFinished (p : HttpRequestParser) : ℤ := httpParserFinish p.parser

def hasError (p : HttpRequestParser) : Bool :=
  p.collected.error ≠ 0 || httpParserHasError p.parser

def getContentLength (lexicalCast : List UInt8 → Option UInt64) (p : HttpRequestParser) :
    UInt64 :=
  p.collected.data.getHeaderAs lexicalCast (bytes "content-length") 0

end HttpRequestParser

/-- A call, the bytes then in the buffer, and how many of the stream were parsed before them. -/
structure Given where
  before : ℕ
  buffer : List UInt8
  call : Callback

/-- The loop that reads the header. Returns the parser with what is left in the buffer. -/
def recvHeader (buffSize : ℕ) : ℕ → HttpRequestParser → ℕ → List UInt8 → Stream →
    Except Fault (Option (HttpRequestParser × List UInt8) × Stream × List Given)
  | 0, _, _, _, _ => .error .outOfFuel
  | fuel + 1, parser, before, data, s =>
    let (len, bytes, s) := s.read (buffSize - data.length)
    if len ≤ 0 then .ok (none, s.close, [])
    else do
      let data := data ++ bytes
      let (parser, nparse, calls) ← parser.execute data
      let given := calls.map (⟨before, data, ·⟩)
      if parser.hasError then .ok (none, s.close, given)
      else
        let data := data.drop nparse
        if (data.length : ℤ) = Stream.toInt buffSize then .ok (none, s.close, given)
        else if parser.isFinished ≠ 0 then .ok (some (parser, data), s, given)
        else do
          let (result, s, more) ← recvHeader buffSize fuel parser (before + nparse) data s
          .ok (result, s, given ++ more)

/-- The body from what is left in the buffer and from the stream. -/
def recvBody (bodyLength : ℤ) (data : List UInt8) (s : Stream) : Option (List UInt8) × Stream :=
  let offset := data.length
  let body := if offset ≤ bodyLength then data else data.take bodyLength.toNat
  if bodyLength - offset > 0 then
    let (r, bytes, s) := s.readFixSize (bodyLength - offset).toNat
    if r ≤ 0 then (none, s.close) else (some (body ++ bytes), s)
  else (some body, s)

section Body

variable {s t : Stream} {data body : List UInt8} {n : ℕ}

theorem recvBody_of_le (h : n ≤ data.length) : recvBody n data s = (some (data.take n), s) := by
  have hdone : ¬ (n : ℤ) - data.length > 0 := by omega
  have hbody : (if (data.length : ℤ) ≤ (n : ℤ) then data else data.take (n : ℤ).toNat) =
      data.take n := by
    rw [Int.toNat_natCast]
    split
    · rw [List.take_of_length_le (by omega)]
    · rfl
  simp only [recvBody, hdone, if_false, hbody]

theorem recvBody_of_lt (h : data.length < n) :
    recvBody n data s =
      if (s.readFixSize (n - data.length)).1 ≤ 0 then
        (none, (s.readFixSize (n - data.length)).2.2.close)
      else (some (data ++ (s.readFixSize (n - data.length)).2.1),
        (s.readFixSize (n - data.length)).2.2) := by
  have hmore : (n : ℤ) - data.length > 0 := by omega
  have hbody : (data.length : ℤ) ≤ n := by omega
  have hcount : ((n : ℤ) - data.length).toNat = n - data.length := by omega
  simp only [recvBody, hmore, if_true, hbody, hcount]

/-- The three regimes in one: the body is the first bytes of both sources together. -/
theorem recvBody_eq (hn : n < 2 ^ 31) :
    recvBody n data s =
      if (data ++ s.available).length < n then (none, (s.skip s.available.length).close)
      else (some ((data ++ s.available).take n), s.skip (n - data.length)) := by
  rw [List.length_append]
  rcases Nat.lt_or_ge data.length n with hlt | hle
  · rw [recvBody_of_lt hlt]
    have hpos : ¬ Stream.toInt (n - data.length : ℕ) ≤ 0 := by
      rw [Stream.toInt_of_lt (by omega)]
      omega
    rcases s.readFixSize_cases (n := n - data.length) (by omega) with
      ⟨henough, hread⟩ | ⟨hshort, r, hr, hread⟩
    · have henough' : ¬ data.length + s.available.length < n := by omega
      have hall : data.take n = data := List.take_of_length_le (Nat.le_of_lt hlt)
      simp only [hread, if_neg hpos, if_neg henough', List.take_append, hall]
    · have hshort' : data.length + s.available.length < n := by omega
      rw [hread, if_pos hr, if_pos hshort']
  · have henough : ¬ data.length + s.available.length < n := by omega
    rw [recvBody_of_le hle, if_neg henough, List.take_append_of_le_length hle,
      Nat.sub_eq_zero_of_le hle, Stream.skip_zero]

/-- A body that is returned is as long as announced, also one whose length is no `int`. -/
theorem length_recvBody (hn : n < 2 ^ 63) (h : recvBody n data s = (some body, t)) :
    body.length = n := by
  rcases Nat.lt_or_ge data.length n with hlt | hle
  · rw [recvBody_of_lt hlt] at h
    rcases s.readFixSize_cases (n := n - data.length) (by omega) with
      ⟨henough, hread⟩ | ⟨-, r, hr, hread⟩
    · rw [hread] at h
      split at h
      · cases h
      · cases h
        rw [List.length_append, List.length_take, Nat.min_eq_left henough]
        omega
    · rw [hread, if_pos hr] at h
      cases h
  · rw [recvBody_of_le hle] at h
    cases h
    rw [List.length_take, Nat.min_eq_left hle]

end Body

def withBody (request : HttpRequest) (bodyLength : ℤ) (data : List UInt8) (s : Stream) :
    Option HttpRequest × Stream :=
  if bodyLength > 0 then
    match recvBody bodyLength data s with
    | (none, s) => (none, s)
    | (some body, s) => (some { request with body := body }.init, s)
  else (some request.init, s)

/-- Behind the loop; `lexical_cast` is a parameter. -/
def recvRest (lexicalCast : List UInt8 → Option UInt64) (parser : HttpRequestParser)
    (data : List UInt8) (s : Stream) : Option HttpRequest × Stream :=
  withBody parser.collected.data
    (((parser.getContentLength lexicalCast).toNat : ℤ).bmod (2 ^ 64)) data s

/-- The memory behind `uri_relaxed` is a parameter. Every pass of the loop that goes on has read
a byte, so that there are no more passes than bytes. -/
def recvRequest (lexicalCast : List UInt8 → Option UInt64) (buffSize : ℕ) (uriRelaxed : Bool)
    (s : Stream) : Except Fault (Option HttpRequest × Stream × List Given) := do
  let (header, s, given) ←
    recvHeader buffSize (s.pending.length + 1) (.new uriRelaxed) 0 [] s
  match header with
  | none => .ok (none, s, given)
  | some (parser, data) =>
    let r := recvRest lexicalCast parser data s
    .ok (r.1, r.2, given)

end HttpSession
