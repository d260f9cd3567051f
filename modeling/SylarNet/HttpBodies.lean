import SylarNet.HttpChunks

/-!
# Bodies of a known length

Behind the header both `recvRequest` and `recvResponse` take the body from what is left in the
buffer and then from the stream. How long it may be is configured, and nothing compares the
content-length with that.
-/
namespace HttpBodies

open SylarHttp SylarStream
open HttpMessages (recvContent read_some int64_of_lt exists_request exists_response getRequest
  okHeader helloFrame pacedRequests pacedResponses)
open HttpSegmentation (decimal postHeader)
open HttpSession (recvBody recvBody_eq length_recvBody)

/-- The variables that cache the configuration, which a listener sets at every change. -/
structure HttpSizes where
  requestBufferSize : UInt64
  requestMaxBodySize : UInt64
  responseBufferSize : UInt64
  responseMaxBodySize : UInt64
  deriving DecidableEq, Repr

namespace HttpSizes

def initial : HttpSizes := ⟨4 * 1024, 64 * 1024 * 1024, 4 * 1024, 64 * 1024 * 1024⟩

def getHttpRequestBufferSize (sizes : HttpSizes) : ℕ := sizes.requestBufferSize.toNat
def getHttpRequestMaxBodySize (sizes : HttpSizes) : ℕ := sizes.requestMaxBodySize.toNat
def getHttpResponseBufferSize (sizes : HttpSizes) : ℕ := sizes.responseBufferSize.toNat
def getHttpResponseMaxBodySize (sizes : HttpSizes) : ℕ := sizes.responseMaxBodySize.toNat

end HttpSizes

section Content

variable {α : Type} (withBody : List UInt8 → α) (bare : α)

/-- Also returns what `body.resize` was called with. -/
def recvContentTraced (bodyLength : ℤ) (data : List UInt8) (s : Stream) :
    (Option α × Stream) × List ℕ :=
  if bodyLength > 0 then
    match recvBody bodyLength data s with
    | (none, s) => ((none, s), [bodyLength.toNat])
    | (some body, s) => ((some (withBody body), s), [bodyLength.toNat])
  else ((some bare, s), [])

theorem recvContentTraced_fst (bodyLength : ℤ) (data : List UInt8) (s : Stream) :
    (recvContentTraced withBody bare bodyLength data s).1 =
      recvContent withBody bare bodyLength data s := by
  unfold recvContentTraced recvContent
  split
  · rcases recvBody bodyLength data s with ⟨_ | body, t⟩
    · rfl
    · rfl
  · rfl

/-- A message whose body is the first `n` bytes of those left in the buffer and those that the
stream has, and if there are not that many none and a closed connection. -/
structure Assembles (bodyOf : α → List UInt8) (n : ℕ) (data : List UInt8) (s : Stream)
    (result : Option α × Stream) : Prop where
  body : ∀ m, result.1 = some m → bodyOf m = (data ++ s.available).take n
  null_iff : result.1 = none ↔ (data ++ s.available).length < n
  closed : result.1 = none → result.2.connected = false
  reads : ∃ k, k ≤ n - data.length ∧ (result.2 = s.skip k ∨ result.2 = (s.skip k).close)

/-- A body over the limit is neither waited for nor made room for, and no body of a positive
length is taken for none. -/
structure BodyLimited (bodyOf : α → List UInt8) (limit n : ℕ)
    (result : (Option α × Stream) × List ℕ) : Prop where
  exceeding : limit < n → result.1.1 = none ∧ result.1.2.connected = false ∧ result.2 = []
  body : 0 < n → ∀ m, result.1.1 = some m → bodyOf m ≠ []

variable {withBody bare} {bodyOf : α → List UInt8} {n : ℕ}

theorem recvContent_assembles (hbody : ∀ body, 0 < body.length → bodyOf (withBody body) = body)
    (hpos : 1 ≤ n) (hn : n < 2 ^ 31) (data : List UInt8) (s : Stream) :
    Assembles bodyOf n data s (recvContent withBody bare n data s) := by
  have hpos' : (n : ℤ) > 0 := by omega
  rw [recvContent, if_pos hpos', recvBody_eq hn]
  by_cases hshort : (data ++ s.available).length < n
  · simp only [if_pos hshort]
    rw [List.length_append] at hshort
    refine ⟨?_, iff_of_true rfl (by rwa [List.length_append]), fun _ => rfl, ?_⟩
    · intro m hm
      cases hm
    · exact ⟨s.available.length, by omega, .inr rfl⟩
  · simp only [if_neg hshort]
    refine ⟨?_, iff_of_false (Option.some_ne_none _) hshort, ?_, ?_⟩
    · intro m hm
      cases hm
      apply hbody
      rw [List.length_take]
      omega
    · intro hm
      cases hm
    · exact ⟨n - data.length, le_refl _, .inl rfl⟩

theorem bodyLimited_iff (hbare : bodyOf bare = [])
    (hbody : ∀ body, 0 < body.length → bodyOf (withBody body) = body) (limit : ℕ)
    (hn : n < 2 ^ 64) (data : List UInt8) (s : Stream) :
    BodyLimited bodyOf limit n
        (recvContentTraced withBody bare ((n : ℤ).bmod (2 ^ 64)) data s) ↔
      n ≤ limit ∧ n < 2 ^ 63 := by
  rcases Nat.lt_or_ge n (2 ^ 63) with hlt | hge
  · rw [int64_of_lt hlt]
    unfold recvContentTraced
    by_cases hpos : (n : ℤ) > 0
    · rw [if_pos hpos]
      cases hrecv : recvBody n data s with
      | mk result t =>
        constructor
        · intro h
          refine ⟨?_, hlt⟩
          by_contra hover
          obtain ⟨-, -, hnone⟩ := h.exceeding (Nat.lt_of_not_le hover)
          cases result with
          | none => cases hnone
          | some body => cases hnone
        · rintro ⟨hle, -⟩
          refine ⟨fun hover => absurd hle (Nat.not_le_of_lt hover), ?_⟩
          intro hn' m hm
          cases result with
          | none => cases hm
          | some body =>
            cases hm
            have hlength := length_recvBody hlt hrecv
            rw [hbody body (by omega)]
            exact List.ne_nil_of_length_pos (by omega)
    · obtain rfl : n = 0 := by omega
      rw [if_neg hpos]
      refine iff_of_true ⟨fun h => absurd h (Nat.not_lt_zero _), ?_⟩ ⟨Nat.zero_le _, hlt⟩
      exact fun h => absurd h (lt_irrefl _)
  · -- the length is negative as an `int64_t`, so that no body is looked for
    have hneg : ¬ ((n : ℤ).bmod (2 ^ 64)) > 0 := by
      have hwrap := Stream.toInt64_of_le hge hn
      change (n : ℤ).bmod (2 ^ 64) = _ at hwrap
      rw [hwrap]
      omega
    rw [recvContentTraced, if_neg hneg]
    refine iff_of_false ?_ (fun h => absurd h.2 (Nat.not_lt_of_le hge))
    intro h
    exact h.body (by omega) bare rfl hbare

end Content

/-!
## Requests and responses
-/

section Requests

open HttpSession
open HttpConnection (bind_ok foldlM_keeps)

variable (lexicalCast : List UInt8 → Option UInt64) {parser p : HttpRequestParser}
  {left : List UInt8} {s t : Stream} {buffSize : ℕ} {given : List Given}

/-- `HttpSession.recvRest` with what `body.resize` was called with. -/
def requestTraced (parser : HttpRequestParser) (data : List UInt8) (s : Stream) :
    (Option HttpRequest × Stream) × List ℕ :=
  recvContentTraced (fun body => { parser.collected.data with body := body }.init)
    parser.collected.data.init (((parser.getContentLength lexicalCast).toNat : ℤ).bmod (2 ^ 64))
    data s

theorem recvContentTraced_withBody (request : HttpRequest) (bodyLength : ℤ) (data : List UInt8)
    (s : Stream) :
    (recvContentTraced (fun body => { request with body := body }.init) request.init bodyLength
      data s).1 = withBody request bodyLength data s :=
  recvContentTraced_fst ..

theorem requestTraced_fst (parser : HttpRequestParser) (data : List UInt8) (s : Stream) :
    (requestTraced lexicalCast parser data s).1 = recvRest lexicalCast parser data s := by
  unfold requestTraced recvRest
  rw [recvContentTraced_withBody]

theorem body_init (request : HttpRequest) : request.init.body = request.body := by
  unfold HttpRequest.init
  dsimp only
  split <;> rfl

theorem onElement_body {buffer : List UInt8} {e : Http11Parser.Element} {x : Http11Parser.Slice}
    {r r' : Collected} (h : onElement buffer e x r = .ok r') : r'.data.body = r.data.body := by
  have hmap : ∀ {f : List UInt8 → Collected} {y : Except Http11Parser.Fault (List UInt8)},
      y.map f = .ok r' → (∀ text, (f text).data.body = r.data.body) →
        r'.data.body = r.data.body := by
    intro f y hy hf
    cases y with
    | error e => cases hy
    | ok text =>
      cases hy
      exact hf text
  cases e with
  | requestMethod =>
    apply hmap h
    intro text
    unfold onRequestMethod
    split <;> rfl
  | fragment => exact hmap h fun _ => rfl
  | requestPath => exact hmap h fun _ => rfl
  | queryString => exact hmap h fun _ => rfl
  | httpVersion =>
    apply hmap h
    intro text
    unfold onRequestVersion
    split
    · rfl
    · split <;> rfl
  | requestUri =>
    cases h
    rfl
  | headerDone =>
    cases h
    rfl

/-- No callback writes the body. -/
theorem onCallback_body {buffer : List UInt8} {c : Http11Parser.Callback} {r r' : Collected}
    (h : onCallback buffer r c = .ok r') : r'.data.body = r.data.body := by
  cases c with
  | element e x =>
    cases x with
    | none => cases h
    | some x => exact onElement_body h
  | httpField field value =>
    obtain ⟨name, -, h⟩ := bind_ok h
    obtain ⟨text, -, h⟩ := bind_ok h
    cases h
    unfold onRequestHttpField
    split <;> rfl

theorem foldlM_body {buffer : List UInt8} {calls : List Http11Parser.Callback}
    {r r' : Collected} (h : calls.foldlM (onCallback buffer) r = .ok r') :
    r'.data.body = r.data.body :=
  foldlM_keeps (fun r => r.data.body) onCallback_body h

theorem execute_body {data : List UInt8} {n : ℕ} {calls : List Http11Parser.Callback}
    (h : parser.execute data = .ok (p, n, calls)) :
    p.collected.data.body = parser.collected.data.body := by
  obtain ⟨x, -, h⟩ := bind_ok h
  obtain ⟨r, hfold, h⟩ := bind_ok h
  cases h
  exact foldlM_body hfold

/-- A header is read from an open connection, and no body is in the request yet. -/
theorem recvHeader_some {fuel before : ℕ} {data : List UInt8}
    (h : recvHeader buffSize fuel parser before data s = .ok (some (p, left), t, given)) :
    t.connected = true ∧ p.collected.data.body = parser.collected.data.body := by
  induction fuel generalizing parser before data s given with
  | zero => cases h
  | succ fuel ih =>
    unfold recvHeader at h
    dsimp only at h
    split at h
    · cases h
    · next hlen =>
      obtain ⟨hc, k, -, -, -, hread⟩ := read_some hlen
      obtain ⟨⟨p₁, n, calls⟩, hexec, h⟩ := bind_ok h
      have hbody := execute_body hexec
      dsimp only at h
      split at h
      · cases h
      · split at h
        · cases h
        · split at h
          · cases h
            refine ⟨?_, hbody⟩
            rw [hread]
            exact hc
          · obtain ⟨⟨result, t₁, more⟩, hmore, h⟩ := bind_ok h
            cases h
            obtain ⟨hc', hbody'⟩ := ih hmore
            exact ⟨hc', hbody'.trans hbody⟩

end Requests

section Responses

open HttpConnection

variable (lexicalCast : List UInt8 → Option UInt64) {parser p : HttpResponseParser}
  {left : List UInt8} {s t : Stream} {buffSize : ℕ}

/-- `HttpConnection.recvRest` with what `body.resize` was called with. -/
def responseTraced (parser : HttpResponseParser) (data : List UInt8) (s : Stream) :
    (Option HttpResponse × Stream) × List ℕ :=
  recvContentTraced (withBody parser.collected.data) parser.collected.data
    (((parser.getContentLength lexicalCast).toNat : ℤ).bmod (2 ^ 64)) data s

theorem responseTraced_fst (parser : HttpResponseParser) (data : List UInt8) (s : Stream) :
    (responseTraced lexicalCast parser data s).1 = recvRest lexicalCast parser data s := by
  unfold responseTraced recvRest
  generalize ((parser.getContentLength lexicalCast).toNat : ℤ).bmod (2 ^ 64) = bodyLength
  exact recvContentTraced_fst ..

theorem body_withBody (response : HttpResponse) {body : List UInt8} (h : 0 < body.length) :
    (withBody response body).body = body := by
  unfold withBody
  rw [if_neg]
  rw [List.isEmpty_iff]
  exact List.ne_nil_of_length_pos h

theorem recvResponse_of_header {status : Option ℤ}
    (h : recvHeader buffSize (s.pending.length + 1) (.new status) [] s =
      .ok (some (parser, left), t)) (hplain : parser.parser.chunked = false) :
    recvResponse lexicalCast buffSize status s = .ok (recvRest lexicalCast parser left t) := by
  unfold recvResponse
  simp only [h, bind, Except.bind, hplain, Bool.false_eq_true, if_false]

end Responses

section ReceivedBodies

variable (lexicalCast : List UInt8 → Option UInt64) {left : List UInt8} {s t : Stream}

/-- Behind a header of whatever segments, with whatever is left of it in the buffer, the body is
the next bytes, as many as announced, and no byte behind them is read. -/
theorem body_assembled {buffSize n : ℕ} (hpos : 1 ≤ n) (hn : n < 2 ^ 31) :
    (∀ uriRelaxed parser given,
      HttpSession.recvHeader buffSize (s.pending.length + 1) (.new uriRelaxed) 0 [] s =
        .ok (some (parser, left), t, given) →
      (parser.getContentLength lexicalCast).toNat = n →
      t.connected = true ∧ ∃ result, HttpSession.recvRequest lexicalCast buffSize uriRelaxed s =
          .ok (result.1, result.2, given) ∧ Assembles HttpRequest.body n left t result) ∧
    ∀ status parser,
      HttpConnection.recvHeader buffSize (s.pending.length + 1) (.new status) [] s =
        .ok (some (parser, left), t) → parser.parser.chunked = false →
      (parser.getContentLength lexicalCast).toNat = n →
      t.connected = true ∧ ∃ result, HttpConnection.recvResponse lexicalCast buffSize status s =
          .ok result ∧ Assembles HttpResponse.body n left t result := by
  have hint : (n : ℤ).bmod (2 ^ 64) = n := int64_of_lt (by omega)
  constructor
  · intro uriRelaxed parser given hheader hlength
    refine ⟨(recvHeader_some hheader).1, _, HttpSegmentation.recvRequest_of_header hheader, ?_⟩
    rw [← requestTraced_fst, requestTraced, recvContentTraced_fst, hlength, hint]
    exact recvContent_assembles (fun _ _ => body_init _) hpos hn left t
  · intro status parser hheader hplain hlength
    refine ⟨(HttpChunks.recvHeader_open hheader).1, _,
      recvResponse_of_header lexicalCast hheader hplain, ?_⟩
    rw [← responseTraced_fst, responseTraced, recvContentTraced_fst, hlength, hint]
    exact recvContent_assembles (fun _ h => body_withBody _ h) hpos hn left t

/-- A request of two bytes, of which one comes with the header. -/
theorem exists_header :
    ∃ parser left t given, HttpSession.recvHeader 4096 (pacedRequests.pending.length + 1)
        (.new false) 0 [] pacedRequests = .ok (some (parser, left), t, given) ∧
      (parser.getContentLength decimal).toNat = 2 := by
  obtain ⟨m, hm, hheader, hbody⟩ :=
    exists_request postHeader (bytes "ok") (by decide) (by decide)
  have hp : pacedRequests.pending = m.header ++ (bytes "ok" ++ getRequest ++ helloFrame) := by
    rw [hheader]
    decide
  obtain ⟨q, given, hrecv⟩ := m.recvHeader_unsplit (show 4096 < 2 ^ 31 by decide) rfl hp
    (by rw [hheader]; decide)
  rw [hm] at hrecv
  exact ⟨_, _, _, given, hrecv, m.length.trans (congrArg List.length hbody)⟩

/-- A byte of the body comes with the header, the other one behind it. -/
theorem body_assembled_two_reads :
    (∃ left t given result, HttpSession.recvRequest decimal 4096 false pacedRequests =
        .ok (result.1, result.2, given) ∧ Assembles HttpRequest.body 2 left t result) ∧
      ∃ left t result, HttpConnection.recvResponse decimal 4096 none pacedResponses =
        .ok result ∧ Assembles HttpResponse.body 2 left t result := by
  constructor
  · obtain ⟨parser, left, t, given, hrecv, hlength⟩ := exists_header
    obtain ⟨-, result, hresult, h⟩ :=
      (body_assembled decimal (by decide) (by decide)).1 false parser given hrecv hlength
    exact ⟨left, t, given, result, hresult, h⟩
  · obtain ⟨m, hm, hheader, hbody⟩ :=
      exists_response okHeader (bytes "ok") (by decide) (by decide)
    have hp : pacedResponses.pending = m.header ++ (bytes "ok" ++ okHeader) := by
      rw [hheader]
      decide
    obtain ⟨q, hrecv, hplain⟩ := m.recvHeader_unsplit (show 4096 < 2 ^ 31 by decide) rfl hp
      (by rw [hheader]; decide)
    rw [hm] at hrecv
    obtain ⟨-, result, hresult, h⟩ := (body_assembled decimal (by decide) (by decide)).2 none _
      hrecv hplain (m.length.trans (congrArg List.length hbody))
    exact ⟨_, _, result, hresult, h⟩

theorem request_limited_iff {parser : HttpSession.HttpRequestParser}
    (hbody : parser.collected.data.body = []) (limit : ℕ) (data : List UInt8) (s : Stream) :
    BodyLimited HttpRequest.body limit (parser.getContentLength lexicalCast).toNat
        (requestTraced lexicalCast parser data s) ↔
      (parser.getContentLength lexicalCast).toNat ≤ limit ∧
        (parser.getContentLength lexicalCast).toNat < 2 ^ 63 :=
  bodyLimited_iff ((body_init _).trans hbody) (fun _ _ => body_init _) limit (UInt64.toNat_lt _)
    data s

/-- The limits are kept if and only if the peer keeps them, and announces no length that is
negative as an `int64_t`. -/
theorem body_limited_iff (sizes : HttpSizes) :
    (∀ uriRelaxed parser given,
      HttpSession.recvHeader sizes.getHttpRequestBufferSize (s.pending.length + 1)
        (.new uriRelaxed) 0 [] s = .ok (some (parser, left), t, given) →
      HttpSession.recvRequest lexicalCast sizes.getHttpRequestBufferSize uriRelaxed s =
        .ok ((requestTraced lexicalCast parser left t).1.1,
          (requestTraced lexicalCast parser left t).1.2, given) ∧
      (BodyLimited HttpRequest.body sizes.getHttpRequestMaxBodySize
          (parser.getContentLength lexicalCast).toNat (requestTraced lexicalCast parser left t) ↔
        (parser.getContentLength lexicalCast).toNat ≤ sizes.getHttpRequestMaxBodySize ∧
          (parser.getContentLength lexicalCast).toNat < 2 ^ 63)) ∧
    ∀ status parser,
      HttpConnection.recvHeader sizes.getHttpResponseBufferSize (s.pending.length + 1)
        (.new status) [] s = .ok (some (parser, left), t) → parser.parser.chunked = false →
      HttpConnection.recvResponse lexicalCast sizes.getHttpResponseBufferSize status s =
        .ok (responseTraced lexicalCast parser left t).1 ∧
      (BodyLimited HttpResponse.body sizes.getHttpResponseMaxBodySize
          (parser.getContentLength lexicalCast).toNat (responseTraced lexicalCast parser left t) ↔
        (parser.getContentLength lexicalCast).toNat ≤ sizes.getHttpResponseMaxBodySize ∧
          (parser.getContentLength lexicalCast).toNat < 2 ^ 63) := by
  constructor
  · intro uriRelaxed parser given hheader
    rw [requestTraced_fst]
    refine ⟨HttpSegmentation.recvRequest_of_header hheader, ?_⟩
    exact request_limited_iff lexicalCast (recvHeader_some hheader).2 _ left t
  · intro status parser hheader hplain
    rw [responseTraced_fst]
    refine ⟨recvResponse_of_header lexicalCast hheader hplain, ?_⟩
    exact bodyLimited_iff (HttpChunks.recvHeader_open hheader).2
      (fun _ h => body_withBody _ h) _ (UInt64.toNat_lt _) left t

/-- The default limits, and a request of two bytes. -/
theorem body_limited_two_bytes :
    ∃ parser left t, (parser.getContentLength decimal).toNat = 2 ∧
      BodyLimited HttpRequest.body HttpSizes.initial.getHttpRequestMaxBodySize
        (parser.getContentLength decimal).toNat (requestTraced decimal parser left t) := by
  obtain ⟨parser, left, t, given, hrecv, hlength⟩ := exists_header
  refine ⟨parser, left, t, hlength, ?_⟩
  have hsize : HttpSizes.initial.getHttpRequestBufferSize = 4096 := by decide
  rw [← hsize] at hrecv
  refine ((body_limited_iff decimal HttpSizes.initial).1 false parser given hrecv).2.2 ?_
  rw [hlength]
  decide

/-- With a limit of one byte room is made for two. -/
theorem body_over_limit :
    ¬ ∀ (sizes : HttpSizes) (s t : Stream) (left : List UInt8) (uriRelaxed : Bool)
        (parser : HttpSession.HttpRequestParser) (given : List HttpSession.Given),
      HttpSession.recvHeader sizes.getHttpRequestBufferSize (s.pending.length + 1)
        (.new uriRelaxed) 0 [] s = .ok (some (parser, left), t, given) →
      BodyLimited HttpRequest.body sizes.getHttpRequestMaxBodySize
        (parser.getContentLength decimal).toNat (requestTraced decimal parser left t) := by
  intro hall
  obtain ⟨parser, left, t, given, hrecv, hlength⟩ := exists_header
  have hlimited := hall { HttpSizes.initial with requestMaxBodySize := 1 } _ t left _ parser given
    (show HttpSession.recvHeader 4096 _ _ _ _ _ = _ from hrecv)
  rw [request_limited_iff decimal (recvHeader_some hrecv).2, hlength] at hlimited
  exact absurd hlimited.1 (by decide)

end ReceivedBodies

end HttpBodies
