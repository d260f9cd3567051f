import SylarNet.HttpClientHeader
import SylarNet.HttpSegmentation

/-!
# Messages one behind the other

`recvRequest` and `recvResponse` read into a buffer of their own. Bytes behind the message that
come with the read of its header are in that buffer when the call returns, and are gone.
-/
namespace HttpMessages

open RagelMachine Http11Parser Http11Tokens HttpSegmentation SylarHttp SylarStream
open HttpSession (recvBody recvBody_of_le recvBody_of_lt)

/-- How many bytes the first read of a call gets. -/
def firstRead (buffSize : ℕ) (s : Stream) : ℕ := (s.read buffSize).1.toNat

/-- Of a message of `length` bytes the first read gets `taken` and nothing behind it, and
`readFixSize` can return the number of those that are left. -/
def Within (taken length : ℕ) : Prop :=
  taken ≤ length ∧ (taken < length → 0 < Stream.toInt (length - taken : ℕ))

instance (taken length : ℕ) : Decidable (Within taken length) :=
  inferInstanceAs (Decidable (_ ∧ _))

/-- In front of the body nothing changes. -/
theorem within_add {n taken length : ℕ} (h : n ≤ taken) :
    Within taken (n + length) ↔ Within (taken - n) length := by
  obtain ⟨k, rfl⟩ : ∃ k, taken = n + k := ⟨taken - n, by omega⟩
  unfold Within
  rw [Nat.add_sub_cancel_left, Nat.add_sub_add_left, Nat.add_le_add_iff_left,
    Nat.add_lt_add_iff_left]

section Reads

variable {s : Stream} {buffSize : ℕ}

theorem firstRead_le : firstRead buffSize s ≤ buffSize := by
  unfold firstRead Stream.read
  split
  · simp
  · split
    · have := s.readEnd.2
      simp only
      omega
    · split
      · simp
      · simp only [Int.toNat_natCast]
        omega

/-- While bytes are to come. -/
theorem read_spec {n : ℕ} (hc : s.connected = true) (hn : 0 < n) (hne : s.pending ≠ []) :
    ∃ k, 0 < k ∧ k ≤ n ∧ k ≤ s.pending.length ∧ firstRead n s = k ∧
      s.read n = ((k : ℤ), s.pending.take k, s.skip k) := by
  obtain ⟨k, segs, hk, hkn, hkl, hread, -⟩ := Stream.read_spec hc hn hne
  have hfirst : firstRead n s = k := by
    unfold firstRead
    rw [hread, Int.toNat_natCast]
  have hskip : s.arrived segs = s.skip k := by
    have hread' := Stream.read_skip s n
    rwa [hread, Int.toNat_natCast] at hread'
  rw [hskip] at hread
  exact ⟨k, hk, hkn, hkl, hfirst, hread⟩

/-- The first read as far as the bytes are concerned. -/
theorem read_firstRead (hc : s.connected = true) (hne : s.pending ≠ [])
    (hpos : 0 < firstRead buffSize s) :
    firstRead buffSize s ≤ s.pending.length ∧
      s.read buffSize = ((firstRead buffSize s : ℤ), s.pending.take (firstRead buffSize s),
        s.skip (firstRead buffSize s)) := by
  obtain ⟨k, -, -, hkl, hfirst, hread⟩ :=
    read_spec hc (lt_of_lt_of_le hpos firstRead_le) hne
  rw [hfirst]
  exact ⟨hkl, hread⟩

/-- A read that gets something. -/
theorem read_some {n : ℕ} (h : ¬ (s.read n).1 ≤ 0) :
    s.connected = true ∧ ∃ k, 0 < k ∧ k ≤ n ∧ k ≤ s.pending.length ∧
      s.read n = ((k : ℤ), s.pending.take k, s.skip k) := by
  obtain ⟨connected, incoming, readEnd, accepts, outgoing⟩ := s
  cases connected with
  | false => exact absurd (by decide : (-1 : ℤ) ≤ 0) h
  | true =>
    cases incoming with
    | nil => exact absurd readEnd.2 h
    | cons seg rest =>
      have hn : 0 < n := by
        by_contra hzero
        obtain rfl : n = 0 := by omega
        apply h
        simp [Stream.read, List.length_pos_iff.2 seg.2]
      have hne : (Stream.mk true (seg :: rest) readEnd accepts outgoing).pending ≠ [] := by
        simp [Stream.pending, seg.2]
      obtain ⟨k, hk, hkn, hkl, -, hread⟩ := read_spec rfl hn hne
      exact ⟨rfl, k, hk, hkn, hkl, hread⟩

end Reads

section Bodies

variable {s : Stream} {body rest left : List UInt8}

theorem pending_of_append (h : left ++ s.pending = body ++ rest)
    (hle : left.length ≤ body.length) :
    body.take left.length = left ∧ s.pending = body.drop left.length ++ rest := by
  constructor
  · rw [← List.take_append_of_le_length hle, ← h, List.take_left]
  · rw [← List.drop_append_of_le_length hle, ← h, List.drop_left]

theorem readFixSize_body (hc : s.connected = true) (h : left ++ s.pending = body ++ rest)
    (hfits : body.length < 2 ^ 63) (hle : left.length ≤ body.length) :
    s.readFixSize (body.length - left.length) = (Stream.toInt (body.length - left.length : ℕ),
      body.drop left.length, s.skip (body.length - left.length)) := by
  obtain ⟨segs, hread, -⟩ := Stream.readFixSize_spec hc
    (by rw [List.length_drop]; omega) (pending_of_append h hle).2
  rw [List.length_drop] at hread
  have hskip : s.arrived segs = s.skip (body.length - left.length) := by
    have hread' := Stream.readFixSize_skip s (body.length - left.length)
    rwa [hread, List.length_drop] at hread'
  rw [hread, hskip]

theorem recvBody_of_within (hc : s.connected = true) (h : left ++ s.pending = body ++ rest)
    (hfits : body.length < 2 ^ 63) (hw : Within left.length body.length) :
    recvBody body.length left s = (some body, s.skip (body.length - left.length)) := by
  obtain ⟨hle, hint⟩ := hw
  obtain ⟨hleft, -⟩ := pending_of_append h hle
  rcases Nat.lt_or_eq_of_le hle with hlt | heq
  · have hpos := hint hlt
    have hnot : ¬ Stream.toInt (body.length - left.length : ℕ) ≤ 0 := by omega
    have htext : left ++ body.drop left.length = body := by
      nth_rewrite 1 [← hleft]
      exact List.take_append_drop left.length body
    rw [recvBody_of_lt hlt, readFixSize_body hc h hfits hle, if_neg hnot, htext]
  · rw [heq, List.take_length] at hleft
    subst hleft
    rw [recvBody_of_le le_rfl, List.take_length, Nat.sub_self, Stream.skip_zero]

theorem within_of_recvBody (hc : s.connected = true) (h : left ++ s.pending = body ++ rest)
    (hfits : body.length < 2 ^ 63) {text : List UInt8} {s' : Stream}
    (hrecv : recvBody body.length left s = (some text, s'))
    (hrest : s'.pending = rest) : Within left.length body.length := by
  have hlen := congrArg List.length h
  rw [List.length_append, List.length_append] at hlen
  by_cases hle : left.length ≤ body.length
  · refine ⟨hle, ?_⟩
    intro hlt
    by_contra hnot
    simp only [recvBody_of_lt hlt, readFixSize_body hc h hfits hle, if_pos (not_lt.1 hnot)] at hrecv
    cases hrecv
  · -- The bytes behind the body went with the buffer.
    rw [recvBody_of_le (by omega)] at hrecv
    cases hrecv
    rw [hrest] at hlen
    omega

/-- Both functions end so: with a body there is one message, without one another. -/
def recvContent {α : Type} (withBody : List UInt8 → α) (bare : α) (bodyLength : ℤ)
    (data : List UInt8) (s : Stream) : Option α × Stream :=
  if bodyLength > 0 then
    match recvBody bodyLength data s with
    | (none, s) => (none, s)
    | (some body, s) => (some (withBody body), s)
  else (some bare, s)

variable {α : Type} {withBody : List UInt8 → α} {bare : α}

theorem recvContent_of_within (hc : s.connected = true) (h : left ++ s.pending = body ++ rest)
    (hfits : body.length < 2 ^ 63) (hw : Within left.length body.length) :
    recvContent withBody bare body.length left s =
      (some (if 0 < body.length then withBody body else bare),
        s.skip (body.length - left.length)) := by
  by_cases hpos : 0 < body.length
  · have hpos' : (body.length : ℤ) > 0 := by omega
    simp only [recvContent, hpos', if_true, recvBody_of_within hc h hfits hw, hpos]
  · have hpos' : ¬ (body.length : ℤ) > 0 := by omega
    have hzero : body.length - left.length = 0 := by omega
    simp only [recvContent, hpos', if_false, hpos, hzero, Stream.skip_zero]

theorem within_of_recvContent (hc : s.connected = true) (h : left ++ s.pending = body ++ rest)
    (hfits : body.length < 2 ^ 63) {x : α} {s' : Stream}
    (hrecv : recvContent withBody bare body.length left s = (some x, s'))
    (hrest : s'.pending = rest) : Within left.length body.length := by
  unfold recvContent at hrecv
  split at hrecv
  · cases hbody : recvBody body.length left s with
    | mk result s₁ =>
      rw [hbody] at hrecv
      cases result with
      | none => cases hrecv
      | some text =>
        simp only [Prod.mk.injEq] at hrecv
        rw [hrecv.2] at hbody
        exact within_of_recvBody hc h hfits hbody hrest
  · have hlen := congrArg List.length h
    rw [List.length_append, List.length_append] at hlen
    simp only [Prod.mk.injEq] at hrecv
    rw [hrecv.2, hrest] at hlen
    exact ⟨by omega, by omega⟩

theorem int64_of_lt {n : ℕ} (h : n < 2 ^ 63) : (n : ℤ).bmod (2 ^ 64) = n := by
  apply Int.bmod_eq_of_le <;> omega

end Bodies

/-!
## Behind the header
-/

section Content

variable {s : Stream} {header body rest : List UInt8} {n : ℕ} {α : Type}
  {withBody : List UInt8 → α} {bare : α}

/-- What a read that covers the header leaves in the buffer. -/
def leftOver (n : ℕ) (header tail : List UInt8) : List UInt8 := tail.take (n - header.length)

/-- A read that covers the header. -/
structure Covers (n : ℕ) (s : Stream) (header tail : List UInt8) : Prop where
  isOpen : s.connected = true
  pending : s.pending = header ++ tail
  header : header.length ≤ n
  read : n ≤ s.pending.length

theorem Covers.splits {tail : List UInt8} (h : Covers n s header tail) :
    (leftOver n header tail).length = n - header.length ∧
      leftOver n header tail ++ (s.skip n).pending = tail := by
  have hread := h.read
  rw [h.pending, List.length_append] at hread
  constructor
  · rw [leftOver, List.length_take]
    omega
  · rw [leftOver, Stream.pending_skip, h.pending, List.drop_append,
      List.drop_eq_nil_of_le h.header, List.nil_append, List.take_append_drop]

theorem Covers.within_iff (h : Covers n s header (body ++ rest)) :
    Within n (header ++ body).length ↔
      Within (leftOver n header (body ++ rest)).length body.length := by
  rw [h.splits.1, List.length_append, within_add h.header]

theorem Covers.recvContent_eq (h : Covers n s header (body ++ rest))
    (hfits : body.length < 2 ^ 63) (hw : Within n (header ++ body).length) :
    recvContent withBody bare body.length (leftOver n header (body ++ rest)) (s.skip n) =
      (some (if 0 < body.length then withBody body else bare),
        s.skip (header ++ body).length) := by
  have hcovered := h.header
  have hle := hw.1
  rw [List.length_append] at hle
  have hskip : n + (body.length - (n - header.length)) = header.length + body.length := by omega
  have hopen : (s.skip n).connected = true := h.isOpen
  rw [recvContent_of_within hopen h.splits.2 hfits (h.within_iff.1 hw), h.splits.1,
    Stream.skip_skip, hskip, List.length_append]

theorem Covers.within (h : Covers n s header (body ++ rest)) (hfits : body.length < 2 ^ 63)
    {x : α} {s' : Stream} (hrecv : recvContent withBody bare body.length
      (leftOver n header (body ++ rest)) (s.skip n) = (some x, s'))
    (hrest : s'.pending = rest) : Within n (header ++ body).length := by
  have hopen : (s.skip n).connected = true := h.isOpen
  exact h.within_iff.2 (within_of_recvContent hopen h.splits.2 hfits hrecv hrest)

end Content

theorem covers_firstRead {s : Stream} {header tail : List UInt8} {buffSize : ℕ}
    (hc : s.connected = true) (hp : s.pending = header ++ tail)
    (hread : header.length ≤ firstRead buffSize s) (hpos : 0 < header.length) :
    Covers (firstRead buffSize s) s header tail ∧
      s.read buffSize = ((firstRead buffSize s : ℤ), s.pending.take (firstRead buffSize s),
        s.skip (firstRead buffSize s)) := by
  have hne : s.pending ≠ [] := by
    apply List.ne_nil_of_length_pos
    rw [hp, List.length_append]
    exact Nat.add_pos_left hpos _
  obtain ⟨hle, hfirst⟩ := read_firstRead hc hne (lt_of_lt_of_le hpos hread)
  exact ⟨⟨hc, hp, hread, hle⟩, hfirst⟩

/-!
## Requests
-/

/-- A request as its header and its content-length delimit it, and the memory that the parser of
the call finds. No string is as long as 2^63. -/
structure Request (lexicalCast : List UInt8 → Option UInt64) where
  uriRelaxed : Bool
  header : List UInt8
  body : List UInt8
  parser : HttpSession.HttpRequestParser
  accepted : HttpSegmentation.Accepts uriRelaxed header parser
  length : (parser.getContentLength lexicalCast).toNat = body.length
  fits : body.length < 2 ^ 63

namespace Request

variable {lexicalCast : List UInt8 → Option UInt64} {s : Stream} {rest tail : List UInt8}
  {buffSize : ℕ}

def bytes (m : Request lexicalCast) : List UInt8 := m.header ++ m.body

def request (m : Request lexicalCast) : HttpRequest :=
  HttpSegmentation.requestOf lexicalCast m.parser m.body

theorem recvRest_eq (m : Request lexicalCast) (q : HttpParser) (data : List UInt8) (s : Stream) :
    HttpSession.recvRest lexicalCast ⟨q, m.parser.collected⟩ data s =
      recvContent (fun body => { m.parser.collected.data with body := body }.init)
        m.parser.collected.data.init m.body.length data s := by
  have hlength : ((HttpSession.HttpRequestParser.mk q m.parser.collected).getContentLength
      lexicalCast).toNat = m.body.length := m.length
  unfold HttpSession.recvRest
  rw [hlength, int64_of_lt m.fits]
  rfl

theorem request_eq (m : Request lexicalCast) :
    m.request = if 0 < m.body.length then
      { m.parser.collected.data with body := m.body }.init else m.parser.collected.data.init := by
  unfold request requestOf
  rw [m.length, List.take_length]

/-- The first read as a pass of the loop. -/
theorem pass_firstRead (m : Request lexicalCast) (hsize : buffSize < 2 ^ 31)
    (hw : Wellformed m.uriRelaxed m.header m.parser.collected) (hc : s.connected = true)
    (hp : s.pending = m.header ++ tail) (hread : m.header.length ≤ firstRead buffSize s) :
    ∃ q calls, Reading m.uriRelaxed m.header tail 0 State.initial .init
        (httpParserInit m.uriRelaxed) s ∧
      Pass m.uriRelaxed (m.header ++ tail) 0 State.initial .init (httpParserInit m.uriRelaxed) s
        buffSize (firstRead buffSize s) (s.skip (firstRead buffSize s)) q calls := by
  have hreading : Reading m.uriRelaxed m.header tail 0 State.initial .init
      (httpParserInit m.uriRelaxed) s :=
    ⟨parked_init m.uriRelaxed, hw.pos, hw.ended, hw.walked, hw.accepting, hc, hp⟩
  have hpos : 0 < buffSize := lt_of_lt_of_le hw.pos (hread.trans firstRead_le)
  obtain ⟨k, s', q, calls, hpass⟩ := hreading.pass hpos hsize
  obtain ⟨-, hfirst⟩ := covers_firstRead hc hp hread hw.pos
  rw [hpass.read] at hfirst
  simp only [Prod.mk.injEq, Int.natCast_inj] at hfirst
  obtain ⟨rfl, -, rfl⟩ := hfirst
  exact ⟨q, calls, hreading, hpass⟩

theorem recvHeader_unsplit (m : Request lexicalCast) (hsize : buffSize < 2 ^ 31)
    (hc : s.connected = true) (hp : s.pending = m.header ++ tail)
    (hread : m.header.length ≤ firstRead buffSize s) :
    ∃ q given, HttpSession.recvHeader buffSize (s.pending.length + 1) (.new m.uriRelaxed) 0 [] s =
      .ok (some (⟨q, m.parser.collected⟩, leftOver (firstRead buffSize s) m.header tail),
        s.skip (firstRead buffSize s), given) := by
  have hw := m.accepted.wellformed (lt_of_le_of_lt (hread.trans firstRead_le) hsize)
  obtain ⟨q, calls, hreading, hpass⟩ := m.pass_firstRead hsize hw hc hp hread
  obtain ⟨hwalk, hfinish, herror⟩ := hreading.last hpass (by omega)
  rw [show m.header.drop 0 = m.header from List.drop_zero] at hwalk
  have hinside : ∀ t ∈ (walk m.uriRelaxed State.initial 0 .init m.header).tokens,
      0 ≤ t.since ∧ t.stop ≤ 0 + firstRead buffSize s := by
    intro t ht
    have hstop := hw.stop t ht
    omega
  -- The read ends behind the header, and so inside no token.
  have hagree := hpass.agree
  have hcollect := hpass.collect
  rw [hwalk] at hagree hcollect
  have hfold := hcollect ((right_iff hagree hw.inside).2 hinside)
    (HttpSession.HttpRequestParser.new m.uriRelaxed).collected
  have hleft : (((m.header ++ tail).drop 0).take (firstRead buffSize s)).drop
      (m.header.length - 0) = leftOver (firstRead buffSize s) m.header tail := by
    rw [List.drop_zero, Nat.sub_zero, List.drop_take, List.drop_left, leftOver]
  have hdata : collect (m.header ++ tail)
      (HttpSession.HttpRequestParser.new m.uriRelaxed).collected
      (walk m.uriRelaxed State.initial 0 .init m.header).tokens = .ok m.parser.collected :=
    hw.collect tail
  have hlast := recvHeader_last hpass hsize hw.pos (by rw [hwalk]; exact hw.walked) hfinish herror
    s.pending.length (HttpSession.HttpRequestParser.new m.uriRelaxed).collected
  rw [hfold, hleft, hdata] at hlast
  simp only [Except.bind, hw.noError, ne_eq, not_true_eq_false, if_false] at hlast
  exact ⟨q, _, hlast⟩

theorem recvRequest_unsplit (m : Request lexicalCast) (hsize : buffSize < 2 ^ 31)
    (hc : s.connected = true) (hp : s.pending = m.header ++ tail)
    (hread : m.header.length ≤ firstRead buffSize s) :
    ∃ given, HttpSession.recvRequest lexicalCast buffSize m.uriRelaxed s =
      let r := recvContent (fun body => { m.parser.collected.data with body := body }.init)
        m.parser.collected.data.init m.body.length
        (leftOver (firstRead buffSize s) m.header tail) (s.skip (firstRead buffSize s))
      .ok (r.1, r.2, given) := by
  obtain ⟨q, given, hheader⟩ := m.recvHeader_unsplit hsize hc hp hread
  refine ⟨given, ?_⟩
  rw [recvRequest_of_header hheader, m.recvRest_eq]

theorem covered (m : Request lexicalCast) (hsize : buffSize < 2 ^ 31) (hc : s.connected = true)
    (hp : s.pending = m.header ++ tail) (hread : m.header.length ≤ firstRead buffSize s) :
    Covers (firstRead buffSize s) s m.header tail :=
  (covers_firstRead hc hp hread
    (m.accepted.wellformed (lt_of_le_of_lt (hread.trans firstRead_le) hsize)).pos).1

theorem recvRequest_of_within (m : Request lexicalCast) (hsize : buffSize < 2 ^ 31)
    (hc : s.connected = true) (hp : s.pending = m.bytes ++ rest)
    (hread : m.header.length ≤ firstRead buffSize s)
    (hw : Within (firstRead buffSize s) m.bytes.length) :
    ∃ given, HttpSession.recvRequest lexicalCast buffSize m.uriRelaxed s =
      .ok (some m.request, s.skip m.bytes.length, given) := by
  rw [bytes, List.append_assoc] at hp
  obtain ⟨given, hrecv⟩ := m.recvRequest_unsplit hsize hc hp hread
  refine ⟨given, ?_⟩
  rw [hrecv, (m.covered hsize hc hp hread).recvContent_eq m.fits hw, request_eq, bytes]

theorem within_of_recvRequest (m : Request lexicalCast) (hsize : buffSize < 2 ^ 31)
    (hc : s.connected = true) (hp : s.pending = m.bytes ++ rest)
    (hread : m.header.length ≤ firstRead buffSize s) {request : HttpRequest} {s' : Stream}
    {given : List HttpSession.Given}
    (h : HttpSession.recvRequest lexicalCast buffSize m.uriRelaxed s =
      .ok (some request, s', given)) (hrest : s'.pending = rest) :
    Within (firstRead buffSize s) m.bytes.length := by
  rw [bytes, List.append_assoc] at hp
  obtain ⟨given', hrecv⟩ := m.recvRequest_unsplit hsize hc hp hread
  rw [hrecv] at h
  simp only [Except.ok.injEq, Prod.mk.injEq] at h
  exact (m.covered hsize hc hp hread).within m.fits (Prod.ext h.1 h.2.1) hrest

end Request

/-!
## Responses
-/

section Accepted

variable {s : Stream} {status : Option ℤ} {header tail : List UInt8}
  {p : HttpConnection.HttpResponseParser} {buffSize : ℕ}

/-- A pass in which the parser gets to the end of the header. -/
theorem recvHeader_done {fuel n : ℕ} {parser parser' : HttpConnection.HttpResponseParser}
    {data bytes : List UInt8} {s' : Stream} {len : ℤ}
    (hread : s.read (buffSize - data.length) = (len, bytes, s')) (hlen : ¬ len ≤ 0)
    (hexec : parser.execute (data ++ bytes) false = .ok (parser', n))
    (herror : parser'.hasError = false)
    (hfull : ¬ (((data ++ bytes).drop n).length : ℤ) = Stream.toInt buffSize)
    (hfinished : parser'.isFinished ≠ 0) :
    HttpConnection.recvHeader buffSize (fuel + 1) parser data s =
      .ok (some (parser', (data ++ bytes).drop n), s') := by
  unfold HttpConnection.recvHeader
  rw [hread]
  dsimp only
  rw [if_neg hlen, hexec]
  simp only [bind, Except.bind]
  rw [if_neg (by rw [herror]; decide), if_neg hfull, if_pos hfinished]

/-- A header that the first read gets as a whole. -/
theorem recvHeader_accepted (ha : HttpClientHeader.Accepts status header p)
    (hsize : buffSize < 2 ^ 31) (hc : s.connected = true) (hp : s.pending = header ++ tail)
    (hread : header.length ≤ firstRead buffSize s) :
    ∃ q, HttpConnection.recvHeader buffSize (s.pending.length + 1) (.new status) [] s =
      .ok (some (⟨q, p.collected⟩, leftOver (firstRead buffSize s) header tail),
        s.skip (firstRead buffSize s)) ∧ q.chunked = p.parser.chunked := by
  obtain ⟨hcovers, hfirst⟩ := covers_firstRead hc hp hread ha.pos
  have hchunk : s.pending.take (firstRead buffSize s) =
      header ++ leftOver (firstRead buffSize s) header tail := by
    rw [hp, List.take_append, List.take_of_length_le hread, leftOver]
  have hlen := hcovers.splits.1
  have hle : firstRead buffSize s ≤ buffSize := firstRead_le
  have hpos := ha.pos
  have hshort : (header ++ leftOver (firstRead buffSize s) header tail).length < 2 ^ 31 := by
    rw [List.length_append, hlen]
    omega
  obtain ⟨q, hexec, herror, hfinished, hchunked⟩ := ha.execute_append hshort
  have hgot : ¬ ((firstRead buffSize s : ℕ) : ℤ) ≤ 0 := by omega
  have hleft : (header ++ leftOver (firstRead buffSize s) header tail).drop
      header.length = leftOver (firstRead buffSize s) header tail := List.drop_left
  have hfull : ¬ ((leftOver (firstRead buffSize s) header tail).length : ℤ) =
      Stream.toInt buffSize := by
    rw [Stream.toInt_of_lt hsize, hlen]
    omega
  rw [← hleft] at hfull
  rw [hchunk] at hfirst
  refine ⟨q, ?_, hchunked⟩
  have hdone : HttpConnection.recvHeader buffSize (s.pending.length + 1) (.new status) [] s = _ :=
    recvHeader_done hfirst hgot hexec herror hfull hfinished
  rw [List.nil_append, hleft] at hdone
  exact hdone

end Accepted

/-- A response that is not chunked, as its header and its content-length delimit it, and the
memory that the parser of the call finds. -/
structure Response (lexicalCast : List UInt8 → Option UInt64) where
  status : Option ℤ
  header : List UInt8
  body : List UInt8
  parser : HttpConnection.HttpResponseParser
  accepted : HttpClientHeader.Accepts status header parser
  whole : parser.parser.chunked = false
  length : (parser.getContentLength lexicalCast).toNat = body.length
  fits : body.length < 2 ^ 63

namespace Response

variable {lexicalCast : List UInt8 → Option UInt64} {s : Stream} {rest tail : List UInt8}
  {buffSize : ℕ}

def bytes (m : Response lexicalCast) : List UInt8 := m.header ++ m.body

def response (m : Response lexicalCast) : HttpResponse :=
  HttpConnection.withBody m.parser.collected.data m.body

theorem recvRest_eq (m : Response lexicalCast) (q : HttpClientParser.HttpclientParser)
    (data : List UInt8) (s : Stream) :
    HttpConnection.recvRest lexicalCast ⟨q, m.parser.collected⟩ data s =
      recvContent (HttpConnection.withBody m.parser.collected.data) m.parser.collected.data
        m.body.length data s := by
  have hlength : ((HttpConnection.HttpResponseParser.mk q m.parser.collected).getContentLength
      lexicalCast).toNat = m.body.length := m.length
  unfold HttpConnection.recvRest
  rw [hlength, int64_of_lt m.fits]
  rfl

theorem response_eq (m : Response lexicalCast) :
    m.response = if 0 < m.body.length then HttpConnection.withBody m.parser.collected.data m.body
      else m.parser.collected.data := by
  split
  · rfl
  · rename_i hpos
    have hnil : m.body = [] := List.length_eq_zero_iff.1 (Nat.eq_zero_of_not_pos hpos)
    simp [response, HttpConnection.withBody, hnil]

theorem covered (m : Response lexicalCast) (hc : s.connected = true)
    (hp : s.pending = m.header ++ tail) (hread : m.header.length ≤ firstRead buffSize s) :
    Covers (firstRead buffSize s) s m.header tail :=
  (covers_firstRead hc hp hread m.accepted.pos).1

theorem recvHeader_unsplit (m : Response lexicalCast) (hsize : buffSize < 2 ^ 31)
    (hc : s.connected = true) (hp : s.pending = m.header ++ tail)
    (hread : m.header.length ≤ firstRead buffSize s) :
    ∃ q, HttpConnection.recvHeader buffSize (s.pending.length + 1) (.new m.status) [] s =
      .ok (some (⟨q, m.parser.collected⟩, leftOver (firstRead buffSize s) m.header tail),
        s.skip (firstRead buffSize s)) ∧ q.chunked = false := by
  obtain ⟨q, hheader, hchunked⟩ := recvHeader_accepted m.accepted hsize hc hp hread
  exact ⟨q, hheader, hchunked.trans m.whole⟩

theorem recvResponse_unsplit (m : Response lexicalCast) (hsize : buffSize < 2 ^ 31)
    (hc : s.connected = true) (hp : s.pending = m.header ++ tail)
    (hread : m.header.length ≤ firstRead buffSize s) :
    HttpConnection.recvResponse lexicalCast buffSize m.status s =
      .ok (recvContent (HttpConnection.withBody m.parser.collected.data) m.parser.collected.data
        m.body.length (leftOver (firstRead buffSize s) m.header tail)
        (s.skip (firstRead buffSize s))) := by
  obtain ⟨q, hheader, hchunked⟩ := m.recvHeader_unsplit hsize hc hp hread
  simp only [HttpConnection.recvResponse, hheader, bind, Except.bind, hchunked,
    Bool.false_eq_true, if_false, m.recvRest_eq]

theorem recvResponse_of_within (m : Response lexicalCast) (hsize : buffSize < 2 ^ 31)
    (hc : s.connected = true) (hp : s.pending = m.bytes ++ rest)
    (hread : m.header.length ≤ firstRead buffSize s)
    (hw : Within (firstRead buffSize s) m.bytes.length) :
    HttpConnection.recvResponse lexicalCast buffSize m.status s =
      .ok (some m.response, s.skip m.bytes.length) := by
  rw [bytes, List.append_assoc] at hp
  rw [m.recvResponse_unsplit hsize hc hp hread, (m.covered hc hp hread).recvContent_eq m.fits hw,
    response_eq, bytes]

theorem within_of_recvResponse (m : Response lexicalCast) (hsize : buffSize < 2 ^ 31)
    (hc : s.connected = true) (hp : s.pending = m.bytes ++ rest)
    (hread : m.header.length ≤ firstRead buffSize s) {response : HttpResponse} {s' : Stream}
    (h : HttpConnection.recvResponse lexicalCast buffSize m.status s = .ok (some response, s'))
    (hrest : s'.pending = rest) : Within (firstRead buffSize s) m.bytes.length := by
  rw [bytes, List.append_assoc] at hp
  rw [m.recvResponse_unsplit hsize hc hp hread, Except.ok.injEq] at h
  exact (m.covered hc hp hread).within m.fits h hrest

end Response

/-!
## Runs
-/

section Runs

variable {lexicalCast : List UInt8 → Option UInt64} {buffSize : ℕ}

/-- Successive calls as `handleClient` makes them: each with the memory that its parser finds, and
each request is answered. -/
def recvRequests (lexicalCast : List UInt8 → Option UInt64) (buffSize : ℕ)
    (respond : HttpRequest → List UInt8) :
    List Bool → Stream → Except Fault (List HttpRequest × Stream)
  | [], s => .ok ([], s)
  | uriRelaxed :: more, s => do
    let (request, s, _) ← HttpSession.recvRequest lexicalCast buffSize uriRelaxed s
    match request with
    | none => .ok ([], s)
    | some request =>
      let (requests, s) ←
        recvRequests lexicalCast buffSize respond more (s.writeFixSize (respond request)).2
      .ok (request :: requests, s)

/-- The reads of the headers, each at the start of its message, get no byte of the next one. -/
def Paced (buffSize : ℕ) : List (Request lexicalCast) → Stream → Prop
  | [], _ => True
  | m :: ms, s =>
    m.header.length ≤ firstRead buffSize s ∧ Within (firstRead buffSize s) m.bytes.length ∧
      Paced buffSize ms (s.skip m.bytes.length)

theorem firstRead_wrote (s : Stream) (accepts : List Int32) (bytes : List UInt8) :
    firstRead buffSize (s.wrote accepts bytes) = firstRead buffSize s := by
  obtain ⟨connected, incoming, readEnd, accepts', outgoing⟩ := s
  cases connected with
  | false => rfl
  | true =>
    cases incoming with
    | nil => rfl
    | cons seg more =>
      by_cases h : buffSize < seg.1.length
      · simp [firstRead, Stream.read, Stream.wrote, h]
      · simp [firstRead, Stream.read, Stream.wrote, h]

theorem Paced.wrote {ms : List (Request lexicalCast)} {s : Stream} (h : Paced buffSize ms s)
    (accepts : List Int32) (bytes : List UInt8) : Paced buffSize ms (s.wrote accepts bytes) := by
  induction ms generalizing s with
  | nil => trivial
  | cons m ms ih =>
    obtain ⟨hread, hw, hrest⟩ := h
    rw [← firstRead_wrote s accepts bytes] at hread hw
    exact ⟨hread, hw, ih hrest⟩

/-- One call after the other returns its request, and none is lost. -/
theorem recvRequests_of_paced (hsize : buffSize < 2 ^ 31) (respond : HttpRequest → List UInt8)
    {ms : List (Request lexicalCast)} {s : Stream} {rest : List UInt8} (hc : s.connected = true)
    (hp : s.pending = ms.flatMap Request.bytes ++ rest) (h : Paced buffSize ms s) :
    ∃ s', recvRequests lexicalCast buffSize respond (ms.map Request.uriRelaxed) s =
      .ok (ms.map Request.request, s') ∧ s'.connected = true ∧ s'.pending = rest := by
  induction ms generalizing s with
  | nil => exact ⟨s, rfl, hc, hp⟩
  | cons m ms ih =>
    obtain ⟨hread, hw, hpaced⟩ := h
    rw [List.flatMap_cons, List.append_assoc] at hp
    obtain ⟨given, hrecv⟩ := m.recvRequest_of_within hsize hc hp hread hw
    obtain ⟨accepts, bytes, hwrite⟩ :=
      (s.skip m.bytes.length).writeFixSize_wrote (respond m.request)
    have hnext : ((s.skip m.bytes.length).wrote accepts bytes).pending =
        ms.flatMap Request.bytes ++ rest := by
      change (s.skip m.bytes.length).pending = _
      rw [Stream.pending_skip, hp, List.drop_left]
    have hopen : ((s.skip m.bytes.length).wrote accepts bytes).connected = true := hc
    obtain ⟨s', hmore, hopen', hrest⟩ := ih hopen hnext (hpaced.wrote accepts bytes)
    refine ⟨s', ?_, hopen', hrest⟩
    simp only [List.map_cons, recvRequests, hrecv, bind, Except.bind, hwrite, hmore]

/-- One message, exactly its bytes: if and only if the read of its header gets no byte behind
it. So requests one behind the other are returned one by one, and whatever follows them is still
to come, if this holds in front of every call. -/
theorem oneMessage_iff_within (lexicalCast : List UInt8 → Option UInt64)
    (hsize : buffSize < 2 ^ 31) {s : Stream} (hc : s.connected = true) (rest : List UInt8) :
    (∀ m : Request lexicalCast, s.pending = m.bytes ++ rest →
      m.header.length ≤ firstRead buffSize s →
      ((∃ s' given, HttpSession.recvRequest lexicalCast buffSize m.uriRelaxed s =
          .ok (some m.request, s', given) ∧ s'.connected = true ∧ s'.pending = rest) ↔
        Within (firstRead buffSize s) m.bytes.length)) ∧
    (∀ m : Response lexicalCast, s.pending = m.bytes ++ rest →
      m.header.length ≤ firstRead buffSize s →
      ((∃ s', HttpConnection.recvResponse lexicalCast buffSize m.status s =
          .ok (some m.response, s') ∧ s'.connected = true ∧ s'.pending = rest) ↔
        Within (firstRead buffSize s) m.bytes.length)) ∧
    ∀ (respond : HttpRequest → List UInt8) (ms : List (Request lexicalCast)),
      s.pending = ms.flatMap Request.bytes ++ rest → Paced buffSize ms s →
      ∃ s', recvRequests lexicalCast buffSize respond (ms.map Request.uriRelaxed) s =
        .ok (ms.map Request.request, s') ∧ s'.connected = true ∧ s'.pending = rest := by
  refine ⟨?_, ?_, ?_⟩
  · intro m hp hread
    constructor
    · rintro ⟨s', given, hrecv, -, hrest⟩
      exact m.within_of_recvRequest hsize hc hp hread hrecv hrest
    · intro hw
      obtain ⟨given, hrecv⟩ := m.recvRequest_of_within hsize hc hp hread hw
      refine ⟨s.skip m.bytes.length, given, hrecv, hc, ?_⟩
      rw [Stream.pending_skip, hp, List.drop_left]
  · intro m hp hread
    constructor
    · rintro ⟨s', hrecv, -, hrest⟩
      exact m.within_of_recvResponse hsize hc hp hread hrecv hrest
    · intro hw
      refine ⟨s.skip m.bytes.length, m.recvResponse_of_within hsize hc hp hread hw, hc, ?_⟩
      rw [Stream.pending_skip, hp, List.drop_left]
  · intro respond ms hp hpaced
    exact recvRequests_of_paced hsize respond hc hp hpaced

end Runs

section Pipelined

theorem exists_request (header body : List UInt8)
    (h : ((HttpSession.HttpRequestParser.new false).execute header).toOption.map (fun x =>
      (x.2.1, x.1.hasError, x.1.isFinished, (x.1.getContentLength decimal).toNat)) =
        some (header.length, false, 1, body.length)) (hfits : body.length < 2 ^ 63) :
    ∃ m : Request decimal, m.uriRelaxed = false ∧ m.header = header ∧ m.body = body := by
  obtain ⟨p, ha, hlength⟩ := accepts_of_run h
  exact ⟨⟨false, header, body, p, ha, hlength, hfits⟩, rfl, rfl, rfl⟩

theorem exists_response (header body : List UInt8)
    (h : ((HttpConnection.HttpResponseParser.new none).execute header false).toOption.map (fun x =>
      (x.2, x.1.hasError, x.1.isFinished, x.1.parser.chunked,
        (x.1.getContentLength decimal).toNat)) =
        some (header.length, false, 1, false, body.length)) (hfits : body.length < 2 ^ 63) :
    ∃ m : Response decimal, m.status = none ∧ m.header = header ∧ m.body = body := by
  cases hexec : (HttpConnection.HttpResponseParser.new none).execute header false with
  | error f =>
    rw [hexec] at h
    cases h
  | ok x =>
    obtain ⟨p, n⟩ := x
    rw [hexec] at h
    simp only [Except.toOption, Option.map_some, Option.some.injEq, Prod.mk.injEq] at h
    obtain ⟨rfl, herror, hfinished, hchunked, hlength⟩ := h
    exact ⟨⟨none, header, body, p, ⟨hexec, herror, by rw [hfinished]; decide⟩, hchunked, hlength,
      hfits⟩, rfl, rfl, rfl⟩

def getRequest : List UInt8 := bytes "GET / HTTP/1.1\r\n\r\n"

theorem exists_getRequest :
    ∃ m : Request decimal, m.uriRelaxed = false ∧ m.header = getRequest ∧ m.body = [] :=
  exists_request getRequest [] (by decide +kernel) (by decide)

def okHeader : List UInt8 := bytes "HTTP/1.1 200 OK\r\nContent-Length: 2\r\n\r\n"

/-- A masked frame with a text of two bytes. -/
def helloFrame : List UInt8 := [0x81, 0x82, 0, 0, 0, 0, 104, 105]

/-- The first read gets a byte of the body, and none of the next request or frame. -/
def pacedRequests : Stream :=
  arriving [⟨postHeader ++ bytes "o", by decide⟩, ⟨bytes "k", by decide⟩, ⟨getRequest, by decide⟩,
    ⟨helloFrame, by decide⟩]

def pacedResponses : Stream :=
  arriving [⟨okHeader ++ bytes "o", by decide⟩, ⟨bytes "k", by decide⟩, ⟨okHeader, by decide⟩]

theorem oneMessage_paced :
    (∃ m m' : Request decimal, m.header = postHeader ∧ m.body = bytes "ok" ∧
      m'.header = getRequest ∧ m'.body = [] ∧
      (∃ s' given, HttpSession.recvRequest decimal 4096 m.uriRelaxed pacedRequests =
        .ok (some m.request, s', given) ∧ s'.connected = true ∧
          s'.pending = getRequest ++ helloFrame) ∧
      ∃ s', recvRequests decimal 4096 (fun _ => bytes "HTTP/1.1 200 OK\r\n\r\n")
          ([m, m'].map Request.uriRelaxed) pacedRequests = .ok ([m, m'].map Request.request, s') ∧
        s'.connected = true ∧ s'.pending = helloFrame) ∧
    ∃ m : Response decimal, m.header = okHeader ∧ m.body = bytes "ok" ∧
      ∃ s', HttpConnection.recvResponse decimal 4096 m.status pacedResponses =
        .ok (some m.response, s') ∧ s'.connected = true ∧ s'.pending = okHeader := by
  obtain ⟨m, hm, hheader, hbody⟩ :=
    exists_request postHeader (bytes "ok") (by decide +kernel) (by decide)
  obtain ⟨m', hm', hheader', hbody'⟩ := exists_getRequest
  obtain ⟨r, hr, hrheader, hrbody⟩ :=
    exists_response okHeader (bytes "ok") (by decide +kernel) (by decide)
  refine ⟨⟨m, m', hheader, hbody, hheader', hbody', ?_, ?_⟩, r, hrheader, hrbody, ?_⟩
  · refine ((oneMessage_iff_within decimal (by decide) rfl (getRequest ++ helloFrame)).1 m ?_
      ?_).2 ?_
    · rw [Request.bytes, hheader, hbody]
      decide +kernel
    · rw [hheader]
      decide +kernel
    · rw [Request.bytes, hheader, hbody]
      decide +kernel
  · apply (oneMessage_iff_within decimal (by decide) rfl helloFrame).2.2
    · simp only [List.flatMap_cons, List.flatMap_nil, Request.bytes, hheader, hbody, hheader',
        hbody']
      decide +kernel
    · simp only [Paced, Request.bytes, hheader, hbody, hheader', hbody']
      refine ⟨?_, ?_, ?_, ?_, trivial⟩ <;> decide +kernel
  · refine ((oneMessage_iff_within decimal (by decide) rfl okHeader).2.1 r ?_ ?_).2 ?_
    · rw [Response.bytes, hrheader, hrbody]
      decide +kernel
    · rw [hrheader]
      decide +kernel
    · rw [Response.bytes, hrheader, hrbody]
      decide +kernel

/-- A request with what follows it in the same segment. -/
def together (rest : List UInt8) : Stream :=
  arriving [⟨getRequest ++ rest, by simp [getRequest, bytes]⟩]

/-- The request is returned, and the bytes behind it are gone: the next request as well as a
frame. -/
theorem together_lost :
    ∃ m : Request decimal, m.bytes = getRequest ∧ ∀ rest ∈ [getRequest, helloFrame],
      (together rest).pending = m.bytes ++ rest ∧
      m.header.length ≤ firstRead 4096 (together rest) ∧
      ¬ ∃ s' given, HttpSession.recvRequest decimal 4096 m.uriRelaxed (together rest) =
        .ok (some m.request, s', given) ∧ s'.connected = true ∧ s'.pending = rest := by
  obtain ⟨m, hm, hheader, hbody⟩ := exists_getRequest
  have hbytes : m.bytes = getRequest := by
    rw [Request.bytes, hheader, hbody, List.append_nil]
  have hlost : ∀ rest ∈ [getRequest, helloFrame],
      (HttpSession.recvRequest decimal 4096 false (together rest)).toOption.map
        (·.2.1.pending) = some [] ∧ rest ≠ [] := by decide +kernel
  have hwhole : ∀ rest ∈ [getRequest, helloFrame],
      (together rest).pending = getRequest ++ rest ∧
        getRequest.length ≤ firstRead 4096 (together rest) := by decide +kernel
  refine ⟨m, hbytes, ?_⟩
  intro rest hrest
  refine ⟨?_, ?_, ?_⟩
  · rw [hbytes]
    exact (hwhole rest hrest).1
  · rw [hheader]
    exact (hwhole rest hrest).2
  · rintro ⟨s', given, hrecv, -, hpending⟩
    obtain ⟨hgone, hne⟩ := hlost rest hrest
    rw [hm] at hrecv
    rw [hrecv] at hgone
    simp only [Except.toOption, Option.map_some, Option.some.injEq] at hgone
    exact hne (hpending.symm.trans hgone)

end Pipelined

end HttpMessages
