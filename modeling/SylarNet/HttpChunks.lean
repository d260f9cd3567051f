import SylarNet.HttpChunkSizes
import SylarNet.HttpMessages

/-!
# A response in chunks

`recvResponse` finds the chunks of a body again where no read ends inside the line with a size:
such a line is lost as far as it was in the buffer.
-/
namespace HttpChunks

open SylarHttp SylarStream HttpConnection HttpChunkSizes
open HttpSegmentation (arriving decimal)
open HttpMessages (firstRead read_spec read_some recvHeader_accepted covers_firstRead)
open HttpClientParser (HttpclientParser digitValue)
open Http11Grammar (xdigit)

/-- The size is written in digits of either case. -/
structure Chunk where
  digits : List UInt8
  content : List UInt8
  ne : digits ≠ []
  hex : ∀ d ∈ digits, xdigit d = true
  size : HttpChunkSizes.sizeOf digits = content.length
  fits : content.length < 2 ^ 31 - 2

namespace Chunk

def line (c : Chunk) : List UInt8 := c.digits ++ [13, 10]

def bytes (c : Chunk) : List UInt8 := c.line ++ c.content ++ [13, 10]

/-- The size has no leading zeros, and in the content no byte is one with which a size or a
status line begins. -/
structure Plain (c : Chunk) : Prop where
  size : c.digits.head? = some 48 → c.digits.length = 1
  content : ∀ x ∈ c.content, xdigit x = false ∧ x ≠ 72

theorem length_bytes (c : Chunk) : c.bytes.length = c.line.length + c.content.length + 2 := by
  simp only [bytes, List.length_append, List.length_cons, List.length_nil]

end Chunk

/-- The chunks of a body, and the one without content behind them. -/
structure Chunked where
  chunks : List Chunk
  last : Chunk
  nonempty : ∀ c ∈ chunks, c.content ≠ []
  ended : last.content = []

namespace Chunked

def all (b : Chunked) : List Chunk := b.chunks ++ [b.last]

def encoded (b : Chunked) : List UInt8 := b.all.flatMap Chunk.bytes

def content (b : Chunked) : List UInt8 := b.chunks.flatMap Chunk.content

end Chunked

/-- How many bytes are read at the start of a line, with `left` bytes in the buffer. -/
def taken (buffSize left : ℕ) (s : Stream) : ℕ := if left = 0 then firstRead buffSize s else 0

/-- Each line with a size is in the buffer as a whole, behind what is left there or from one read
into the empty buffer. -/
def LinesWhole (buffSize : ℕ) : List Chunk → ℕ → Stream → Prop
  | [], _, _ => True
  | c :: cs, left, s =>
    c.line.length ≤ left + taken buffSize left s ∧
      LinesWhole buffSize cs (left + taken buffSize left s - c.bytes.length)
        (s.skip (max (taken buffSize left s) (c.bytes.length - left)))

instance decidableLinesWhole (buffSize : ℕ) :
    (cs : List Chunk) → (left : ℕ) → (s : Stream) → Decidable (LinesWhole buffSize cs left s)
  | [], _, _ => .isTrue trivial
  | _ :: cs, _, _ =>
    have := decidableLinesWhole buffSize cs
    inferInstanceAs (Decidable (_ ∧ _))

/-!
## Reads
-/

/-- `text` is what is in the buffer and what is to come. -/
structure Ahead (buffSize : ℕ) (data : List UInt8) (s : Stream) (text : List UInt8) : Prop where
  isOpen : s.connected = true
  pending : data ++ s.pending = text
  fits : data.length ≤ buffSize
  small : buffSize < 2 ^ 31
  pos : 0 < buffSize

section Reads

variable {buffSize : ℕ} {data text : List UInt8} {s : Stream}

/-- The bytes that the parser gets in a pass. -/
theorem Ahead.refill (h : Ahead buffSize data s text) (hne : text ≠ []) {begin : Bool}
    (hbegin : begin = true ∨ data = []) :
    ∃ k rt, k = taken buffSize data.length s ∧ ¬ rt ≤ 0 ∧
      refill buffSize begin data s = (rt, s.pending.take k, s.skip k) ∧
      k ≤ s.pending.length ∧ 0 < data.length + k ∧ data.length + k ≤ buffSize ∧
      data ++ s.pending.take k = text.take (data.length + k) := by
  have htext (k : ℕ) : data ++ s.pending.take k = text.take (data.length + k) := by
    rw [← h.pending, List.take_length_add_append]
  by_cases hdata : data = []
  · subst hdata
    have hp : s.pending ≠ [] := by
      have := h.pending
      rw [List.nil_append] at this
      rwa [this]
    obtain ⟨k, hk, hkn, hkl, hfirst, hread⟩ := read_spec h.isOpen h.pos hp
    refine ⟨k, k, ?_, by omega, ?_, hkl, ?_, ?_, htext k⟩
    · simp [taken, hfirst]
    · simpa [HttpConnection.refill] using hread
    · simpa using hk
    · simpa using hkn
  · have hbegin : begin = true := hbegin.resolve_right hdata
    have hlength : data.length ≠ 0 := by simpa using hdata
    refine ⟨0, 1, ?_, by omega, ?_, Nat.zero_le _, by omega, ?_, htext 0⟩
    · simp [taken, hlength]
    · simp [HttpConnection.refill, hbegin, hlength]
    · simpa using h.fits

/-- While something is ahead the parser gets a byte of it, and no more than there are. -/
theorem Ahead.taken_spec (h : Ahead buffSize data s text) (hne : text ≠ []) :
    0 < data.length + taken buffSize data.length s ∧
      taken buffSize data.length s ≤ s.pending.length := by
  obtain ⟨k, -, hk, -, -, hkl, hpos, -⟩ := h.refill hne (.inl rfl)
  rw [← hk]
  exact ⟨hpos, hkl⟩

/-- Bytes parsed from the front of a buffer. -/
theorem Ahead.consumed (h : Ahead buffSize data s text) {j k : ℕ} (hk : k ≤ s.pending.length)
    (hfits : data.length + k ≤ buffSize) (hj : j ≤ data.length + k) :
    ((text.take (data.length + k)).drop j).length = data.length + k - j ∧
      Ahead buffSize ((text.take (data.length + k)).drop j) (s.skip k) (text.drop j) := by
  have hlength : (text.take (data.length + k)).length = data.length + k := by
    rw [← h.pending, List.length_take, List.length_append]
    omega
  have hskip : (s.skip k).pending = text.drop (data.length + k) := by
    rw [Stream.pending_skip, ← h.pending, List.drop_length_add_append]
  have hleft : ((text.take (data.length + k)).drop j).length = data.length + k - j := by
    rw [List.length_drop, hlength]
  refine ⟨hleft, h.isOpen, ?_, ?_, h.small, h.pos⟩
  · rw [hskip, ← List.drop_append_of_le_length (by omega), List.take_append_drop]
  · omega

end Reads

/-!
## The line with the size
-/

section Lines

variable {buffSize : ℕ} {data tail : List UInt8} {s : Stream}

/-- One pass of the loop. -/
theorem recvChunkSize_succ {fuel n : ℕ} {begin : Bool} {parser parser' : HttpResponseParser}
    {rt : ℤ} {bytes : List UInt8} {s' : Stream}
    (hread : refill buffSize begin data s = (rt, bytes, s')) (hrt : ¬ rt ≤ 0)
    (hexec : parser.execute (data ++ bytes) true = .ok (parser', n)) :
    recvChunkSize buffSize (fuel + 1) begin parser data s =
      if parser'.hasError = true then .ok (none, s'.close)
      else if (((data ++ bytes).drop n).length : ℤ) = Stream.toInt buffSize then
        .ok (none, s'.close)
      else if parser'.isFinished ≠ 0 then .ok (some (parser', (data ++ bytes).drop n), s')
      else recvChunkSize buffSize fuel false parser' ((data ++ bytes).drop n) s' := by
  change passBody parser true data (refill buffSize begin data s)
    (recvChunkSize buffSize fuel false) buffSize = _
  rw [hread, passBody, if_neg hrt, hexec]
  rfl

theorem not_full {m j : ℕ} {left : List UInt8} (hsmall : buffSize < 2 ^ 31) (hm : m ≤ buffSize)
    (hj : 0 < j) (hjm : j ≤ m) (hleft : left.length = m - j) :
    ¬ (left.length : ℤ) = Stream.toInt buffSize := by
  rw [Stream.toInt_of_lt hsmall]
  omega

/-- A whole line in the buffer. -/
theorem recvChunkSize_line {ds : List UInt8} (hds : ∀ d ∈ ds, xdigit d = true) (hne : ds ≠ [])
    {parser : HttpResponseParser} (herror : parser.collected.error = 0)
    (h : Ahead buffSize data s (ds ++ 13 :: 10 :: tail)) {begin : Bool}
    (hbegin : begin = true ∨ data = [])
    (hwhole : ds.length + 2 ≤ data.length + taken buffSize data.length s) (fuel : ℕ) :
    ∃ q data', recvChunkSize buffSize (fuel + 1) begin parser data s =
        .ok (some (⟨q, parser.collected⟩, data'), s.skip (taken buffSize data.length s)) ∧
      LineRead ds q ∧
      data'.length = data.length + taken buffSize data.length s - (ds.length + 2) ∧
      Ahead buffSize data' (s.skip (taken buffSize data.length s)) tail := by
  obtain ⟨k, rt, hk, hrt, hread, hkl, hpos, hfits, hbuffer⟩ := h.refill (by simp) hbegin
  rw [← hk] at hwhole ⊢
  obtain ⟨hleft, hahead⟩ := h.consumed hkl hfits hwhole
  have htake : (ds ++ 13 :: 10 :: tail).take (data.length + k) =
      ds ++ 13 :: 10 :: tail.take (data.length + k - (ds.length + 2)) := by
    obtain ⟨m, hm⟩ : ∃ m, data.length + k = ds.length + (m + 2) :=
      ⟨data.length + k - (ds.length + 2), by omega⟩
    have hm' : data.length + k - (ds.length + 2) = m := by omega
    rw [hm', hm, List.take_length_add_append]
    rfl
  have hshort : ((ds ++ 13 :: 10 :: tail).take (data.length + k)).length < 2 ^ 31 := by
    have hsmall := h.small
    rw [List.length_take]
    omega
  rw [htake] at hshort
  obtain ⟨q, hexec, hq⟩ := execute_line (p := parser) hds hne hshort
  rw [← htake, ← hbuffer] at hexec
  rw [← hbuffer] at hleft hahead
  have htail : (ds ++ 13 :: 10 :: tail).drop (ds.length + 2) = tail := by
    rw [List.drop_length_add_append]
    rfl
  rw [htail] at hahead
  have hok : (HttpResponseParser.mk q parser.collected).hasError ≠ true := by
    rw [ne_eq, hasError_iff, herror, hq.cs]
    simp
  have hfull := not_full h.small hfits (Nat.succ_pos _) hwhole hleft
  have hfinished : (HttpResponseParser.mk q parser.collected).isFinished ≠ 0 := by
    rw [isFinished_eq hq.cs accepting_lineSeen.1]
    decide
  refine ⟨q, _, ?_, hq, hleft, hahead⟩
  rw [recvChunkSize_succ hread hrt hexec, if_neg hok, if_neg hfull, if_pos hfinished]

end Lines

/-!
## The content
-/

section Contents

variable {buffSize : ℕ} {data text : List UInt8} {s : Stream}

theorem toNat_emod {n : ℕ} (h : n < 2 ^ 31) : ((n : ℤ) % 2 ^ 64).toNat = n := by
  rw [Int.emod_eq_of_lt (Int.natCast_nonneg n) (by omega), Int.toNat_natCast]

/-- Every pass gets at least one byte. -/
theorem recvLeft_spec {fuel left : ℕ} {body : List UInt8} (hc : s.connected = true)
    (hpos : 0 < buffSize) (hsmall : buffSize < 2 ^ 31) (hfuel : left ≤ fuel)
    (hleft : left ≤ s.pending.length) (hint : left < 2 ^ 31) :
    recvLeft buffSize fuel left body s = (some (body ++ s.pending.take left), s.skip left) := by
  induction fuel generalizing left body s with
  | zero =>
    obtain rfl : left = 0 := by omega
    simp [recvLeft]
  | succ fuel ih =>
    by_cases hzero : left = 0
    · subst hzero
      simp [recvLeft]
    · have hp : s.pending ≠ [] := by
        apply List.ne_nil_of_length_pos
        omega
      obtain ⟨k, hk, hkn, hkl, -, hread⟩ := read_spec (n := min left buffSize) hc (by omega) hp
      have hmore : (left : ℤ) > 0 := by omega
      have hleast : (if (left : ℤ) > Stream.toInt buffSize then Stream.toInt buffSize
          else left) = (min left buffSize : ℕ) := by
        rw [Stream.toInt_of_lt hsmall]
        split <;> omega
      have hlength : min left buffSize < 2 ^ 31 := by omega
      have hrt : ¬ (k : ℤ) ≤ 0 := by omega
      have hrest : (left : ℤ) - k = (left - k : ℕ) := by omega
      have hlen : left - k ≤ (s.skip k).pending.length := by
        rw [Stream.pending_skip, List.length_drop]
        omega
      have hsplit : left = k + (left - k) := by omega
      unfold recvLeft
      rw [if_pos hmore]
      simp only [hleast, toNat_emod hlength, hread, hrt, if_false, hrest]
      rw [ih (s := s.skip k) hc (by omega) hlen (by omega), Stream.pending_skip, Stream.skip_skip,
        List.append_assoc, ← List.take_add, ← hsplit]

/-- All in the buffer or not: the content, and its line end left out. -/
theorem recvChunk_spec {n : ℕ} (h : Ahead buffSize data s text) (hn : n + 2 < 2 ^ 31)
    (hle : n + 2 ≤ text.length) (body : List UInt8) :
    recvChunk buffSize n data body s =
        .ok (some (body ++ text.take n, data.drop (n + 2)), s.skip (n + 2 - data.length)) ∧
      Ahead buffSize (data.drop (n + 2)) (s.skip (n + 2 - data.length)) (text.drop (n + 2)) := by
  have hlen := congrArg List.length h.pending
  rw [List.length_append] at hlen
  constructor
  · have hint : ¬ (n : ℤ) + 2 ≥ 2 ^ 31 := by omega
    by_cases hall : n + 2 ≤ data.length
    · have hall' : (n : ℤ) + 2 ≤ data.length := by omega
      have hneg : ¬ (n : ℤ) < 0 := by omega
      have htake : text.take n = data.take n := by
        rw [← h.pending, List.take_append_of_le_length (by omega)]
      simp only [recvChunk, hint, if_false, hall', if_true, hneg, Int.toNat_natCast, htake,
        Nat.sub_eq_zero_of_le hall, Stream.skip_zero]
    · have hall' : ¬ (n : ℤ) + 2 ≤ data.length := by omega
      have hleft : (n : ℤ) - data.length + 2 = (n + 2 - data.length : ℕ) := by omega
      have hread : recvLeft buffSize (n + 2 - data.length) (n + 2 - data.length : ℕ)
          (body ++ data) s = _ :=
        recvLeft_spec h.isOpen h.pos h.small (le_refl _) (by omega) (by omega)
      have hnil : data.drop (n + 2) = [] := List.drop_eq_nil_of_le (by omega)
      have htext : data ++ s.pending.take (n + 2 - data.length) = text.take (n + 2) := by
        rw [← h.pending, List.take_append, List.take_of_length_le (by omega : data.length ≤ n + 2)]
      have hbody : withoutLineEnd (body ++ data ++ s.pending.take (n + 2 - data.length)) =
          .ok (body ++ text.take n) := by
        have hlength : (body ++ text.take (n + 2)).length = body.length + (n + 2) := by
          rw [List.length_append, List.length_take, Nat.min_eq_left hle]
        rw [List.append_assoc, htext, withoutLineEnd, hlength, if_neg (by omega),
          Nat.add_sub_assoc (by omega), Nat.add_sub_cancel, List.take_length_add_append,
          List.take_take, Nat.min_eq_left (by omega)]
      simp only [recvChunk, hint, if_false, hall', hleft, Int.toNat_natCast, hread, hbody, hnil,
        Except.map]
  · refine ⟨h.isOpen, ?_, ?_, h.small, h.pos⟩
    · rw [Stream.pending_skip, ← h.pending, List.drop_append]
    · rw [List.length_drop]
      exact le_trans (Nat.sub_le _ _) h.fits

end Contents

/-!
## Chunk by chunk
-/

section Chunks

variable {buffSize : ℕ} {data tail : List UInt8} {s : Stream} {parser : HttpResponseParser}
  {c : Chunk}

theorem bytes_append (c : Chunk) (tail : List UInt8) :
    c.bytes ++ tail = c.digits ++ 13 :: 10 :: (c.content ++ 13 :: 10 :: tail) := by
  simp only [Chunk.bytes, Chunk.line, List.append_assoc, List.cons_append, List.nil_append]

theorem length_line (c : Chunk) : c.line.length = c.digits.length + 2 := List.length_append

/-- A chunk of which the line is whole. -/
theorem recvChunks_whole (herror : parser.collected.error = 0)
    (h : Ahead buffSize data s (c.bytes ++ tail))
    (hwhole : c.line.length ≤ data.length + taken buffSize data.length s) (fuel : ℕ)
    (body : List UInt8) :
    ∃ q data', data'.length = data.length + taken buffSize data.length s - c.bytes.length ∧
      Ahead buffSize data'
        (s.skip (max (taken buffSize data.length s) (c.bytes.length - data.length))) tail ∧
      recvChunks buffSize (fuel + 1) parser data body s =
        if c.content = [] then
          .ok (some (⟨q, parser.collected⟩, body),
            s.skip (max (taken buffSize data.length s) (c.bytes.length - data.length)))
        else recvChunks buffSize fuel ⟨q, parser.collected⟩ data' (body ++ c.content)
          (s.skip (max (taken buffSize data.length s) (c.bytes.length - data.length))) := by
  have hfits := c.fits
  have hsize : HttpChunkSizes.sizeOf c.digits < 2 ^ 31 := by
    rw [c.size]
    omega
  rw [length_line] at hwhole
  rw [bytes_append] at h
  obtain ⟨q, data₁, hline, hread, hlength, hahead⟩ :=
    recvChunkSize_line c.hex c.ne herror h (.inl rfl) hwhole (s.pending.length + 1)
  have hq := hread.sizeRead hsize
  have hle : c.content.length + 2 ≤ (c.content ++ 13 :: 10 :: tail).length := by
    simp only [List.length_append, List.length_cons]
    omega
  obtain ⟨hchunk, hnext⟩ := recvChunk_spec hahead (by omega) hle body
  have hdrop : (c.content ++ 13 :: 10 :: tail).drop (c.content.length + 2) = tail := by
    rw [List.drop_length_add_append]
    rfl
  have hskip : taken buffSize data.length s + (c.content.length + 2 - data₁.length) =
      max (taken buffSize data.length s) (c.bytes.length - data.length) := by
    rw [Chunk.length_bytes, length_line]
    omega
  rw [List.take_left, Stream.skip_skip, hskip] at hchunk
  rw [hdrop, Stream.skip_skip, hskip] at hnext
  refine ⟨q, data₁.drop (c.content.length + 2), ?_, hnext, ?_⟩
  · rw [List.length_drop, Chunk.length_bytes, length_line]
    omega
  · rw [recvChunks, hline]
    simp only [bind, Except.bind, hq.contentLen, c.size, hchunk, hq.chunksDone, decide_eq_true_eq,
      List.length_eq_zero_iff]
    by_cases hnil : c.content = []
    · simp [hnil]
    · simp [hnil]

/-- All lines are whole: the contents come out one behind the other. -/
theorem recvChunks_of_whole {cs : List Chunk} {last : Chunk} {fuel : ℕ} {body : List UInt8}
    (herror : parser.collected.error = 0) (hcs : ∀ c ∈ cs, c.content ≠ [])
    (hlast : last.content = [])
    (h : Ahead buffSize data s ((cs ++ [last]).flatMap Chunk.bytes ++ tail))
    (hwhole : LinesWhole buffSize (cs ++ [last]) data.length s) (hfuel : cs.length < fuel) :
    ∃ q s', recvChunks buffSize fuel parser data body s =
      .ok (some (⟨q, parser.collected⟩, body ++ cs.flatMap Chunk.content), s') := by
  induction cs generalizing fuel parser data body s with
  | nil =>
    obtain ⟨fuel, rfl⟩ : ∃ n, fuel = n + 1 := ⟨fuel - 1, by omega⟩
    rw [List.nil_append, List.flatMap_singleton] at h
    obtain ⟨q, data', -, -, hrecv⟩ := recvChunks_whole herror h hwhole.1 fuel body
    rw [if_pos hlast] at hrecv
    rw [List.flatMap_nil, List.append_nil]
    exact ⟨q, _, hrecv⟩
  | cons c cs ih =>
    obtain ⟨fuel, rfl⟩ : ∃ n, fuel = n + 1 := ⟨fuel - 1, by omega⟩
    rw [List.forall_mem_cons] at hcs
    rw [List.cons_append, List.flatMap_cons, List.append_assoc] at h
    obtain ⟨hline, hmore⟩ := hwhole
    obtain ⟨q, data', hlength, hahead, hrecv⟩ := recvChunks_whole herror h hline fuel body
    rw [← hlength] at hmore
    rw [if_neg hcs.1] at hrecv
    rw [hrecv, List.flatMap_cons, ← List.append_assoc]
    have herror' : (HttpResponseParser.mk q parser.collected).collected.error = 0 := herror
    exact ih herror' hcs.2 hahead hmore (Nat.lt_of_succ_lt_succ hfuel)

end Chunks

/-!
## A line that is cut
-/

section Cuts

variable {buffSize : ℕ} {data text tail ds : List UInt8} {s t : Stream}
  {parser : HttpResponseParser} {begin : Bool}

theorem recvChunkSize_other {x : UInt8} (hx : xdigit x = false) (hne : x ≠ 72)
    (h : Ahead buffSize data s (x :: tail)) (hbegin : begin = true ∨ data = []) {fuel : ℕ}
    {r : HttpResponseParser × List UInt8} :
    recvChunkSize buffSize fuel begin parser data s ≠ .ok (some r, t) := by
  cases fuel with
  | zero => exact fun h => nomatch h
  | succ fuel =>
    obtain ⟨k, rt, -, hrt, hread, -, hpos, hfits, hbuffer⟩ :=
      h.refill (List.cons_ne_nil x tail) hbegin
    have hsmall := h.small
    obtain ⟨m, hm⟩ : ∃ m, data.length + k = m + 1 := ⟨data.length + k - 1, by omega⟩
    rw [hm, List.take_succ_cons] at hbuffer
    have hshort : (x :: tail.take m).length < 2 ^ 31 := by
      rw [List.length_cons, List.length_take]
      omega
    obtain ⟨q, hexec, hq⟩ := execute_other (p := parser) hx hne hshort
    rw [← hbuffer] at hexec
    have herror : (HttpResponseParser.mk q parser.collected).hasError = true :=
      hasError_iff.2 (.inr hq)
    rw [recvChunkSize_succ hread hrt hexec, if_pos herror]
    exact fun h => nomatch h

/-- A buffer that ends in the line is gone after the pass. -/
theorem recvChunkSize_part {c : List UInt8} (herror : parser.collected.error = 0)
    (h : Ahead buffSize data s text) (hne : text ≠ []) (hbegin : begin = true ∨ data = [])
    (hds : ∀ d ∈ ds, xdigit d = true) (hds' : ds ≠ []) (hc : c = [] ∨ c = [13])
    (hpart : text.take (data.length + taken buffSize data.length s) = ds ++ c) (fuel : ℕ) :
    ∃ q, recvChunkSize buffSize (fuel + 1) begin parser data s =
        recvChunkSize buffSize fuel false ⟨q, parser.collected⟩ []
          (s.skip (taken buffSize data.length s)) ∧
      Ahead buffSize [] (s.skip (taken buffSize data.length s))
        (text.drop (data.length + taken buffSize data.length s)) := by
  obtain ⟨k, rt, hk, hrt, hread, hkl, hpos, hfits, hbuffer⟩ := h.refill hne hbegin
  rw [← hk] at hpart ⊢
  obtain ⟨hleft, hahead⟩ := h.consumed hkl hfits (le_refl _)
  rw [Nat.sub_self, List.length_eq_zero_iff] at hleft
  rw [hleft] at hahead
  rw [hpart] at hbuffer
  have hlength : (ds ++ c).length ≤ buffSize := by
    rw [← hpart, List.length_take]
    exact le_trans (Nat.min_le_left _ _) hfits
  have hsmall := h.small
  obtain ⟨q, hexec, st, hcs, hacc⟩ :=
    execute_part (p := parser) hds hds' hc (lt_of_le_of_lt hlength hsmall)
  rw [← hbuffer] at hexec
  have hok : (HttpResponseParser.mk q parser.collected).hasError ≠ true := by
    rw [ne_eq, hasError_iff, herror, hcs]
    simp
  have hfull : ¬ ((([] : List UInt8).length : ℕ) : ℤ) = Stream.toInt buffSize := by
    have hpos := h.pos
    rw [Stream.toInt_of_lt hsmall, List.length_nil]
    omega
  have hfinished : ¬ (HttpResponseParser.mk q parser.collected).isFinished ≠ 0 := by
    rw [isFinished_eq hcs hacc]
    decide
  refine ⟨q, ?_, hahead⟩
  rw [recvChunkSize_succ hread hrt hexec, List.drop_length, if_neg hok, if_neg hfull,
    if_neg hfinished]

theorem sizeOf_le_of_suffix {ds' : List UInt8} (h : ds' <:+ ds) :
    HttpChunkSizes.sizeOf ds' ≤ HttpChunkSizes.sizeOf ds := by
  obtain ⟨front, rfl⟩ := h
  rw [sizeOf_append]
  exact Nat.le_add_left _ _

/-- The digits that the parser has before it when the line ends there: the whole size, or those
behind the last cut in it. A cut at the line end leaves none. -/
inductive LastPiece (buffSize : ℕ) : List UInt8 → ℕ → Stream → List UInt8 → Prop where
  | whole {ds left s} (h : ds.length + 2 ≤ left + taken buffSize left s) :
    LastPiece buffSize ds left s ds
  | cut {ds left s ds'} (h : left + taken buffSize left s < ds.length)
    (hrest : LastPiece buffSize (ds.drop (left + taken buffSize left s)) 0
      (s.skip (taken buffSize left s)) ds') : LastPiece buffSize ds left s ds'

theorem LastPiece.suffix {left : ℕ} {ds' : List UInt8} (h : LastPiece buffSize ds left s ds') :
    ds' <:+ ds ∧ (left + taken buffSize left s < ds.length + 2 →
      0 < left + taken buffSize left s → ds'.length < ds.length) := by
  induction h with
  | whole hwhole => exact ⟨List.suffix_refl _, fun hcut _ => by omega⟩
  | cut hcut _ ih =>
    refine ⟨ih.1.trans (List.drop_suffix _ _), fun _ hpos => ?_⟩
    have hlength := ih.1.length_le
    rw [List.length_drop] at hlength
    omega

/-- A buffer that ends behind digits is gone after the pass. -/
theorem recvChunkSize_digits (herror : parser.collected.error = 0)
    (hds : ∀ d ∈ ds, xdigit d = true)
    (h : Ahead buffSize data s (ds ++ 13 :: 10 :: tail)) (hbegin : begin = true ∨ data = [])
    (hpos : 0 < data.length + taken buffSize data.length s)
    (hdigits : data.length + taken buffSize data.length s ≤ ds.length) (fuel : ℕ) :
    ∃ q, recvChunkSize buffSize (fuel + 1) begin parser data s =
        recvChunkSize buffSize fuel false ⟨q, parser.collected⟩ []
          (s.skip (taken buffSize data.length s)) ∧
      Ahead buffSize [] (s.skip (taken buffSize data.length s))
        (ds.drop (data.length + taken buffSize data.length s) ++ 13 :: 10 :: tail) := by
  have hpart : (ds ++ 13 :: 10 :: tail).take (data.length + taken buffSize data.length s) =
      ds.take (data.length + taken buffSize data.length s) ++ [] := by
    rw [List.take_append_of_le_length hdigits, List.append_nil]
  have hne : ds.take (data.length + taken buffSize data.length s) ≠ [] := by
    apply List.ne_nil_of_length_pos
    rw [List.length_take]
    omega
  rw [← List.drop_append_of_le_length hdigits]
  exact recvChunkSize_part herror h (by simp) hbegin
    (fun d hd => hds d (List.mem_of_mem_take hd)) hne (.inl rfl) hpart fuel

/-- What is read as the size are its last digits. -/
theorem recvChunkSize_some (herror : parser.collected.error = 0)
    (hds : ∀ d ∈ ds, xdigit d = true)
    (h : Ahead buffSize data s (ds ++ 13 :: 10 :: tail)) (hbegin : begin = true ∨ data = [])
    {fuel : ℕ} {p : HttpResponseParser} {data' : List UInt8}
    (hrecv : recvChunkSize buffSize fuel begin parser data s = .ok (some (p, data'), t)) :
    ∃ ds', ds' ≠ [] ∧ LastPiece buffSize ds data.length s ds' ∧ LineRead ds' p.parser ∧
      Ahead buffSize data' t tail ∧ p.collected = parser.collected := by
  induction fuel generalizing begin parser data s ds with
  | zero => cases hrecv
  | succ fuel ih =>
    by_cases hne : ds = []
    · subst hne
      exact absurd hrecv (recvChunkSize_other (by decide) (by decide) h hbegin)
    · by_cases hwhole : ds.length + 2 ≤ data.length + taken buffSize data.length s
      · obtain ⟨q, left, hline, hq, -, hahead⟩ :=
          recvChunkSize_line hds hne herror h hbegin hwhole fuel
        rw [hline] at hrecv
        cases hrecv
        exact ⟨ds, hne, .whole hwhole, hq, hahead, rfl⟩
      · have htext : ds ++ 13 :: 10 :: tail ≠ [] := by simp
        obtain ⟨hpos, -⟩ := h.taken_spec htext
        by_cases hdigits : data.length + taken buffSize data.length s ≤ ds.length
        · obtain ⟨q, hpass, hahead⟩ :=
            recvChunkSize_digits herror hds h hbegin hpos hdigits fuel
          rw [hpass] at hrecv
          have herror' : (HttpResponseParser.mk q parser.collected).collected.error = 0 := herror
          obtain ⟨ds', hne', hpiece, hread, hahead', hcollected⟩ :=
            ih herror' (fun d hd => hds d (List.mem_of_mem_drop hd)) hahead (.inr rfl) hrecv
          refine ⟨ds', hne', .cut ?_ hpiece, hread, hahead', hcollected⟩
          have hlength := hpiece.suffix.1.length_le
          rw [List.length_drop] at hlength
          have hpos' := List.length_pos_iff.2 hne'
          omega
        · -- The carriage return is gone with the digits.
          have hline : data.length + taken buffSize data.length s = ds.length + 1 := by omega
          have hpart : (ds ++ 13 :: 10 :: tail).take (data.length + taken buffSize data.length s) =
              ds ++ [13] := by
            rw [hline, List.take_length_add_append]
            rfl
          obtain ⟨q, hpass, hahead⟩ :=
            recvChunkSize_part herror h htext hbegin hds hne (.inr rfl) hpart fuel
          rw [hline, List.drop_length_add_append] at hahead
          rw [hpass] at hrecv
          exact absurd hrecv (recvChunkSize_other (by decide) (by decide) hahead (.inr rfl))

theorem recvChunks_other {x : UInt8} (hx : xdigit x = false) (hne : x ≠ 72)
    (h : Ahead buffSize data s (x :: tail)) {fuel : ℕ} {body : List UInt8}
    {r : HttpResponseParser × List UInt8} :
    recvChunks buffSize fuel parser data body s ≠ .ok (some r, t) := by
  intro hrecv
  cases fuel with
  | zero => cases hrecv
  | succ fuel =>
    obtain ⟨⟨head, s'⟩, hhead, hrecv⟩ := bind_ok hrecv
    cases head with
    | none => cases hrecv
    | some r => exact recvChunkSize_other hx hne h (.inl rfl) hhead

variable {c : Chunk}

/-- Without leading zeros each digit counts. -/
theorem Chunk.Plain.sizeOf_lt (hc : c.Plain) {ds' : List UInt8} (hne : ds' ≠ [])
    (h : ds' <:+ c.digits) (hlt : ds'.length < c.digits.length) :
    HttpChunkSizes.sizeOf ds' < c.content.length := by
  have hpos := List.length_pos_iff.2 hne
  have hsize := hc.size
  have hhex := c.hex
  rw [← c.size]
  generalize c.digits = ds at h hlt hsize hhex
  cases ds with
  | nil => cases hlt
  | cons d ds =>
    rw [List.forall_mem_cons] at hhex
    have hd : d ≠ 48 := by
      rintro rfl
      rw [hsize rfl] at hlt
      omega
    have hrest : ds' <:+ ds := by
      rcases List.suffix_cons_iff.1 h with rfl | h
      · exact absurd hlt (lt_irrefl _)
      · exact h
    have hd' : 0 < digitValue d := (xdigit_facts d hhex.1).2.2.2.2.2 hd
    have hvalue : 0 < digitValue d * 16 ^ ds.length := Nat.mul_pos hd' (Nat.pow_pos (by decide))
    have hle := sizeOf_le_of_suffix hrest
    rw [sizeOf_cons]
    omega

/-- Behind too few bytes of the content and two more there is no line. -/
theorem Chunk.Plain.drop_content (hc : c.Plain) {n : ℕ} (hn : n < c.content.length)
    (tail : List UInt8) : ∃ x more, (c.content ++ 13 :: 10 :: tail).drop (n + 2) = x :: more ∧
      xdigit x = false ∧ x ≠ 72 := by
  rcases Nat.lt_trichotomy (n + 2) c.content.length with hlt | heq | hgt
  · have hdrop : (c.content ++ 13 :: 10 :: tail).drop (n + 2) =
        c.content[n + 2] :: (c.content.drop (n + 2 + 1) ++ 13 :: 10 :: tail) := by
      rw [List.drop_append_of_le_length (le_of_lt hlt), List.drop_eq_getElem_cons hlt]
      rfl
    exact ⟨_, _, hdrop, hc.content _ (List.getElem_mem hlt)⟩
  · rw [heq, List.drop_left]
    exact ⟨13, _, rfl, by decide, by decide⟩
  · have hn' : n + 2 = c.content.length + 1 := by omega
    rw [hn', List.drop_length_add_append]
    exact ⟨10, tail, rfl, by decide, by decide⟩

/-- Nothing or too little is returned. -/
theorem recvChunks_cut (hc : c.Plain) (herror : parser.collected.error = 0)
    (h : Ahead buffSize data s (c.bytes ++ tail))
    (hcut : ¬ c.line.length ≤ data.length + taken buffSize data.length s) {fuel : ℕ}
    {body body' : List UInt8} {p : HttpResponseParser}
    (hrecv : recvChunks buffSize fuel parser data body s = .ok (some (p, body'), t)) :
    p.collected = parser.collected ∧ body' = body ∧ c.content ≠ [] := by
  cases fuel with
  | zero => cases hrecv
  | succ fuel =>
    have hfits := c.fits
    have hsize : HttpChunkSizes.sizeOf c.digits < 2 ^ 31 := by
      rw [c.size]
      omega
    rw [length_line, Nat.not_le] at hcut
    rw [bytes_append] at h
    obtain ⟨⟨head, s₁⟩, hhead, hrecv⟩ := bind_ok hrecv
    cases head with
    | none => cases hrecv
    | some r =>
      obtain ⟨p₁, data₁⟩ := r
      obtain ⟨ds', hne, hpiece, hread, hahead, hcollected⟩ :=
        recvChunkSize_some herror c.hex h (.inl rfl) hhead
      obtain ⟨hds', hshorter⟩ := hpiece.suffix
      have hq := hread.sizeRead (lt_of_le_of_lt (sizeOf_le_of_suffix hds') hsize)
      obtain ⟨hpos, -⟩ := h.taken_spec (by simp)
      have hless := hc.sizeOf_lt hne hds' (hshorter hcut hpos)
      have hle : HttpChunkSizes.sizeOf ds' + 2 ≤ (c.content ++ 13 :: 10 :: tail).length := by
        simp only [List.length_append, List.length_cons]
        omega
      obtain ⟨hchunk, hnext⟩ := recvChunk_spec hahead (by omega) hle body
      have hne' : c.content ≠ [] := List.ne_nil_of_length_pos (by omega)
      simp only [hq.contentLen, hchunk, hq.chunksDone, bind, Except.bind, decide_eq_true_eq]
        at hrecv
      split at hrecv
      · next hzero =>
        rw [hzero, List.take_zero, List.append_nil] at hrecv
        cases hrecv
        exact ⟨hcollected, rfl, hne'⟩
      · obtain ⟨x, more, hdrop, hx, hx'⟩ := hc.drop_content hless tail
        rw [hdrop] at hnext
        exact absurd hrecv (recvChunks_other hx hx' hnext)

theorem recvChunks_of_cut {cs : List Chunk} {last : Chunk} {fuel : ℕ} {body body' : List UInt8}
    {p : HttpResponseParser} (herror : parser.collected.error = 0)
    (hplain : ∀ c ∈ cs ++ [last], c.Plain) (hcs : ∀ c ∈ cs, c.content ≠ [])
    (hlast : last.content = [])
    (h : Ahead buffSize data s ((cs ++ [last]).flatMap Chunk.bytes ++ tail))
    (hcut : ¬ LinesWhole buffSize (cs ++ [last]) data.length s)
    (hrecv : recvChunks buffSize fuel parser data body s = .ok (some (p, body'), t)) :
    p.collected = parser.collected ∧
      body'.length < body.length + (cs.flatMap Chunk.content).length := by
  induction cs generalizing fuel parser data body s with
  | nil =>
    rw [List.nil_append, List.flatMap_singleton] at h
    have hline : ¬ last.line.length ≤ data.length + taken buffSize data.length s :=
      fun hline => hcut ⟨hline, trivial⟩
    exact absurd hlast (recvChunks_cut (hplain last (by simp)) herror h hline hrecv).2.2
  | cons c cs ih =>
    rw [List.forall_mem_cons] at hcs
    rw [List.cons_append, List.forall_mem_cons] at hplain
    rw [List.cons_append, List.flatMap_cons, List.append_assoc] at h
    rw [List.flatMap_cons, List.length_append]
    have hpos := List.length_pos_iff.2 hcs.1
    by_cases hline : c.line.length ≤ data.length + taken buffSize data.length s
    · cases fuel with
      | zero => cases hrecv
      | succ fuel =>
        obtain ⟨q, data', hlength, hahead, hnext⟩ := recvChunks_whole herror h hline fuel body
        rw [hnext, if_neg hcs.1] at hrecv
        have hmore : ¬ LinesWhole buffSize (cs ++ [last]) data'.length
            (s.skip (max (taken buffSize data.length s) (c.bytes.length - data.length))) := by
          rw [hlength]
          exact fun hmore => hcut ⟨hline, hmore⟩
        have herror' : (HttpResponseParser.mk q parser.collected).collected.error = 0 := herror
        obtain ⟨hcollected, hless⟩ := ih herror' hplain.2 hcs.2 hahead hmore hrecv
        rw [List.length_append] at hless
        exact ⟨hcollected, by omega⟩
    · obtain ⟨hcollected, rfl, -⟩ := recvChunks_cut hplain.1 herror h hline hrecv
      exact ⟨hcollected, by omega⟩

end Cuts

/-!
## The header in front
-/

section Headers

variable {buffSize : ℕ} {s t : Stream}

theorem onCallback_body {buffer : List UInt8} {r r' : Collected} {c : HttpClientParser.Callback}
    (h : onCallback buffer r c = .ok r') : r'.data.body = r.data.body := by
  cases c with
  | element e slice =>
    cases e with
    | reasonPhrase =>
      obtain ⟨text, -, h⟩ := bind_ok h
      cases h
      rfl
    | statusCode =>
      simp only [onCallback] at h
      split at h
      · cases h
        rfl
      · cases h
    | httpVersion =>
      obtain ⟨text, -, h⟩ := bind_ok h
      cases h
      dsimp only
      unfold onResponseVersion
      split
      · rfl
      · split <;> rfl
    | chunkSize =>
      cases h
      rfl
    | lastChunk =>
      cases h
      rfl
    | headerDone =>
      cases h
      rfl
  | httpField field value =>
    simp only [onCallback] at h
    split at h
    · cases h
      rfl
    · obtain ⟨name, -, h⟩ := bind_ok h
      obtain ⟨text, -, h⟩ := bind_ok h
      cases h
      rfl

theorem foldlM_body {buffer : List UInt8} {r r' : Collected}
    {calls : List HttpClientParser.Callback} (h : calls.foldlM (onCallback buffer) r = .ok r') :
    r'.data.body = r.data.body :=
  foldlM_keeps (fun r => r.data.body) onCallback_body h

/-- What is left when `n` bytes of the buffer are parsed. -/
theorem left_of_read (data : List UInt8) {k : ℕ} (hk : k ≤ s.pending.length) (n : ℕ) :
    ((data ++ s.pending.take k).drop n).length ≤ data.length + k ∧
      (s.skip k).pending.length + k = s.pending.length := by
  rw [List.length_drop, List.length_append, List.length_take, Stream.pending_skip,
    List.length_drop]
  omega

/-- A header is read from an open connection, and no body is in the response yet. -/
theorem recvHeader_open {fuel : ℕ} {parser p : HttpResponseParser} {data data' : List UInt8}
    (h : recvHeader buffSize fuel parser data s = .ok (some (p, data'), t)) :
    t.connected = true ∧ p.collected.data.body = parser.collected.data.body := by
  induction fuel generalizing parser data s with
  | zero => cases h
  | succ fuel ih =>
    cases recvHeader_pass buffSize fuel parser data s with
    | closed hr =>
      rw [h] at hr
      cases hr
    | fault f _ hr =>
      rw [h] at hr
      cases hr
    | done p₁ n hlen hexec _ _ hr =>
      rw [h] at hr
      cases hr
      obtain ⟨hc, k, -, -, -, hread⟩ := read_some hlen
      obtain ⟨offset, calls, -, hfold, -⟩ := HttpClientHeader.execute_ok hexec
      refine ⟨?_, foldlM_body hfold⟩
      rw [hread]
      exact hc
    | more p₁ n hlen hexec hr =>
      obtain ⟨offset, calls, -, hfold, -⟩ := HttpClientHeader.execute_ok hexec
      obtain ⟨hc, hbody⟩ := ih (hr.symm.trans h)
      exact ⟨hc, hbody.trans (foldlM_body hfold)⟩

/-- What `recvHeader` leaves in the buffer and in the stream. -/
theorem recvHeader_some {fuel : ℕ} {parser p : HttpResponseParser} {data data' : List UInt8}
    (hsize : buffSize < 2 ^ 31) (hdata : data.length ≤ buffSize)
    (h : recvHeader buffSize fuel parser data s = .ok (some (p, data'), t)) :
    Ahead buffSize data' t (data' ++ t.pending) ∧ p.collected.error = 0 ∧
      data'.length + t.pending.length ≤ data.length + s.pending.length := by
  induction fuel generalizing parser data s with
  | zero => cases h
  | succ fuel ih =>
    cases recvHeader_pass buffSize fuel parser data s with
    | closed hr =>
      rw [h] at hr
      cases hr
    | fault f _ hr =>
      rw [h] at hr
      cases hr
    | done p₁ n hlen hexec herror _ hr =>
      obtain ⟨hc, k, hk, hkn, hkl, hread⟩ := read_some hlen
      simp only [hread] at hexec hr
      rw [h] at hr
      cases hr
      have hok : p.collected.error = 0 := by
        by_contra hne
        rw [hasError_iff.2 (.inl hne)] at herror
        cases herror
      obtain ⟨hleft, hrest⟩ := left_of_read data hkl n
      exact ⟨⟨hc, rfl, by omega, hsize, by omega⟩, hok, by omega⟩
    | more p₁ n hlen hexec hr =>
      obtain ⟨-, k, hk, hkn, hkl, hread⟩ := read_some hlen
      simp only [hread] at hexec hr
      obtain ⟨hleft, hrest⟩ := left_of_read data hkl n
      obtain ⟨hahead, hok, hlength⟩ := ih (by omega) (hr.symm.trans h)
      exact ⟨hahead, hok, by omega⟩

end Headers

section Responses

variable {lexicalCast : List UInt8 → Option UInt64} {buffSize : ℕ} {status : Option ℤ}
  {s s₁ : Stream} {parser : HttpResponseParser} {left rest : List UInt8}

/-- `recvResponse` returns a response with the contents of the chunks as its body. -/
def Reassembles (lexicalCast : List UInt8 → Option UInt64) (buffSize : ℕ) (status : Option ℤ)
    (s : Stream) (b : Chunked) : Prop :=
  ∃ response s', recvResponse lexicalCast buffSize status s = .ok (some response, s') ∧
    response.body = b.content

theorem length_le_flatMap (cs : List Chunk) : cs.length ≤ (cs.flatMap Chunk.bytes).length := by
  induction cs with
  | nil => exact Nat.zero_le _
  | cons c cs ih =>
    rw [List.length_cons, List.flatMap_cons, List.length_append, Chunk.length_bytes]
    omega

theorem body_withBody {response : HttpResponse} (h : response.body = []) (body : List UInt8) :
    (withBody response body).body = body := by
  unfold withBody
  split
  · next hnil =>
    rw [h]
    exact (List.isEmpty_iff.1 hnil).symm
  · rfl

theorem recvResponse_chunked (lexicalCast : List UInt8 → Option UInt64)
    (hheader : recvHeader buffSize (s.pending.length + 1) (.new status) [] s =
      .ok (some (parser, left), s₁)) (hchunked : parser.parser.chunked = true) :
    recvResponse lexicalCast buffSize status s =
      (recvChunks buffSize (s.pending.length + 1) parser left [] s₁).bind fun chunks =>
        .ok (chunks.1.map fun r => withBody r.1.collected.data r.2, chunks.2) := by
  unfold recvResponse
  simp only [hheader, bind, Except.bind, hchunked, if_true]

/-- `whole` is enough for the body to be that of the chunks. For plain chunks, and for these only,
the converse stands beside it. -/
structure WholeEnough (b : Chunked) (whole reassembles : Prop) : Prop where
  enough : whole → reassembles
  converse : (∀ c ∈ b.all, c.Plain) → reassembles → whole

theorem wholeEnough_received (lexicalCast : List UInt8 → Option UInt64) (hsize : buffSize < 2 ^ 31)
    (b : Chunked)
    (hheader : recvHeader buffSize (s.pending.length + 1) (.new status) [] s =
      .ok (some (parser, left), s₁)) (hchunked : parser.parser.chunked = true)
    (hp : left ++ s₁.pending = b.encoded ++ rest) :
    WholeEnough b (LinesWhole buffSize b.all left.length s₁)
      (Reassembles lexicalCast buffSize status s b) := by
  obtain ⟨hahead, herror, hlength⟩ := recvHeader_some hsize (Nat.zero_le _) hheader
  have hempty : parser.collected.data.body = [] := (recvHeader_open hheader).2
  have hfuel : b.chunks.length < s.pending.length + 1 := by
    have hall := congrArg List.length hp
    have hchunks := length_le_flatMap b.chunks
    rw [List.length_nil] at hlength
    rw [List.length_append, List.length_append, Chunked.encoded, Chunked.all, List.flatMap_append,
      List.length_append] at hall
    omega
  rw [hp] at hahead
  have hresponse := recvResponse_chunked lexicalCast hheader hchunked
  refine ⟨?enough, ?converse⟩
  case enough =>
    intro hwhole
    obtain ⟨q, s', hrecv⟩ :
        ∃ q s', recvChunks buffSize (s.pending.length + 1) parser left [] s₁ =
          .ok (some (⟨q, parser.collected⟩, [] ++ b.content), s') :=
      recvChunks_of_whole herror b.nonempty b.ended hahead hwhole hfuel
    rw [hrecv] at hresponse
    exact ⟨_, s', hresponse, body_withBody hempty _⟩
  case converse =>
    rintro hplain ⟨response, s', hrecv, hcontent⟩
    by_contra hcut
    rw [hresponse] at hrecv
    obtain ⟨⟨result, s₂⟩, hchunks, hrecv⟩ := bind_ok hrecv
    cases result with
    | none => cases hrecv
    | some r =>
      obtain ⟨hcollected, hless⟩ :=
        recvChunks_of_cut herror hplain b.nonempty b.ended hahead hcut hchunks
      cases hrecv
      rw [body_withBody (by rw [hcollected, hempty])] at hcontent
      rw [hcontent, List.length_nil, Nat.zero_add] at hless
      exact lt_irrefl _ hless

/-- The body is that of the chunks where each line with a size is in the buffer as a whole: behind
whatever header `recvHeader` has received, with what is left of its last read, and so behind one
that the first read gets as a whole. -/
theorem reassembles_of_lines_whole (lexicalCast : List UInt8 → Option UInt64)
    (hsize : buffSize < 2 ^ 31) (status : Option ℤ) (s : Stream) (b : Chunked)
    (rest : List UInt8) :
    (∀ parser left s₁, recvHeader buffSize (s.pending.length + 1) (.new status) [] s =
        .ok (some (parser, left), s₁) → parser.parser.chunked = true →
      left ++ s₁.pending = b.encoded ++ rest →
      WholeEnough b (LinesWhole buffSize b.all left.length s₁)
        (Reassembles lexicalCast buffSize status s b)) ∧
    ∀ header p, HttpClientHeader.Accepts status header p → p.parser.chunked = true →
      s.connected = true → s.pending = header ++ (b.encoded ++ rest) →
      header.length ≤ firstRead buffSize s →
      WholeEnough b (LinesWhole buffSize b.all (firstRead buffSize s - header.length)
          (s.skip (firstRead buffSize s)))
        (Reassembles lexicalCast buffSize status s b) := by
  constructor
  · intro parser left s₁ hheader hchunked hp
    exact wholeEnough_received lexicalCast hsize b hheader hchunked hp
  · intro header p ha hchunked hc hp hread
    obtain ⟨q, hheader, hq⟩ := recvHeader_accepted ha hsize hc hp hread
    obtain ⟨hcovers, -⟩ := covers_firstRead hc hp hread ha.pos
    have hwhole := wholeEnough_received lexicalCast hsize b hheader (hq.trans hchunked)
      hcovers.splits.2
    rwa [hcovers.splits.1] at hwhole

end Responses

section Samples

def chunkedHeader : List UInt8 := bytes "HTTP/1.1 200 OK\r\nTransfer-Encoding: chunked\r\n\r\n"

/-- Chunks of 2, 10 and 16 bytes. -/
def sample : Chunked where
  chunks := [
    ⟨bytes "2", bytes "ok", by decide, by decide +kernel, by decide, by decide⟩,
    ⟨bytes "a", bytes "zzzzzzzzzz", by decide, by decide +kernel, by decide, by decide⟩,
    ⟨bytes "10", bytes "zzzzzzzzzzzzzzzz", by decide, by decide +kernel, by decide, by decide⟩]
  last := ⟨bytes "0", [], by decide, by decide +kernel, by decide, by decide⟩
  nonempty := by decide
  ended := rfl

theorem exists_accepted : ∃ p, HttpClientHeader.Accepts none chunkedHeader p ∧
    p.parser.chunked = true := by
  have h : ((HttpResponseParser.new none).execute chunkedHeader false).toOption.map (fun x =>
      (x.2, x.1.hasError, x.1.isFinished, x.1.parser.chunked)) =
        some (chunkedHeader.length, false, 1, true) := by decide +kernel
  cases hexec : (HttpResponseParser.new none).execute chunkedHeader false with
  | error f =>
    rw [hexec] at h
    cases h
  | ok x =>
    obtain ⟨p, n⟩ := x
    rw [hexec] at h
    simp only [Except.toOption, Option.map_some, Option.some.injEq, Prod.mk.injEq] at h
    obtain ⟨rfl, herror, hfinished, hchunked⟩ := h
    exact ⟨p, ⟨hexec, herror, by rw [hfinished]; decide⟩, hchunked⟩

/-- Cuts in the contents and at the line ends behind them, and none in a line with a size. -/
def wholeLines : Stream :=
  arriving [⟨chunkedHeader ++ bytes "2\r\no", by decide⟩, ⟨bytes "k\r", by decide⟩,
    ⟨bytes "\n", by decide⟩, ⟨bytes "a\r\nzzzzzzzzzz\r\n10\r\nzzzzzzz", by decide⟩,
    ⟨bytes "zzzzzzzzz\r\n", by decide⟩, ⟨bytes "0\r\n\r\n", by decide⟩]

theorem wholeLines_reassembled : Reassembles decimal 4096 none wholeLines sample := by
  obtain ⟨p, ha, hchunked⟩ := exists_accepted
  have hread : chunkedHeader.length ≤ firstRead 4096 wholeLines := by decide +kernel
  have hp : wholeLines.pending = chunkedHeader ++ (sample.encoded ++ []) := by decide +kernel
  exact ((reassembles_of_lines_whole decimal (by decide) none wholeLines sample []).2
    chunkedHeader p ha hchunked rfl hp hread).enough (by decide +kernel)

/-- The line `10` is cut. -/
def cutLine (front behind : Segment) : Stream :=
  arriving [⟨chunkedHeader ++ bytes "2\r\nok\r\na\r\nzzzzzzzzzz\r\n", by decide⟩, front, behind]

def cutDigits : Stream :=
  cutLine ⟨bytes "1", by decide⟩ ⟨bytes "0\r\nzzzzzzzzzzzzzzzz\r\n0\r\n\r\n", by decide⟩

def cutReturn : Stream :=
  cutLine ⟨bytes "10\r", by decide⟩ ⟨bytes "\nzzzzzzzzzzzzzzzz\r\n0\r\n\r\n", by decide⟩

/-- The body of what `recvResponse` returns. -/
def returned (s : Stream) : Option (Option (List UInt8)) :=
  (recvResponse decimal 4096 none s).toOption.map (·.1.map (·.body))

theorem not_reassembles {body : Option (List UInt8)} {s : Stream} {b : Chunked}
    (h : returned s = some body) (hne : body ≠ some b.content) :
    ¬ Reassembles decimal 4096 none s b := by
  rintro ⟨response, s', hrecv, hcontent⟩
  rw [returned, hrecv] at h
  simp only [Except.toOption, Option.map_some, Option.some.injEq, hcontent] at h
  exact hne h.symm

/-- Between its digits: the parser reads the size 0, and the body ends without the chunk. At its
end: the parser fails, and there is no response. -/
theorem cutLine_lost : ∃ p, HttpClientHeader.Accepts none chunkedHeader p ∧
    p.parser.chunked = true ∧
    (∀ s ∈ [cutDigits, cutReturn], s.connected = true ∧
      s.pending = chunkedHeader ++ sample.encoded ∧ chunkedHeader.length ≤ firstRead 4096 s) ∧
    returned cutDigits = some (some (bytes "okzzzzzzzzzz")) ∧ returned cutReturn = some none ∧
    ∀ s ∈ [cutDigits, cutReturn], ¬ Reassembles decimal 4096 none s sample := by
  obtain ⟨p, ha, hchunked⟩ := exists_accepted
  have hdigits : returned cutDigits = some (some (bytes "okzzzzzzzzzz")) := by decide +kernel
  have hreturn : returned cutReturn = some none := by decide +kernel
  refine ⟨p, ha, hchunked, by decide +kernel, hdigits, hreturn, ?_⟩
  rw [List.forall_mem_cons, List.forall_mem_singleton]
  exact ⟨not_reassembles hdigits (by decide), not_reassembles hreturn (by decide)⟩

end Samples

end HttpChunks
