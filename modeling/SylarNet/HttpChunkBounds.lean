import SylarNet.HttpChunks

/-!
# Sizes that come from the peer

The size of a chunk goes through a `long` into the `int` that `recvResponse` adds to, compares
with and takes as a count. The function is told here together with its sums, the bytes it appends
and the bytes it moves.
-/
namespace HttpChunkBounds

open SylarStream HttpConnection HttpChunkSizes HttpChunks
open HttpClientParser (HttpclientParser)
open Http11Parser (Fault)
open HttpMessages (read_some)
open HttpSegmentation (arriving)
open Http11Grammar (xdigit)

inductive Event where
  /-- What a signed addition or subtraction of `content_len` or `left` comes to. -/
  | sum (value : ℤ)
  /-- `body.append(data, count)` with so many bytes in `data`. -/
  | append (count : ℤ) (available : ℕ)
  /-- `memmove(data, data + start, length)` with so many bytes in `data`. -/
  | move (start length : ℤ) (available : ℕ)
  deriving DecidableEq, Repr

def Event.InBounds : Event → Prop
  | .sum value => -2 ^ 31 ≤ value ∧ value < 2 ^ 31
  | .append count available => 0 ≤ count ∧ count ≤ available
  | .move start length available => 0 ≤ start ∧ 0 ≤ length ∧ start + length ≤ available

/-- `recvLeft` with what it does. -/
def recvLeftTraced (buffSize : ℕ) : ℕ → ℤ → List UInt8 → Stream →
    (Option (List UInt8) × Stream) × List Event
  | 0, _, body, s => ((some body, s), [])
  | fuel + 1, left, body, s =>
    if left > 0 then
      let length := if left > Stream.toInt buffSize then Stream.toInt buffSize else left
      let (rt, bytes, s) := s.read (length % 2 ^ 64).toNat
      if rt ≤ 0 then ((none, s.close), [])
      else
        let r := recvLeftTraced buffSize fuel (left - rt) (body ++ bytes) s
        (r.1, .append rt bytes.length :: .sum (left - rt) :: r.2)
    else ((some body, s), [])

/-- `recvChunk` with what it does. It ends with the sum that is no `int`, and with the count that
is no size. -/
def recvChunkTraced (buffSize : ℕ) (contentLen : ℤ) (data body : List UInt8) (s : Stream) :
    Except Fault (Option (List UInt8 × List UInt8) × Stream) × List Event :=
  let len : ℤ := data.length
  if contentLen + 2 ≥ 2 ^ 31 then (.error .overflow, [.sum (contentLen + 2)])
  else if contentLen + 2 ≤ data.length then
    if contentLen < 0 then
      (.error .lengthError, [.sum (contentLen + 2), .append contentLen data.length])
    else
      (.ok (some (body ++ data.take contentLen.toNat, data.drop (contentLen.toNat + 2)), s),
        [.sum (contentLen + 2), .append contentLen data.length, .sum (len - contentLen),
          .sum (len - contentLen - 2), .move (contentLen + 2) (len - contentLen - 2) data.length,
          .sum (contentLen + 2), .sum (len - (contentLen + 2))])
  else
    let left := contentLen - len + 2
    let r := recvLeftTraced buffSize left.toNat left (body ++ data) s
    ((match r.1 with
      | (none, s) => .ok (none, s)
      | (some body, s) => (withoutLineEnd body).map fun body => (some (body, []), s)),
      [.sum (contentLen + 2), .append len data.length, .sum (contentLen - len), .sum left] ++ r.2)

/-- In the pass over a chunk with a size of `size`: nothing runs over a number or the buffer, and
a chunk with a content is not the last one. -/
def ChunkSafe (buffSize size : ℕ) (parser : HttpResponseParser) (data body : List UInt8)
    (s : Stream) : Prop :=
  ∀ p left t,
    recvChunkSize buffSize (s.pending.length + 2) true parser data s = .ok (some (p, left), t) →
    (∀ e ∈ (recvChunkTraced buffSize p.parser.contentLen left body t).2, e.InBounds) ∧
      (0 < size → p.parser.chunksDone = false)

/-- The size and two bytes more are an `int` when the low bits of a `long` are all that is left. -/
def SizeFits (size : ℕ) : Prop :=
  size < 2 ^ 63 ∧ 1 ≤ size % 2 ^ 32 ∧ size % 2 ^ 32 ≤ 2 ^ 31 - 3

instance (size : ℕ) : Decidable (SizeFits size) :=
  inferInstanceAs (Decidable (_ ∧ _ ∧ _))

section Traces

variable {buffSize : ℕ}

/-- The traced loop is the loop. -/
theorem recvLeftTraced_fst (buffSize fuel : ℕ) (left : ℤ) (body : List UInt8) (s : Stream) :
    (recvLeftTraced buffSize fuel left body s).1 = recvLeft buffSize fuel left body s := by
  induction fuel generalizing left body s with
  | zero => rfl
  | succ fuel ih =>
    rw [recvLeftTraced, recvLeft]
    dsimp only
    generalize ((if left > Stream.toInt buffSize then Stream.toInt buffSize else left) %
      2 ^ 64).toNat = n
    split
    · split
      · rfl
      · exact ih _ _ _
    · rfl

theorem recvChunkTraced_fst (buffSize : ℕ) (contentLen : ℤ) (data body : List UInt8) (s : Stream) :
    (recvChunkTraced buffSize contentLen data body s).1 =
      recvChunk buffSize contentLen data body s := by
  rw [recvChunkTraced, recvChunk]
  dsimp only
  split
  · rfl
  · split
    · split <;> rfl
    · exact recvLeftTraced_fst buffSize (contentLen - data.length + 2).toNat
        (contentLen - data.length + 2) (body ++ data) s ▸ rfl

/-- What is left to be read stays an `int`, and is appended as it was read. -/
theorem recvLeftTraced_inBounds (hsmall : buffSize < 2 ^ 31) (fuel : ℕ)
    {left : ℤ} (hleft : left < 2 ^ 31) (body : List UInt8) (s : Stream) :
    ∀ e ∈ (recvLeftTraced buffSize fuel left body s).2, e.InBounds := by
  induction fuel generalizing left body s with
  | zero => simp [recvLeftTraced]
  | succ fuel ih =>
    rw [recvLeftTraced]
    split
    · rename_i hmore
      have hlength : ∃ n : ℕ, ((if left > Stream.toInt buffSize then Stream.toInt buffSize
          else left) % 2 ^ 64).toNat = n ∧ (n : ℤ) ≤ left := by
        rw [Stream.toInt_of_lt hsmall]
        refine ⟨_, rfl, ?_⟩
        split <;> omega
      obtain ⟨n, hn, hle⟩ := hlength
      dsimp only
      rw [hn]
      split
      · simp
      · rename_i hrt
        obtain ⟨-, k, hk, hkn, hkl, hread⟩ := read_some hrt
        rw [hread]
        dsimp only
        rw [List.forall_mem_cons, List.forall_mem_cons]
        refine ⟨?_, ?_, ih (by omega) _ _⟩
        · rw [Event.InBounds, List.length_take, Nat.min_eq_left hkl]
          exact ⟨Int.natCast_nonneg k, le_refl _⟩
        · rw [Event.InBounds]
          omega
    · simp

/-- A count that leaves room for the line end is taken as it is. -/
theorem recvChunkTraced_inBounds (hsmall : buffSize < 2 ^ 31) {contentLen : ℤ}
    (hnonneg : 0 ≤ contentLen) (hroom : contentLen + 2 < 2 ^ 31) {data : List UInt8}
    (hdata : data.length < 2 ^ 31) (body : List UInt8) (s : Stream) :
    ∀ e ∈ (recvChunkTraced buffSize contentLen data body s).2, e.InBounds := by
  rw [recvChunkTraced, if_neg (by omega)]
  dsimp only
  split
  · rename_i hall
    rw [if_neg (by omega)]
    simp only [List.forall_mem_cons, Event.InBounds]
    refine ⟨?_, ?_, ?_, ?_, ?_, ?_, ?_, by simp⟩ <;> omega
  · rename_i hall
    dsimp only
    rw [List.forall_mem_append]
    constructor
    · simp only [List.forall_mem_cons, Event.InBounds]
      refine ⟨?_, ?_, ?_, ?_, by simp⟩ <;> omega
    · exact recvLeftTraced_inBounds hsmall _ (by omega) _ _

/-- The first sum is that of the size and the line end. -/
theorem sum_of_inBounds {contentLen : ℤ} {data body : List UInt8} {s : Stream}
    (h : ∀ e ∈ (recvChunkTraced buffSize contentLen data body s).2, e.InBounds) :
    contentLen + 2 < 2 ^ 31 := by
  have hmem : Event.sum (contentLen + 2) ∈ (recvChunkTraced buffSize contentLen data body s).2 := by
    rw [recvChunkTraced]
    split_ifs <;> exact List.mem_cons_self
  exact (h _ hmem).2

end Traces

theorem contentLenOf_pos_iff (size : ℕ) :
    0 < contentLenOf size ∧ contentLenOf size + 2 < 2 ^ 31 ↔ SizeFits size := by
  unfold contentLenOf Stream.toInt SizeFits
  rw [Int.bmod_def]
  by_cases hlong : size < 2 ^ 63
  · have hmin : min (size : ℤ) (2 ^ 63 - 1) = size := by omega
    rw [hmin]
    split <;> omega
  · have hmin : min (size : ℤ) (2 ^ 63 - 1) = 2 ^ 63 - 1 := by omega
    rw [hmin, if_neg (by decide)]
    constructor
    · intro h
      exact absurd h.1 (by decide)
    · exact fun h => absurd h.1 hlong

section Lines

variable {buffSize : ℕ} {ds ds' data tail : List UInt8} {s : Stream}

/-- A piece with the line end behind it is read. -/
theorem recvChunkSize_piece {left : ℕ} (hpiece : LastPiece buffSize ds left s ds')
    (hleft : left = data.length) (hds : ∀ d ∈ ds, xdigit d = true) (hne : ds ≠ [])
    {parser : HttpResponseParser} (herror : parser.collected.error = 0)
    (h : Ahead buffSize data s (ds ++ 13 :: 10 :: tail)) {begin : Bool} {fuel : ℕ}
    (hfuel : begin = true ∧ s.pending.length + 1 < fuel ∨ data = [] ∧ s.pending.length < fuel) :
    ∃ p data' t, recvChunkSize buffSize fuel begin parser data s = .ok (some (p, data'), t) ∧
      LineRead ds' p.parser ∧ Ahead buffSize data' t tail := by
  have hbegin : begin = true ∨ data = [] := hfuel.imp And.left And.left
  obtain ⟨fuel, rfl⟩ : ∃ n, fuel = n + 1 := ⟨fuel - 1, by omega⟩
  induction hpiece generalizing data parser begin fuel with
  | whole hwhole =>
    rw [hleft] at hwhole
    obtain ⟨q, data', hrecv, hread, -, hahead⟩ :=
      recvChunkSize_line hds hne herror h hbegin hwhole fuel
    exact ⟨_, data', _, hrecv, hread, hahead⟩
  | @cut ds left s ds' hcut hrest ih =>
    subst hleft
    obtain ⟨hpos, htaken⟩ := h.taken_spec (by simp)
    obtain ⟨q, hpass, hahead⟩ := recvChunkSize_digits herror hds h hbegin hpos hcut.le fuel
    have hless : (s.skip (taken buffSize data.length s)).pending.length < fuel := by
      rw [Stream.pending_skip, List.length_drop]
      rcases hfuel with ⟨-, hfuel⟩ | ⟨rfl, hfuel⟩
      · omega
      · rw [List.length_nil] at hpos htaken ⊢
        omega
    obtain ⟨fuel, rfl⟩ : ∃ n, fuel = n + 1 := ⟨fuel - 1, by omega⟩
    have herror' : (HttpResponseParser.mk q parser.collected).collected.error = 0 := herror
    rw [hpass]
    apply ih rfl (fun d hd => hds d (List.mem_of_mem_drop hd)) _ herror' hahead (.inr rfl)
      fuel (.inr ⟨rfl, hless⟩)
    apply List.ne_nil_of_length_pos
    rw [List.length_drop]
    omega

variable {parser : HttpResponseParser}

theorem chunkSafe_of_fits (herror : parser.collected.error = 0)
    (hds : ∀ d ∈ ds, xdigit d = true) (h : Ahead buffSize data s (ds ++ 13 :: 10 :: tail))
    (hfits : HttpChunkSizes.sizeOf ds = 0 ∨ ∀ ds', LastPiece buffSize ds data.length s ds' →
      SizeFits (HttpChunkSizes.sizeOf ds')) (body : List UInt8) :
    ChunkSafe buffSize (HttpChunkSizes.sizeOf ds) parser data body s := by
  intro p left t hrecv
  obtain ⟨ds', -, hpiece, hread, hahead, -⟩ := recvChunkSize_some herror hds h (.inl rfl) hrecv
  have hleft : left.length < 2 ^ 31 := lt_of_le_of_lt hahead.fits hahead.small
  rw [hread.contentLen, hread.chunksDone, decide_eq_false_iff_not, Int.not_le]
  rcases hfits with hzero | hfits
  · have hzero' : HttpChunkSizes.sizeOf ds' = 0 := by
      have hle := sizeOf_le_of_suffix hpiece.suffix.1
      omega
    have hlen : contentLenOf (HttpChunkSizes.sizeOf ds') = 0 := by
      rw [hzero']
      exact contentLenOf_of_lt (by decide)
    rw [hlen]
    exact ⟨recvChunkTraced_inBounds h.small (le_refl _) (by decide) hleft body t,
      fun hpos => absurd hpos (by omega)⟩
  · obtain ⟨hpos, hroom⟩ := (contentLenOf_pos_iff _).2 (hfits ds' hpiece)
    exact ⟨recvChunkTraced_inBounds h.small hpos.le hroom hleft body t, fun _ => hpos⟩

theorem fits_of_chunkSafe (herror : parser.collected.error = 0)
    (hds : ∀ d ∈ ds, xdigit d = true) (hne : ds ≠ [])
    (h : Ahead buffSize data s (ds ++ 13 :: 10 :: tail)) {body : List UInt8}
    (hsafe : ChunkSafe buffSize (HttpChunkSizes.sizeOf ds) parser data body s)
    (hpos : 0 < HttpChunkSizes.sizeOf ds) (hpiece : LastPiece buffSize ds data.length s ds') :
    SizeFits (HttpChunkSizes.sizeOf ds') := by
  obtain ⟨p, left, t, hrecv, hread, -⟩ :=
    recvChunkSize_piece hpiece rfl hds hne herror h (.inl ⟨rfl, Nat.lt_succ_self _⟩)
  obtain ⟨hevents, hlast⟩ := hsafe p left t hrecv
  have hroom := sum_of_inBounds hevents
  have hmore := hlast hpos
  rw [hread.contentLen] at hroom
  rw [hread.chunksDone, decide_eq_false_iff_not, Int.not_le] at hmore
  exact (contentLenOf_pos_iff _).1 ⟨hmore, hroom⟩

/-- A chunk of any size is received safely when it has no content, or when what the parser gets of
its size fits. -/
theorem chunk_safe_iff (herror : parser.collected.error = 0) (hds : ∀ d ∈ ds, xdigit d = true)
    (hne : ds ≠ []) (h : Ahead buffSize data s (ds ++ 13 :: 10 :: tail)) (body : List UInt8) :
    ChunkSafe buffSize (HttpChunkSizes.sizeOf ds) parser data body s ↔
      HttpChunkSizes.sizeOf ds = 0 ∨ ∀ ds', LastPiece buffSize ds data.length s ds' →
        SizeFits (HttpChunkSizes.sizeOf ds') := by
  constructor
  · intro hsafe
    by_cases hzero : HttpChunkSizes.sizeOf ds = 0
    · exact .inl hzero
    · exact .inr fun ds' hpiece =>
        fits_of_chunkSafe herror hds hne h hsafe (Nat.pos_of_ne_zero hzero) hpiece
  · exact fun hfits => chunkSafe_of_fits herror hds h hfits body

end Lines

/-- The line `5` with the content behind it. -/
theorem chunk_safe_five :
    ChunkSafe 4096 (HttpChunkSizes.sizeOf [53]) (.new none)
      [53, 13, 10, 104, 101, 108, 108, 111, 13, 10] [] (arriving []) := by
  have hahead : Ahead 4096 [53, 13, 10, 104, 101, 108, 108, 111, 13, 10] (arriving [])
      ([53] ++ 13 :: 10 :: [104, 101, 108, 108, 111, 13, 10]) :=
    ⟨rfl, rfl, by decide, by decide, by decide⟩
  apply (chunk_safe_iff rfl (by decide +kernel) (by decide) hahead []).2
  right
  intro ds' hpiece
  cases hpiece with
  | whole => decide
  | cut hcut => exact absurd hcut (by decide)

/-- The line `80000000`: the `int` is negative, and the chunk counts as the last one. -/
theorem chunk_not_safe :
    ¬ ∀ (buffSize : ℕ) (parser : HttpResponseParser) (ds data tail body : List UInt8) (s : Stream),
      parser.collected.error = 0 → (∀ d ∈ ds, xdigit d = true) → ds ≠ [] →
      Ahead buffSize data s (ds ++ 13 :: 10 :: tail) →
      ChunkSafe buffSize (HttpChunkSizes.sizeOf ds) parser data body s := by
  intro h
  have hahead : Ahead 4096 [56, 48, 48, 48, 48, 48, 48, 48, 13, 10] (arriving [])
      ([56, 48, 48, 48, 48, 48, 48, 48] ++ 13 :: 10 :: []) :=
    ⟨rfl, rfl, by decide, by decide, by decide⟩
  have hsafe := h 4096 (.new none) [56, 48, 48, 48, 48, 48, 48, 48] _ [] [] _ rfl
    (by decide +kernel) (by decide) hahead
  have hfits := fits_of_chunkSafe rfl (by decide +kernel) (by decide) hahead hsafe
    (by decide) (.whole (by decide))
  exact absurd hfits (by decide)

end HttpChunkBounds
