import SylarNet.HttpChunks

/-!
# The loops of `recvResponse` come to an end

Every pass that goes on has read a byte or, behind the line with a size, parsed one.
-/
namespace HttpResponseLoops

open RagelMachine HttpClientGrammar HttpClientParser HttpConnection SylarStream
open Http11Parser (Fault)
open HttpSession (textOf)
open HttpClientHeader (counted execute_bind execute_ok httpclientParserExecute_ok
  accepting_of_finished not_accepting_initial)
open HttpMessages (read_some)
open HttpChunkSizes (execute_anew)
open HttpChunks (recvHeader_some)

section Parser

variable {p p' : HttpResponseParser} {data : List UInt8}

theorem textOf_error {s : Http11Parser.Slice} {f : Fault} (h : textOf data s = .error f) :
    f = .outsideBuffer := by
  unfold textOf at h
  split at h
  · cases h
  · cases h
    rfl

theorem onCallback_error {r : Collected} {c : Callback} {f : Fault}
    (h : onCallback data r c = .error f) : f = .outsideBuffer := by
  cases c with
  | element e s =>
    cases e with
    | reasonPhrase =>
      rcases bind_error h with htext | ⟨text, -, h⟩
      · exact textOf_error htext
      · cases h
    | statusCode =>
      simp only [onCallback] at h
      split at h
      · cases h
      · cases h
        rfl
    | httpVersion =>
      rcases bind_error h with htext | ⟨text, -, h⟩
      · exact textOf_error htext
      · cases h
    | chunkSize => cases h
    | lastChunk => cases h
    | headerDone => cases h
  | httpField field value =>
    simp only [onCallback] at h
    split at h
    · cases h
    · rcases bind_error h with hname | ⟨name, -, h⟩
      · exact textOf_error hname
      · rcases bind_error h with htext | ⟨text, -, h⟩
        · exact textOf_error htext
        · cases h

theorem foldlM_error {r : Collected} {calls : List Callback} {f : Fault}
    (h : calls.foldlM (onCallback data) r = .error f) : f = .outsideBuffer := by
  induction calls generalizing r with
  | nil => cases h
  | cons c cs ih =>
    rw [List.foldlM_cons] at h
    rcases bind_error h with hcall | ⟨r', -, h⟩
    · exact onCallback_error hcall
    · exact ih h

theorem httpclientParserExecute_error {q : HttpclientParser} {off : ℕ} {f : Fault}
    (h : httpclientParserExecute q data off = .error f) : f = .assertion := by
  unfold httpclientParserExecute at h
  dsimp only at h
  split at h
  · cases h
    rfl
  · split at h
    · split at h <;> cases h
    · cases h
      rfl

/-- A call of the parser has no loop of its own that could not end. -/
theorem execute_ne {chunck : Bool} : p.execute data chunck ≠ .error .outOfFuel := by
  intro h
  rcases bind_error h with hexec | ⟨⟨q, offset, calls⟩, -, h⟩
  · cases httpclientParserExecute_error hexec
  · rcases bind_error h with hfold | ⟨r, -, h⟩
    · cases foldlM_error hfold
    · split at h <;> cases h

theorem le_exec {buffer bytes : List UInt8} {q : HttpclientParser} {i : ℕ} :
    i ≤ (exec buffer q i bytes).2.1 := by
  induction bytes generalizing q i with
  | nil => exact le_refl i
  | cons c cs ih =>
    rw [exec]
    split
    · exact le_refl i
    · split
      · exact le_refl i
      · dsimp only
        split
        · exact Nat.le_succ i
        · exact le_trans (Nat.le_succ i) ih

/-- A parser that starts anew gets to an end with at least one byte of the buffer. -/
theorem execute_pos {n : ℕ} (hlt : data.length < 2 ^ 31) (h : p.execute data true = .ok (p', n))
    (herror : p'.hasError = false) (hfinished : p'.isFinished ≠ 0) :
    0 < n ∧ 0 < data.length := by
  rw [execute_anew] at h
  obtain ⟨offset, calls, hexec, -, hoffset, rfl⟩ := execute_ok h
  obtain ⟨hq, hn, -, hfits⟩ := httpclientParserExecute_ok hexec hoffset
  obtain ⟨-, st, hst, hacc⟩ := accepting_of_finished herror hfinished
  rw [hn, Stream.toInt_of_lt (lt_of_le_of_lt hfits.nread hlt), Int.toNat_natCast, hq]
  refine ⟨Nat.lt_of_lt_of_le ?_ (Nat.le_add_left _ _),
    lt_of_le_of_lt (Nat.zero_le _) hfits.mark⟩
  rw [hq] at hst
  cases data with
  | nil => exact absurd hfits.mark (Nat.not_lt_zero _)
  | cons c cs =>
    have hcs : (reset (httpclientParserInit p.parser.status)).cs = some State.initial := rfl
    simp only [counted, exec, hcs] at hst ⊢
    split at hst
    · cases hst
    · split
      · exact Nat.succ_pos 0
      · exact Nat.lt_of_lt_of_le (Nat.succ_pos 0) le_exec

end Parser

section Loops

variable {lexicalCast : List UInt8 → Option UInt64} {buffSize : ℕ} {s t : Stream}

theorem length_read_lt {n : ℕ} (h : ¬ (s.read n).1 ≤ 0) :
    (s.read n).2.2.pending.length < s.pending.length := by
  obtain ⟨-, k, hk, -, hkl, hread⟩ := read_some h
  rw [hread, Stream.pending_skip, List.length_drop]
  omega

theorem recvHeader_ne {fuel : ℕ} {parser : HttpResponseParser} {data : List UInt8}
    (hfuel : s.pending.length < fuel) :
    recvHeader buffSize fuel parser data s ≠ .error .outOfFuel := by
  intro h
  induction fuel generalizing parser data s with
  | zero => exact absurd hfuel (Nat.not_lt_zero _)
  | succ fuel ih =>
    cases recvHeader_pass buffSize fuel parser data s with
    | closed hr =>
      rw [h] at hr
      cases hr
    | fault f hexec hr =>
      rw [h] at hr
      cases hr
      exact execute_ne hexec
    | done p n _ _ _ _ hr =>
      rw [h] at hr
      cases hr
    | more p n hlen _ hr =>
      have hless := length_read_lt hlen
      exact ih (by omega) (hr.symm.trans h)

/-- What the parser gets in a pass over the line with the size. -/
theorem refill_some {begin : Bool} {data : List UInt8}
    (h : ¬ (refill buffSize begin data s).1 ≤ 0) :
    (refill buffSize begin data s).2.1.length + (refill buffSize begin data s).2.2.pending.length =
        s.pending.length ∧
      (begin = false → 0 < (refill buffSize begin data s).2.1.length) ∧
      (data.length ≤ buffSize →
        data.length + (refill buffSize begin data s).2.1.length ≤ buffSize) := by
  unfold refill at h ⊢
  split at h
  · next hread =>
    obtain ⟨-, k, hk, hkn, hkl, hread'⟩ := read_some h
    rw [if_pos hread, hread', Stream.pending_skip, List.length_drop, List.length_take,
      Nat.min_eq_left hkl]
    exact ⟨by omega, fun _ => hk, fun hle => by omega⟩
  · next hread =>
    rw [if_neg hread]
    refine ⟨Nat.zero_add _, ?_, fun hle => hle⟩
    rintro rfl
    exact absurd rfl hread

theorem recvChunkSize_ne {fuel : ℕ} {begin : Bool} {parser : HttpResponseParser}
    {data : List UInt8} (hfuel : s.pending.length + begin.toNat < fuel) :
    recvChunkSize buffSize fuel begin parser data s ≠ .error .outOfFuel := by
  intro h
  induction fuel generalizing begin parser data s with
  | zero => exact absurd hfuel (Nat.not_lt_zero _)
  | succ fuel ih =>
    cases recvChunkSize_pass buffSize fuel begin parser data s with
    | closed hr =>
      rw [h] at hr
      cases hr
    | fault f hexec hr =>
      rw [h] at hr
      cases hr
      exact execute_ne hexec
    | done p n _ _ _ _ hr =>
      rw [h] at hr
      cases hr
    | more p n hlen _ hr =>
      obtain ⟨hlength, hpos, -⟩ := refill_some hlen
      refine ih ?_ (hr.symm.trans h)
      -- Only the first pass can do without a read.
      cases begin with
      | false =>
        have hread := hpos rfl
        simp only [Bool.toNat_false] at hfuel ⊢
        omega
      | true =>
        simp only [Bool.toNat_true, Bool.toNat_false] at hfuel ⊢
        omega

/-- The line has at least one byte. -/
theorem recvChunkSize_shrinks {fuel : ℕ} {begin : Bool} {parser p : HttpResponseParser}
    {data data' : List UInt8} (hsize : buffSize < 2 ^ 31) (hdata : data.length ≤ buffSize)
    (h : recvChunkSize buffSize fuel begin parser data s = .ok (some (p, data'), t)) :
    data'.length + t.pending.length < data.length + s.pending.length ∧
      data'.length ≤ buffSize := by
  induction fuel generalizing begin parser data s with
  | zero => cases h
  | succ fuel ih =>
    cases recvChunkSize_pass buffSize fuel begin parser data s with
    | closed hr =>
      rw [h] at hr
      cases hr
    | fault f _ hr =>
      rw [h] at hr
      cases hr
    | done p₁ n hlen hexec herror hfinished hr =>
      rw [h] at hr
      cases hr
      obtain ⟨hlength, -, hfits⟩ := refill_some hlen
      have hle := hfits hdata
      obtain ⟨hparsed, hne⟩ :=
        execute_pos (by rw [List.length_append]; omega) hexec herror hfinished
      rw [List.length_append] at hne
      rw [List.length_drop, List.length_append]
      omega
    | more p₁ n hlen _ hr =>
      obtain ⟨hlength, -, hfits⟩ := refill_some hlen
      have hle := hfits hdata
      have hleft : ((data ++ (refill buffSize begin data s).2.1).drop n).length ≤
          data.length + (refill buffSize begin data s).2.1.length := by
        rw [List.length_drop, List.length_append]
        omega
      obtain ⟨hless, hle'⟩ := ih (le_trans hleft hle) (hr.symm.trans h)
      exact ⟨by omega, hle'⟩

theorem recvLeft_shrinks {fuel : ℕ} {left : ℤ} {body body' : List UInt8}
    (h : recvLeft buffSize fuel left body s = (some body', t)) :
    t.pending.length ≤ s.pending.length := by
  induction fuel generalizing left body s with
  | zero =>
    cases h
    exact le_refl _
  | succ fuel ih =>
    unfold recvLeft at h
    split at h
    · dsimp only at h
      generalize ((if left > Stream.toInt buffSize then Stream.toInt buffSize else left) %
        2 ^ 64).toNat = n at h
      split at h
      · cases h
      · have hless := ih h
        rw [Stream.read_skip, Stream.pending_skip, List.length_drop] at hless
        omega
    · cases h
      exact le_refl _

theorem recvChunk_shrinks {contentLen : ℤ} {data data' body body' : List UInt8}
    (h : recvChunk buffSize contentLen data body s = .ok (some (body', data'), t)) :
    data'.length + t.pending.length ≤ data.length + s.pending.length ∧
      data'.length ≤ data.length := by
  cases recvChunk_content buffSize contentLen data body s with
  | fault f _ hr | closed fuel left t' _ hr =>
    rw [h] at hr
    cases hr
  | buffered body'' n hr =>
    rw [h] at hr
    cases hr
    rw [List.length_drop]
    omega
  | whole fuel left all body'' t' hread hr =>
    rw [h] at hr
    cases hr
    have hless := recvLeft_shrinks hread
    rw [List.length_nil]
    omega

theorem recvChunk_ne {contentLen : ℤ} {data body : List UInt8} :
    recvChunk buffSize contentLen data body s ≠ .error .outOfFuel := by
  intro h
  cases recvChunk_content buffSize contentLen data body s with
  | fault f hf hr =>
    rw [h] at hr
    cases hr
    exact hf rfl
  | buffered body' n hr | closed fuel left t _ hr | whole fuel left all body' t _ hr =>
    rw [h] at hr
    cases hr

theorem recvChunks_ne {fuel : ℕ} {parser : HttpResponseParser} {data body : List UInt8}
    (hsize : buffSize < 2 ^ 31) (hdata : data.length ≤ buffSize)
    (hfuel : data.length + s.pending.length < fuel) :
    recvChunks buffSize fuel parser data body s ≠ .error .outOfFuel := by
  induction fuel generalizing parser data body s with
  | zero => exact absurd hfuel (Nat.not_lt_zero _)
  | succ fuel ih =>
    intro h
    rcases bind_error h with hhead | ⟨⟨head, s₁⟩, hhead, h⟩
    · refine recvChunkSize_ne ?_ hhead
      rw [Bool.toNat_true]
      omega
    · cases head with
      | none => cases h
      | some r =>
        obtain ⟨p, data₁⟩ := r
        obtain ⟨hless, hfits⟩ := recvChunkSize_shrinks hsize hdata hhead
        rcases bind_error h with hchunk | ⟨⟨chunk, s₂⟩, hchunk, h⟩
        · exact recvChunk_ne hchunk
        · cases chunk with
          | none => cases h
          | some x =>
            obtain ⟨body₁, data₂⟩ := x
            obtain ⟨hless', hfits'⟩ := recvChunk_shrinks hchunk
            dsimp only at h
            split at h
            · cases h
            · exact ih (by omega) (by omega) h

/-- There are enough passes for whatever bytes come, in whatever segments. -/
theorem recvResponse_ne {status : Option ℤ} (hsize : buffSize < 2 ^ 31) :
    recvResponse lexicalCast buffSize status s ≠ .error .outOfFuel := by
  intro h
  rcases bind_error h with hheader | ⟨⟨header, s₁⟩, hheader, h⟩
  · exact recvHeader_ne (Nat.lt_succ_self _) hheader
  · cases header with
    | none => cases h
    | some r =>
      obtain ⟨p, data⟩ := r
      dsimp only at h
      split at h
      · rcases bind_error h with hchunks | ⟨⟨chunks, s₂⟩, -, h⟩
        · obtain ⟨hahead, -, hless⟩ := recvHeader_some hsize (Nat.zero_le _) hheader
          rw [List.length_nil] at hless
          exact recvChunks_ne hsize hahead.fits (by omega) hchunks
        · cases h
      · cases h

end Loops

end HttpResponseLoops
