import Mathlib.Tactic.Ring
import SylarNet.HttpClientHeader

/-!
# The line with the size of a chunk

What the parser makes of such a line, whole or up to where a read ends. `execute` with `chunck`
starts anew, so that it reads the size from the digits that are in the buffer.
-/
namespace HttpChunkSizes

open RagelMachine HttpClientGrammar HttpClientParser HttpConnection SylarStream
open HttpClientHeader (Fits counted httpclientParserExecute_eq)
open Http11Parser (slice)
open Http11Grammar (digit space xdigit)

/-- The number that hexadecimal digits stand for. -/
def sizeOf (digits : List UInt8) : ℕ := digits.foldl (fun n c => 16 * n + digitValue c) 0

section Numbers

theorem foldl_digits (n : ℕ) (ds : List UInt8) :
    ds.foldl (fun n c => 16 * n + digitValue c) n = n * 16 ^ ds.length + sizeOf ds := by
  induction ds generalizing n with
  | nil => simp [sizeOf]
  | cons d ds ih =>
    rw [sizeOf, List.foldl_cons, List.foldl_cons, ih, ih (16 * 0 + digitValue d),
      List.length_cons, Nat.pow_succ]
    ring

theorem sizeOf_append (xs ys : List UInt8) :
    sizeOf (xs ++ ys) = sizeOf xs * 16 ^ ys.length + sizeOf ys := by
  rw [sizeOf, List.foldl_append, foldl_digits]
  rfl

theorem sizeOf_cons (d : UInt8) (ds : List UInt8) :
    sizeOf (d :: ds) = digitValue d * 16 ^ ds.length + sizeOf ds := by
  rw [← List.singleton_append, sizeOf_append]
  simp [sizeOf]

theorem foldl_cast (n : ℕ) (ds : List UInt8) :
    ds.foldl (fun (n : ℤ) c => ((16 : ℕ) : ℤ) * n + digitValue c) (n : ℤ) =
      (ds.foldl (fun n c => 16 * n + digitValue c) n : ℕ) := by
  induction ds generalizing n with
  | nil => rfl
  | cons d ds ih =>
    rw [List.foldl_cons, List.foldl_cons, ← ih]
    push_cast
    rfl

theorem xdigit_facts : ∀ c, xdigit c = true →
    space c = false ∧ c ≠ 45 ∧ c ≠ 43 ∧ (c == 120 || c == 88) = false ∧ inBase 16 c = true ∧
      (c ≠ 48 → 0 < digitValue c) := by
  decide +kernel

theorem takeWhile_line {ds : List UInt8} (hds : ∀ d ∈ ds, xdigit d = true) (more : List UInt8) :
    (ds ++ 13 :: more).takeWhile (inBase 16) = ds := by
  induction ds with
  | nil => rfl
  | cons d ds ih =>
    rw [List.forall_mem_cons] at hds
    rw [List.cons_append, List.takeWhile_cons, if_pos (xdigit_facts d hds.1).2.2.2.2.1, ih hds.2]

theorem startsHex_line {ds : List UInt8} (hds : ∀ d ∈ ds, xdigit d = true) (more : List UInt8) :
    startsHex (ds ++ 13 :: more) = false := by
  unfold startsHex
  split
  · next x d tail heq =>
    cases ds with
    | nil => cases heq
    | cons a ds =>
      cases ds with
      | nil =>
        simp only [List.cons_append, List.nil_append, List.cons.injEq] at heq
        rw [← heq.2.1]
        rfl
      | cons b ds =>
        simp only [List.cons_append, List.cons.injEq] at heq
        obtain ⟨-, rfl, -⟩ := heq
        rw [(xdigit_facts b (hds b (by simp))).2.2.2.1, Bool.false_and]
  · rfl

/-- `strtol` of the line is the size, or the greatest `long`. -/
theorem strtol_line {ds : List UInt8} (hds : ∀ d ∈ ds, xdigit d = true) (hne : ds ≠ [])
    (more : List UInt8) : strtol 16 (ds ++ 13 :: more) = min (sizeOf ds : ℤ) (2 ^ 63 - 1) := by
  obtain ⟨d, ds', rfl⟩ := List.exists_cons_of_ne_nil hne
  obtain ⟨hspace, hminus, hplus, -⟩ := xdigit_facts d (hds d List.mem_cons_self)
  have hdrop : ((d :: ds') ++ 13 :: more).dropWhile space = (d :: ds') ++ 13 :: more := by
    rw [List.cons_append, List.dropWhile_cons, if_neg (by rw [hspace]; decide)]
  have hhead : ((d :: ds') ++ 13 :: more).head? = some d := rfl
  have hcast := foldl_cast 0 (d :: ds')
  rw [Nat.cast_zero] at hcast
  unfold strtol
  simp only [hdrop, hhead, Option.some.injEq, hminus, hplus, or_self, if_false,
    startsHex_line hds, takeWhile_line hds, and_false, Bool.false_eq_true, hcast]
  rfl

/-- The `int` that a size becomes on its way through a `long`. -/
def contentLenOf (size : ℕ) : ℤ := Stream.toInt (min (size : ℤ) (2 ^ 63 - 1))

theorem contentLenOf_of_lt {size : ℕ} (h : size < 2 ^ 31) : contentLenOf size = size := by
  have hmin : min (size : ℤ) (2 ^ 63 - 1) = size := by omega
  rw [contentLenOf, hmin, Stream.toInt_of_lt h]

end Numbers

/-!
## The machine in the line
-/

def digitSeen : State := ⟨false, (main.step 48 true .none).1⟩
def digitsSeen : State := ⟨false, (main.step 48 false digitSeen.live).1⟩
def returnSeen : State := ⟨false, (main.step 13 false digitSeen.live).1⟩
def lineSeen : State := ⟨false, (main.step 10 false returnSeen.live).1⟩

/-- From the first digit to the end of the line, and nowhere with what begins neither a size nor
a status line. -/
theorem transitions :
    (∀ c, xdigit c = true → main.next State.initial c = some (digitSeen, [.mark])) ∧
    (∀ st ∈ [digitSeen, digitsSeen],
      (∀ c, xdigit c = true → main.next st c = some (digitsSeen, [])) ∧
      main.next st 13 = some (returnSeen, [.chunkSize])) ∧
    main.next returnSeen 10 = some (lineSeen, [.done]) ∧
    ∀ c, xdigit c = false → c ≠ 72 → main.next State.initial c = none := by
  decide +kernel

theorem accepting_lineSeen : main.accepting lineSeen = true ∧
    ∀ st ∈ [digitSeen, digitsSeen, returnSeen], main.accepting st = false := by
  decide

section Executed

variable {ds : List UInt8}

theorem exec_digits {buffer more : List UInt8} {q : HttpclientParser} {st : State}
    (hcs : q.cs = some st) (hst : st ∈ [digitSeen, digitsSeen])
    (hds : ∀ d ∈ ds, xdigit d = true) (p : ℕ) :
    ∃ st' ∈ [digitSeen, digitsSeen], exec buffer q p (ds ++ more) =
      exec buffer { q with cs := some st' } (p + ds.length) more := by
  induction ds generalizing q st p with
  | nil =>
    refine ⟨st, hst, ?_⟩
    rw [← hcs]
    rfl
  | cons d ds ih =>
    rw [List.forall_mem_cons] at hds
    obtain ⟨st', hst', hexec⟩ :=
      ih (q := { q with cs := some digitsSeen }) rfl (by simp) hds.2 (p + 1)
    refine ⟨st', hst', ?_⟩
    have hlength : p + (d :: ds).length = p + 1 + ds.length := by
      rw [List.length_cons]
      omega
    rw [hlength, ← hexec, List.cons_append, exec, hcs]
    simp only [(transitions.2.1 st hst).1 d hds.1, perform, Bool.false_eq_true, if_false,
      List.nil_append]

/-- The size begins at the first byte. -/
theorem exec_size (hds : ∀ d ∈ ds, xdigit d = true) (hne : ds ≠ []) (status : Option ℤ)
    (buffer more : List UInt8) :
    ∃ st ∈ [digitSeen, digitsSeen], exec buffer (httpclientParserInit status) 0 (ds ++ more) =
      exec buffer { httpclientParserInit status with cs := some st } ds.length more := by
  obtain ⟨d, ds', rfl⟩ := List.exists_cons_of_ne_nil hne
  rw [List.forall_mem_cons] at hds
  have hbehind : ∃ st ∈ [digitSeen, digitsSeen],
      exec buffer { httpclientParserInit status with cs := some digitSeen } 1 (ds' ++ more) =
        exec buffer { httpclientParserInit status with cs := some st } (1 + ds'.length) more :=
    exec_digits rfl (by simp) hds.2 1
  obtain ⟨st, hst, hexec⟩ := hbehind
  refine ⟨st, hst, ?_⟩
  rw [List.length_cons, Nat.add_comm, ← hexec, List.cons_append, exec]
  simp only [httpclientParserInit, transitions.1 d hds.1, perform, act, Bool.false_eq_true,
    if_false, List.nil_append, reduceCtorEq]

end Executed

/-!
## Calls of `execute`
-/

section Calls

variable {p : HttpResponseParser} {ds more : List UInt8}

theorem execute_anew (p : HttpResponseParser) (data : List UInt8) : p.execute data true =
    (HttpResponseParser.mk (httpclientParserInit p.parser.status) p.collected).execute data false :=
  rfl

/-- The callbacks of such a line do nothing. -/
def Idle : Callback → Prop
  | .element e _ => e = .chunkSize ∨ e = .lastChunk ∨ e = .headerDone
  | .httpField _ _ => False

theorem idle_size (b : Prop) [Decidable b] (s : Http11Parser.Slice) :
    Idle (.element (if b then .lastChunk else .chunkSize) s) := by
  split
  · exact .inr (.inl rfl)
  · exact .inl rfl

theorem foldlM_idle {buffer : List UInt8} {r : Collected} {calls : List Callback}
    (h : ∀ c ∈ calls, Idle c) : calls.foldlM (onCallback buffer) r = .ok r := by
  induction calls with
  | nil => rfl
  | cons c cs ih =>
    rw [List.forall_mem_cons] at h
    have hcall : onCallback buffer r c = .ok r := by
      cases c with
      | element e s => obtain rfl | rfl | rfl := h.1 <;> rfl
      | httpField field value => exact h.1.elim
    rw [List.foldlM_cons, hcall]
    exact ih h.2

/-- A call is told by its run over the buffer. -/
theorem execute_of_exec {data : List UInt8} {q : HttpclientParser} {n : ℕ} {calls : List Callback}
    (hlt : data.length < 2 ^ 31) (hpos : 0 < data.length)
    (hexec : exec data (httpclientParserInit p.parser.status) 0 data = (q, n, calls))
    (hn : n ≤ data.length) (hidle : ∀ c ∈ calls, Idle c)
    (hq : q.nread = 0 ∧ q.mark = 0 ∧ q.fieldLen = 0 ∧ q.fieldStart = 0 ∧
      q.bodyStart ≤ data.length) :
    p.execute data true = .ok (⟨{ q with nread := n }, p.collected⟩, n) := by
  obtain ⟨hnread, hmark, hfieldLen, hfieldStart, hbodyStart⟩ := hq
  have hreset : reset (httpclientParserInit p.parser.status) =
      httpclientParserInit p.parser.status := rfl
  have hcounted : counted (exec data (reset (httpclientParserInit p.parser.status)) 0 data) =
      { q with nread := n } := by
    rw [hreset, hexec, counted, hnread, Nat.zero_add]
  have hfits : Fits data.length
      (exec data (reset (httpclientParserInit p.parser.status)) 0 data).2.1
      { q with nread := n } := by
    rw [hreset, hexec]
    exact ⟨hn, hn, hbodyStart, hmark.trans_lt hpos, hfieldLen.trans_le (Nat.zero_le _),
      hfieldStart.trans_lt hpos⟩
  rw [← hcounted] at hfits
  have hrun := httpclientParserExecute_eq hlt hfits
  have hint : Stream.toInt n = n := Stream.toInt_of_lt (lt_of_le_of_lt hn hlt)
  rw [hcounted, hreset, hexec] at hrun
  dsimp only at hrun
  rw [hint] at hrun
  have hanew : (HttpResponseParser.mk (httpclientParserInit p.parser.status)
      p.collected).execute data false = .ok (⟨{ q with nread := n }, p.collected⟩, (n : ℤ).toNat) :=
    HttpClientHeader.execute_eq hrun (foldlM_idle hidle) (Int.natCast_nonneg n)
  rw [execute_anew, hanew, Int.toNat_natCast]

theorem isFinished_eq {q : HttpclientParser} {st : State} {r : Collected} (hcs : q.cs = some st)
    {b : Bool} (hacc : main.accepting st = b) :
    (HttpResponseParser.mk q r).isFinished = if b then 1 else 0 := by
  simp [HttpResponseParser.isFinished, httpclientParserFinish, httpclientParserHasError,
    httpclientParserIsFinished, hcs, hacc]

theorem hasError_iff {q : HttpclientParser} {r : Collected} :
    (HttpResponseParser.mk q r).hasError = true ↔ r.error ≠ 0 ∨ q.cs = none := by
  simp [HttpResponseParser.hasError, httpclientParserHasError]

/-- The parser of a call that ends behind the line. -/
structure LineRead (ds : List UInt8) (q : HttpclientParser) : Prop where
  cs : q.cs = some lineSeen
  contentLen : q.contentLen = contentLenOf (sizeOf ds)
  chunksDone : q.chunksDone = decide (contentLenOf (sizeOf ds) ≤ 0)

/-- The same when the size is an `int`. -/
structure SizeRead (ds : List UInt8) (q : HttpclientParser) : Prop where
  cs : q.cs = some lineSeen
  contentLen : q.contentLen = sizeOf ds
  chunksDone : q.chunksDone = decide (sizeOf ds = 0)

theorem LineRead.sizeRead {q : HttpclientParser} (h : LineRead ds q) (hsize : sizeOf ds < 2 ^ 31) :
    SizeRead ds q := by
  have hlen := contentLenOf_of_lt hsize
  refine ⟨h.cs, h.contentLen.trans hlen, ?_⟩
  rw [h.chunksDone, hlen]
  apply decide_eq_decide.2
  omega

theorem execute_line (hds : ∀ d ∈ ds, xdigit d = true) (hne : ds ≠ [])
    (hlt : (ds ++ 13 :: 10 :: more).length < 2 ^ 31) :
    ∃ q, p.execute (ds ++ 13 :: 10 :: more) true = .ok (⟨q, p.collected⟩, ds.length + 2) ∧
      LineRead ds q := by
  obtain ⟨st, hst, hexec⟩ :=
    exec_size hds hne p.parser.status (ds ++ 13 :: 10 :: more) (13 :: 10 :: more)
  have hsome : Stream.toInt (strtol 16 (ds ++ 13 :: 10 :: more)) = contentLenOf (sizeOf ds) := by
    rw [strtol_line hds hne, contentLenOf]
  rw [exec] at hexec
  obtain ⟨-, hdigits, hend, -⟩ := transitions
  simp only [(hdigits st hst).2, perform, act, httpclientParserInit, List.drop_zero, hsome,
    reduceCtorEq, if_false, Bool.false_eq_true, exec, hend, if_true] at hexec
  refine ⟨_, execute_of_exec hlt ?_ hexec ?_ ?_ ⟨rfl, rfl, rfl, rfl, ?_⟩, rfl, rfl, rfl⟩
  · simp
  · simp
  · rintro c hc
    rcases List.mem_pair.1 hc with rfl | rfl
    · exact idle_size _ _
    · exact .inr (.inr rfl)
  · simp only [List.length_append, List.length_cons]
    omega

/-- A buffer that ends in the line is used up. -/
theorem execute_part {c : List UInt8} (hds : ∀ d ∈ ds, xdigit d = true) (hne : ds ≠ [])
    (hc : c = [] ∨ c = [13]) (hlt : (ds ++ c).length < 2 ^ 31) :
    ∃ q, p.execute (ds ++ c) true = .ok (⟨q, p.collected⟩, (ds ++ c).length) ∧
      ∃ st, q.cs = some st ∧ main.accepting st = false := by
  have hpos : 0 < (ds ++ c).length := by
    rw [List.length_append]
    exact Nat.add_pos_left (List.length_pos_iff.2 hne) _
  obtain ⟨st, hst, hexec⟩ := exec_size hds hne p.parser.status (ds ++ c) c
  rcases hc with rfl | rfl
  · have hnot := accepting_lineSeen.2 st (by
      simp only [List.mem_cons, List.not_mem_nil, or_false] at hst ⊢
      exact hst.imp_right .inl)
    rw [exec, List.append_nil] at hexec
    rw [List.append_nil] at hpos hlt ⊢
    exact ⟨_, execute_of_exec hlt hpos hexec (le_refl _) (by simp)
      ⟨rfl, rfl, rfl, rfl, Nat.zero_le _⟩, st, rfl, hnot⟩
  · rw [exec] at hexec
    simp only [(transitions.2.1 st hst).2, perform, act, httpclientParserInit, reduceCtorEq,
      if_false, Bool.false_eq_true, exec] at hexec
    have hlength : (ds ++ [(13 : UInt8)]).length = ds.length + 1 := List.length_append
    rw [hlength]
    refine ⟨_, execute_of_exec hlt hpos hexec hlength.ge ?_ ⟨rfl, rfl, rfl, rfl, Nat.zero_le _⟩,
      returnSeen, rfl, accepting_lineSeen.2 returnSeen (by simp)⟩
    rintro c hc
    obtain rfl := List.mem_singleton.1 hc
    exact idle_size _ _

theorem execute_other {c : UInt8} (hc : xdigit c = false) (hne : c ≠ 72)
    (hlt : (c :: more).length < 2 ^ 31) :
    ∃ q, p.execute (c :: more) true = .ok (⟨q, p.collected⟩, 0) ∧ q.cs = none := by
  have hexec : exec (c :: more) (httpclientParserInit p.parser.status) 0 (c :: more) =
      ({ httpclientParserInit p.parser.status with cs := none }, 0, []) := by
    simp only [exec, httpclientParserInit, transitions.2.2.2 c hc hne]
  exact ⟨_, execute_of_exec hlt (Nat.succ_pos _) hexec (Nat.zero_le _) (by simp)
    ⟨rfl, rfl, rfl, rfl, Nat.zero_le _⟩, rfl⟩

end Calls

end HttpChunkSizes
