import SylarNet.HttpConnection

/-!
# The header of a response

What is read from a header does not depend on the bytes behind it. The parser leaves the machine
at the end of the header; the texts that the callbacks get lie inside of it, and the number of
the status, which is read from the buffer as such, ends at the space behind its digits.
-/
namespace HttpClientHeader

open RagelMachine HttpClientGrammar HttpClientParser HttpConnection SylarHttp SylarStream
open Http11Parser (Slice len slice)
open HttpSession (textOf)
open Http11Grammar (digit space)

section Numbers

theorem takeWhile_append_of_mem {α : Type} {p : α → Bool} {l : List α} {x : α} (hx : x ∈ l)
    (hp : p x = false) (u : List α) : (l ++ u).takeWhile p = l.takeWhile p := by
  induction l with
  | nil => cases hx
  | cons y ys ih =>
    rw [List.cons_append, List.takeWhile_cons, List.takeWhile_cons]
    cases hy : p y with
    | false => rfl
    | true =>
      rcases List.mem_cons.1 hx with rfl | hx
      · rw [hp] at hy
        cases hy
      · simp only [if_true, ih hx]

theorem not_space_of_digit : ∀ c : UInt8, digit c = true → space c = false := by decide +kernel

/-- A digit and behind it a space. -/
def Stops (t : List UInt8) : Prop :=
  ∃ pre d mid post, t = pre ++ d :: (mid ++ 32 :: post) ∧ digit d = true

theorem dropWhile_stops {t : List UInt8} (h : Stops t) :
    ∃ c r, t.dropWhile space = c :: r ∧ space c = false ∧ 32 ∈ r ∧
      ∀ u, (t ++ u).dropWhile space = c :: (r ++ u) := by
  obtain ⟨pre, d, mid, post, rfl, hd⟩ := h
  have hspace := not_space_of_digit d hd
  induction pre with
  | nil =>
    refine ⟨d, mid ++ 32 :: post, ?_, hspace, by simp, fun u => ?_⟩
    · simp [hspace]
    · simp [hspace]
  | cons x pre ih =>
    cases hx : space x with
    | true =>
      obtain ⟨c, r, hr, hc, hmem, happ⟩ := ih
      refine ⟨c, r, ?_, hc, hmem, fun u => ?_⟩
      · rw [List.cons_append, List.dropWhile_cons, if_pos hx, hr]
      · rw [List.cons_append, List.cons_append, List.dropWhile_cons, if_pos hx, happ]
    | false =>
      refine ⟨x, pre ++ d :: (mid ++ 32 :: post), ?_, hx, by simp, fun u => ?_⟩
      · simp [hx]
      · simp [hx]

/-- The number ends in front of the space. -/
theorem strtol_append {t : List UInt8} (h : Stops t) (u : List UInt8) :
    strtol 10 (t ++ u) = strtol 10 t := by
  obtain ⟨c, r, hr, hc, hmem, happ⟩ := dropWhile_stops h
  have hbase : inBase 10 32 = false := by decide
  have hten : (10 : ℕ) ≠ 16 := by decide
  unfold strtol
  rw [happ, hr]
  simp only [List.head?_cons, List.tail_cons, hten, false_and, if_false]
  by_cases hsign : some c = some 45 ∨ some c = some 43
  · simp only [hsign, if_true, takeWhile_append_of_mem hmem hbase u]
  · have hall := takeWhile_append_of_mem (List.mem_cons_of_mem c hmem) hbase u
    rw [List.cons_append] at hall
    simp only [hsign, if_false, hall]

end Numbers

section Calls

variable {buffer extra : List UInt8}

/-- The callbacks with an empty body. -/
def Idle : Callback → Prop
  | .element .chunkSize _ => True
  | .element .lastChunk _ => True
  | .element .headerDone _ => True
  | _ => False

/-- The same call, or one that does nothing in place of another. -/
def Matches (buffer : List UInt8) (c c' : Callback) : Prop :=
  Idle c ∧ Idle c' ∨
    c' = c ∧ ∀ s, c = .element .statusCode s → Stops (buffer.drop s.start)

theorem onCallback_idle {c : Callback} (hc : Idle c) (r : Collected) :
    onCallback buffer r c = .ok r := by
  cases c with
  | element e s => cases e <;> first | rfl | exact absurd hc id
  | httpField => exact absurd hc id

theorem textOf_append {s : Slice} {text : List UInt8}
    (h : textOf buffer s = .ok text) :
    textOf (buffer ++ extra) s = .ok text := by
  unfold textOf at h ⊢
  split at h
  · rename_i hle
    cases h
    rw [if_pos (by rw [List.length_append]; omega), List.drop_append_of_le_length (by omega),
      List.take_append_of_le_length (by rw [List.length_drop]; omega)]
  · cases h

theorem onCallback_append {c c' : Callback} (hc : Matches buffer c c') {r r' : Collected}
    (h : onCallback buffer r c = .ok r') : onCallback (buffer ++ extra) r c' = .ok r' := by
  rcases hc with ⟨hc, hc'⟩ | ⟨rfl, hstatus⟩
  · rw [onCallback_idle hc] at h
    rw [onCallback_idle hc', h]
  · cases c' with
    | element e s =>
      cases e with
      | chunkSize | lastChunk | headerDone => exact h
      | statusCode =>
        simp only [onCallback] at h ⊢
        split at h
        · rename_i hle
          rw [if_pos (by rw [List.length_append]; omega), List.drop_append_of_le_length hle]
          cases h
          simp only [onResponseStatus, strtol_append (hstatus s rfl)]
        · cases h
      | reasonPhrase | httpVersion =>
        simp only [onCallback] at h ⊢
        cases htext : textOf buffer s with
        | error f =>
          rw [htext] at h
          cases h
        | ok text =>
          rw [htext] at h
          rw [textOf_append htext]
          exact h
    | httpField field value =>
      simp only [onCallback] at h ⊢
      split at h
      · rename_i hzero
        rw [if_pos hzero, h]
      · rename_i hzero
        rw [if_neg hzero]
        cases hname : textOf buffer field with
        | error f =>
          rw [hname] at h
          cases h
        | ok name =>
          cases htext : textOf buffer value with
          | error f =>
            rw [hname, htext] at h
            cases h
          | ok text =>
            rw [hname, htext] at h
            rw [textOf_append hname, textOf_append htext]
            exact h

theorem foldlM_append_of_ok {calls calls' : List Callback}
    (hcalls : List.Forall₂ (Matches buffer) calls calls') {r r' : Collected}
    (h : calls.foldlM (onCallback buffer) r = .ok r') :
    calls'.foldlM (onCallback (buffer ++ extra)) r = .ok r' := by
  induction hcalls generalizing r with
  | nil => exact h
  | @cons c c' cs cs' hc _ ih =>
    rw [List.foldlM_cons] at h ⊢
    cases hcall : onCallback buffer r c with
    | error f =>
      rw [hcall] at h
      cases h
    | ok r₁ =>
      rw [hcall] at h
      rw [onCallback_append hc hcall]
      exact ih h

end Calls

section Runs

variable {buffer : List UInt8} {p : ℕ} {q q' : HttpclientParser} {st : State}

/-- What does not depend on the bytes behind the header. -/
structure Alike (q q' : HttpclientParser) : Prop where
  cs : q'.cs = q.cs
  bodyStart : q'.bodyStart = q.bodyStart
  chunked : q'.chunked = q.chunked
  nread : q'.nread = q.nread
  mark : q'.mark = q.mark
  fieldStart : q'.fieldStart = q.fieldStart
  fieldLen : q'.fieldLen = q.fieldLen

theorem act_alike (extra : List UInt8) (h : Alike q q') {a : Action}
    (hstatus : a = .statusCode → Stops (buffer.drop q.mark)) :
    Alike (act buffer p q a).1 (act (buffer ++ extra) p q' a).1 ∧
      List.Forall₂ (Matches buffer) (act buffer p q a).2 (act (buffer ++ extra) p q' a).2 := by
  cases a with
  | mark | startValue => exact ⟨{ h with mark := rfl }, .nil⟩
  | startField => exact ⟨{ h with fieldStart := rfl }, .nil⟩
  | transChunked => exact ⟨{ h with chunked := rfl }, .nil⟩
  | writeContentLen | writeConnectionClose => exact ⟨{ h with }, .nil⟩
  | writeField =>
    refine ⟨{ h with fieldLen := ?_ }, .nil⟩
    simp only [act, h.fieldStart]
  | writeValue | reasonPhrase | httpVersion =>
    refine ⟨{ h with }, .cons (.inr ⟨?_, nofun⟩) .nil⟩
    simp only [h.fieldStart, h.fieldLen, h.mark]
  | statusCode =>
    refine ⟨{ h with }, .cons (.inr ⟨?_, ?_⟩) .nil⟩
    · rw [h.mark]
    · rintro s ⟨⟩
      exact hstatus rfl
  | chunkSize =>
    refine ⟨{ h with chunked := rfl }, .cons (.inl ⟨?_, ?_⟩) .nil⟩
    · split <;> trivial
    · split <;> trivial
  | done => exact ⟨{ h with bodyStart := rfl }, .cons (.inl ⟨trivial, trivial⟩) .nil⟩

theorem act_mark (buffer : List UInt8) (p : ℕ) (q : HttpclientParser) (a : Action) :
    (act buffer p q a).1.mark = q.mark ∧ a ≠ .mark ∧ a ≠ .startValue ∨
      (act buffer p q a).1.mark = p ∧ (a = .mark ∨ a = .startValue) := by
  cases a <;> simp [act]

/-- Only the transition of the status reads a number for a callback, and it sets no index. -/
def StatusStops (buffer : List UInt8) (q : HttpclientParser) (acts : List Action) : Prop :=
  .statusCode ∈ acts → Stops (buffer.drop q.mark) ∧ .mark ∉ acts ∧ .startValue ∉ acts

theorem perform_alike (extra : List UInt8) (h : Alike q q') {acts : List Action}
    (hstatus : StatusStops buffer q acts) (hmark : q.mark ≤ p) :
    Alike (perform buffer p q acts).1 (perform (buffer ++ extra) p q' acts).1 ∧
      List.Forall₂ (Matches buffer) (perform buffer p q acts).2.1
        (perform (buffer ++ extra) p q' acts).2.1 ∧
      (perform (buffer ++ extra) p q' acts).2.2 = decide (.done ∈ acts) ∧
      (perform buffer p q acts).2.2 = decide (.done ∈ acts) ∧
      (perform buffer p q acts).1.mark ≤ p := by
  induction acts generalizing q q' with
  | nil => exact ⟨h, .nil, rfl, rfl, hmark⟩
  | cons a as ih =>
    have hact : Alike (act buffer p q a).1 (act (buffer ++ extra) p q' a).1 ∧ _ :=
      act_alike extra h fun ha => (hstatus (by simp [ha])).1
    have hle : (act buffer p q a).1.mark ≤ p := by
      rcases act_mark buffer p q a with ⟨heq, -⟩ | ⟨heq, -⟩ <;> omega
    by_cases hd : a = .done
    · simp only [perform, hd, if_true, List.mem_cons, true_or, decide_true]
      subst hd
      exact ⟨hact.1, hact.2, trivial, trivial, hle⟩
    · have htail : StatusStops buffer (act buffer p q a).1 as := by
        intro hs
        obtain ⟨hstops, hm, hv⟩ := hstatus (List.mem_cons_of_mem a hs)
        rw [List.mem_cons, not_or] at hm hv
        rcases act_mark buffer p q a with ⟨heq, -⟩ | ⟨-, ha | ha⟩
        · exact ⟨by rwa [heq], hm.2, hv.2⟩
        · exact absurd ha.symm hm.1
        · exact absurd ha.symm hv.1
      obtain ⟨halike, hcalls, hbroke', hbroke, hmark'⟩ := ih hact.1 htail hle
      have hdone : (.done ∈ a :: as) = (.done ∈ as) := by simp [Ne.symm hd]
      simp only [perform, hd, if_false, hdone]
      exact ⟨halike, List.rel_append hact.2 hcalls, hbroke', hbroke, hmark'⟩

/-- The run is at byte `p`, with all indices older than it. -/
structure Going (buffer : List UInt8) (p : ℕ) (st : State) (q : HttpclientParser) : Prop where
  cs : q.cs = some st
  mark : q.mark ≤ p - 1
  behind : st = State.initial ∨
    st.fresh = false ∧ ∃ c, 0 < p ∧ buffer[p - 1]? = some c ∧ main.Arrived c st.live

theorem drop_eq_append_cons {l : List UInt8} {i m : ℕ} {c : UInt8} (h : l[i]? = some c)
    (hm : m ≤ i) : l.drop m = (l.drop m).take (i - m) ++ c :: l.drop (i + 1) := by
  obtain ⟨hlt, hc⟩ := List.getElem?_eq_some_iff.1 h
  have hsplit := List.take_append_drop (i - m) (l.drop m)
  rw [List.drop_drop, Nat.add_sub_cancel' hm, List.drop_eq_getElem_cons hlt, hc] at hsplit
  exact hsplit.symm

theorem Going.statusStops (hg : Going buffer p st q) {c : UInt8} (hc : buffer[p]? = some c)
    {st' : State} {acts : List Action} (hn : main.next st c = some (st', acts)) :
    StatusStops buffer q acts := by
  intro hs
  have hspace := executed_confined statusCode_confined hn hs
  rcases hg.behind with rfl | ⟨hfresh, d, hp, hd, hl⟩
  · exact absurd hs (not_executed_of_shuns (c := 0) statusCode_shuns
      (.inr statusCode_entersWith) (arrived_none main 0) (by decide) rfl hn)
  · have hdigit : digit d = true := by
      by_contra hnot
      exact not_executed_of_shuns statusCode_shuns (.inl hfresh) hl (by simpa using hnot) rfl hn
        hs
    refine ⟨?_, not_executed_of_shuns mark_shuns (.inl hfresh) hl hdigit hspace hn,
      not_executed_of_shuns startValue_shuns (.inl hfresh) hl hdigit hspace hn⟩
    rw [eq_of_beq hspace] at hc
    have hdrop := drop_eq_append_cons hd hg.mark
    rw [Nat.sub_add_cancel hp, drop_eq_append_cons hc (le_refl p), Nat.sub_self,
      List.take_zero] at hdrop
    exact ⟨_, d, [], _, hdrop, hdigit⟩

theorem going_next {c : UInt8} (hc : buffer[p]? = some c) {st' : State} {acts : List Action}
    (hn : main.next st c = some (st', acts)) {q₁ : HttpclientParser} (hmark : q₁.mark ≤ p) :
    Going buffer (p + 1) st' { q₁ with cs := some st' } := by
  refine ⟨rfl, hmark, .inr ?_⟩
  obtain ⟨rfl, -⟩ := next_eq hn
  exact ⟨rfl, c, Nat.succ_pos p, hc, arrived_step main c _ _⟩

/-- A run that ends in a final state has left the machine there, and does so with more bytes
behind it too. -/
theorem exec_append {bytes : List UInt8} (extra : List UInt8) (hg : Going buffer p st q)
    (h : Alike q q') (hbytes : buffer.drop p = bytes) (hst : main.accepting st = false)
    {stEnd : State} (hcs : (exec buffer q p bytes).1.cs = some stEnd)
    (hend : main.accepting stEnd = true) :
    Alike (exec buffer q p bytes).1 (exec (buffer ++ extra) q' p (bytes ++ extra)).1 ∧
      (exec (buffer ++ extra) q' p (bytes ++ extra)).2.1 = (exec buffer q p bytes).2.1 ∧
      List.Forall₂ (Matches buffer) (exec buffer q p bytes).2.2
        (exec (buffer ++ extra) q' p (bytes ++ extra)).2.2 := by
  induction bytes generalizing q q' p st with
  | nil =>
    rw [exec, hg.cs] at hcs
    cases hcs
    rw [hend] at hst
    cases hst
  | cons c cs ih =>
    have hc : buffer[p]? = some c := by
      rw [← List.head?_drop, hbytes]
      rfl
    have hrest : buffer.drop (p + 1) = cs := by
      rw [← List.tail_drop, hbytes]
      rfl
    have hcs' : q'.cs = some st := h.cs.trans hg.cs
    cases hn : main.next st c with
    | none => simp [exec, hg.cs, hn] at hcs
    | some r =>
      obtain ⟨st', acts⟩ := r
      have hmark : q.mark ≤ p := le_trans hg.mark (Nat.sub_le p 1)
      obtain ⟨halike, hcalls, hbroke', hbroke, hmark'⟩ :=
        perform_alike extra h (hg.statusStops hc hn) hmark
      by_cases hd : .done ∈ acts
      · simp only [List.cons_append, exec, hg.cs, hcs', hn, hbroke, hbroke', hd, decide_true,
          if_true]
        exact ⟨{ halike with cs := rfl }, trivial, hcalls⟩
      · have hnot : main.accepting st' = false := by
          by_contra hacc
          rw [Bool.not_eq_false] at hacc
          exact hd (finishing_executed hn hacc)
        simp only [exec, hg.cs, hn, hbroke, hd, decide_false, Bool.false_eq_true, if_false] at hcs
        have halike' : Alike { (perform buffer p q acts).1 with cs := some st' }
            { (perform (buffer ++ extra) p q' acts).1 with cs := some st' } :=
          { halike with cs := rfl }
        obtain ⟨hq, hpos, hall⟩ := ih (going_next hc hn hmark') halike' hrest hnot hcs
        simp only [List.cons_append, exec, hg.cs, hcs', hn, hbroke, hbroke', hd, decide_false,
          Bool.false_eq_true, if_false]
        exact ⟨hq, hpos, List.rel_append hcalls hall⟩

end Runs

/-- The parser accepts the header when it arrives at once. -/
structure Accepts (status : Option ℤ) (header : List UInt8) (p : HttpResponseParser) : Prop where
  parsed : (HttpResponseParser.new status).execute header false = .ok (p, header.length)
  noError : p.hasError = false
  finished : p.isFinished ≠ 0

section Executes

variable {status : Option ℤ} {header : List UInt8} {p : HttpResponseParser}

theorem execute_bind (parser : HttpResponseParser) (data : List UInt8) :
    parser.execute data false = (httpclientParserExecute parser.parser data 0).bind fun x =>
      (x.2.2.foldlM (onCallback data) parser.collected).bind fun r =>
        if x.2.1 < 0 then .error .outsideBuffer else .ok (⟨x.1, r⟩, x.2.1.toNat) := rfl

theorem execute_ok {parser : HttpResponseParser} {data : List UInt8} {n : ℕ}
    (h : parser.execute data false = .ok (p, n)) :
    ∃ (offset : ℤ) (calls : List Callback),
      httpclientParserExecute parser.parser data 0 = .ok (p.parser, offset, calls) ∧
      calls.foldlM (onCallback data) parser.collected = .ok p.collected ∧ 0 ≤ offset ∧
      offset.toNat = n := by
  rw [execute_bind] at h
  cases hexec : httpclientParserExecute parser.parser data 0 with
  | error f =>
    rw [hexec] at h
    cases h
  | ok x =>
    obtain ⟨q, offset, calls⟩ := x
    rw [hexec] at h
    cases hfold : calls.foldlM (onCallback data) parser.collected with
    | error f =>
      simp only [Except.bind, hfold] at h
      cases h
    | ok r =>
      simp only [Except.bind, hfold] at h
      split at h
      · cases h
      · cases h
        exact ⟨offset, calls, rfl, hfold, by omega, rfl⟩

theorem execute_eq {parser : HttpResponseParser} {data : List UInt8} {q : HttpclientParser}
    {offset : ℤ} {calls : List Callback} {r : Collected}
    (hexec : httpclientParserExecute parser.parser data 0 = .ok (q, offset, calls))
    (hfold : calls.foldlM (onCallback data) parser.collected = .ok r) (hoffset : 0 ≤ offset) :
    parser.execute data false = .ok (⟨q, r⟩, offset.toNat) := by
  rw [execute_bind, hexec, Except.bind, hfold]
  exact if_neg (not_lt.2 hoffset)

/-- What the assertions and the checks behind a run ask for. -/
structure Fits (length pos : ℕ) (q : HttpclientParser) : Prop where
  pos : pos ≤ length
  nread : q.nread ≤ length
  bodyStart : q.bodyStart ≤ length
  mark : q.mark < length
  fieldLen : q.fieldLen ≤ length
  fieldStart : q.fieldStart < length

theorem Fits.mono {n n' pos : ℕ} {q q' : HttpclientParser} (h : Fits n pos q)
    (halike : Alike q q') (hle : n ≤ n') : Fits n' pos q' where
  pos := le_trans h.pos hle
  nread := by
    rw [halike.nread]
    exact le_trans h.nread hle
  bodyStart := by
    rw [halike.bodyStart]
    exact le_trans h.bodyStart hle
  mark := by
    rw [halike.mark]
    exact lt_of_lt_of_le h.mark hle
  fieldLen := by
    rw [halike.fieldLen]
    exact le_trans h.fieldLen hle
  fieldStart := by
    rw [halike.fieldStart]
    exact lt_of_lt_of_le h.fieldStart hle

/-- The parser behind a run from the first byte on. -/
def counted (r : HttpclientParser × ℕ × List Callback) : HttpclientParser :=
  { r.1 with nread := r.1.nread + r.2.1 }

theorem httpclientParserExecute_ok {q q' : HttpclientParser} {buffer : List UInt8} {offset : ℤ}
    {calls : List Callback} (h : httpclientParserExecute q buffer 0 = .ok (q', offset, calls))
    (hoffset : 0 ≤ offset) :
    q' = counted (exec buffer (reset q) 0 buffer) ∧ offset = Stream.toInt q'.nread ∧
      calls = (exec buffer (reset q) 0 buffer).2.2 ∧
      Fits buffer.length (exec buffer (reset q) 0 buffer).2.1 q' := by
  unfold httpclientParserExecute at h
  simp only [List.drop_zero, Nat.sub_zero] at h
  split at h
  · cases h
  · split at h
    · rename_i hle
      split at h
      · rename_i hlt
        simp only [Except.ok.injEq, Prod.mk.injEq] at h
        obtain ⟨rfl, rfl, rfl⟩ := h
        exact ⟨rfl, rfl, rfl, hle.1, hle.2.1, hle.2.2, hlt.1, hlt.2.1, hlt.2.2⟩
      · simp only [Except.ok.injEq, Prod.mk.injEq] at h
        omega
    · cases h

theorem httpclientParserExecute_eq {q : HttpclientParser} {buffer : List UInt8}
    (hlt : buffer.length < 2 ^ 31)
    (hfits : Fits buffer.length (exec buffer (reset q) 0 buffer).2.1
      (counted (exec buffer (reset q) 0 buffer))) :
    httpclientParserExecute q buffer 0 = .ok (counted (exec buffer (reset q) 0 buffer),
      Stream.toInt (counted (exec buffer (reset q) 0 buffer)).nread,
      (exec buffer (reset q) 0 buffer).2.2) := by
  have hint : (buffer.length : ℤ) = Stream.toInt buffer.length - Stream.toInt (0 : ℕ) := by
    rw [Stream.toInt_of_lt hlt, Stream.toInt_of_lt (by omega)]
    omega
  unfold httpclientParserExecute
  simp only [List.drop_zero, Nat.sub_zero]
  rw [if_neg (by simpa using hint), if_pos ⟨hfits.pos, hfits.nread, hfits.bodyStart⟩,
    if_pos ⟨hfits.mark, hfits.fieldLen, hfits.fieldStart⟩]
  rfl

theorem not_accepting_initial : main.accepting State.initial = false := by decide

theorem accepting_of_finished {q : HttpclientParser} {r : Collected}
    (herror : (HttpResponseParser.mk q r).hasError = false)
    (hfinished : (HttpResponseParser.mk q r).isFinished ≠ 0) :
    r.error = 0 ∧ ∃ st, q.cs = some st ∧ main.accepting st = true := by
  obtain ⟨hr, hcs⟩ : r.error = 0 ∧ q.cs ≠ none := by
    simpa [HttpResponseParser.hasError, httpclientParserHasError] using herror
  obtain ⟨st, hst⟩ := Option.ne_none_iff_exists'.1 hcs
  refine ⟨hr, st, hst, ?_⟩
  by_contra hacc
  apply hfinished
  simp [HttpResponseParser.isFinished, httpclientParserFinish, httpclientParserHasError,
    httpclientParserIsFinished, hst, hacc]

theorem httpclientParserExecute_append {q q₁ : HttpclientParser} {offset : ℤ}
    {calls : List Callback} {stEnd : State} {extra : List UInt8}
    (hq : q.cs = some State.initial)
    (h : httpclientParserExecute q header 0 = .ok (q₁, offset, calls)) (hoffset : 0 ≤ offset)
    (hst : q₁.cs = some stEnd) (hacc : main.accepting stEnd = true)
    (hlt : (header ++ extra).length < 2 ^ 31) :
    ∃ q₁' calls', httpclientParserExecute q (header ++ extra) 0 = .ok (q₁', offset, calls') ∧
      Alike q₁ q₁' ∧ List.Forall₂ (Matches header) calls calls' := by
  obtain ⟨rfl, htoInt, rfl, hfits⟩ := httpclientParserExecute_ok h hoffset
  have hgoing : Going header 0 State.initial (reset q) := ⟨hq, le_refl 0, .inl rfl⟩
  have hself : Alike (reset q) (reset q) := ⟨rfl, rfl, rfl, rfl, rfl, rfl, rfl⟩
  obtain ⟨halike, hpos, hmatches⟩ :=
    exec_append extra hgoing hself List.drop_zero not_accepting_initial hst hacc
  have hcounted : Alike (counted (exec header (reset q) 0 header))
      (counted (exec (header ++ extra) (reset q) 0 (header ++ extra))) := by
    refine { halike with nread := ?_ }
    simp only [counted, halike.nread, hpos]
  have hfits' := hfits.mono hcounted (by simp : header.length ≤ (header ++ extra).length)
  rw [← hpos] at hfits'
  have hexec := httpclientParserExecute_eq hlt hfits'
  rw [hcounted.nread, ← htoInt] at hexec
  exact ⟨_, _, hexec, hcounted, hmatches⟩

/-- The assertions behind a run do not hold of an empty buffer. -/
theorem Accepts.pos (ha : Accepts status header p) : 0 < header.length := by
  obtain ⟨offset, calls, hexec, -, hoffset, -⟩ := execute_ok ha.parsed
  obtain ⟨-, -, -, hfits⟩ := httpclientParserExecute_ok hexec hoffset
  exact lt_of_le_of_lt (Nat.zero_le _) hfits.mark

/-- What stands behind the header changes nothing of what is read from it. -/
theorem Accepts.execute_append (ha : Accepts status header p) {extra : List UInt8}
    (hlt : (header ++ extra).length < 2 ^ 31) :
    ∃ q', (HttpResponseParser.new status).execute (header ++ extra) false =
        .ok (⟨q', p.collected⟩, header.length) ∧
      (HttpResponseParser.mk q' p.collected).hasError = false ∧
      (HttpResponseParser.mk q' p.collected).isFinished ≠ 0 ∧
      q'.chunked = p.parser.chunked := by
  obtain ⟨offset, calls, hexec, hfold, hoffset, hn⟩ := execute_ok ha.parsed
  obtain ⟨herror, stEnd, hst, hacc⟩ := accepting_of_finished ha.noError ha.finished
  obtain ⟨q', calls', hexec', halike, hmatches⟩ :=
    httpclientParserExecute_append rfl hexec hoffset hst hacc hlt
  have hst' : q'.cs = some stEnd := halike.cs.trans hst
  refine ⟨q', ?_, ?_, ?_, halike.chunked⟩
  · rw [← hn]
    exact execute_eq hexec' (foldlM_append_of_ok hmatches hfold) hoffset
  · simp [HttpResponseParser.hasError, httpclientParserHasError, herror, hst']
  · simp [HttpResponseParser.isFinished, httpclientParserFinish, httpclientParserHasError,
      httpclientParserIsFinished, hst', hacc]

end Executes

end HttpClientHeader
