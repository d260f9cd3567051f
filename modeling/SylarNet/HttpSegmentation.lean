import SylarNet.Http11Tokens
import SylarNet.HttpSession

/-!
# Requests in any segments

A header may come in any number of reads. What the callbacks then get are the tokens of the
header, all of them, if and only if no read ends inside a token; and if they do, the request is
the one that a single read gives.
-/
namespace HttpSegmentation

open RagelMachine Http11Grammar Http11Parser Http11Tokens HttpSession SylarHttp SylarStream

/-!
## Callbacks in a buffer that is a part of the bytes
-/

section Part

variable {w : List UInt8} {b n : ℕ}

theorem textOf_of_inside {buffer : List UInt8} {s : Slice} (hs : Slice.Inside buffer.length s) :
    textOf buffer s = .ok ((buffer.drop s.start).take s.length) := if_pos hs

theorem inside_of_textOf {buffer text : List UInt8} {s : Slice} (h : textOf buffer s = .ok text) :
    Slice.Inside buffer.length s := by
  by_contra hs
  rw [show textOf buffer s = .error .outsideBuffer from if_neg hs] at h
  cases h

theorem length_part (hn : b + n ≤ w.length) : ((w.drop b).take n).length = n := by
  rw [List.length_take, List.length_drop]
  omega

theorem take_part {s : Slice} (hs : Slice.Inside n s) :
    (((w.drop b).take n).drop s.start).take s.length = (w.drop (s.start + b)).take s.length := by
  have hle : s.length ≤ n - s.start := by
    unfold Slice.Inside at hs
    omega
  rw [List.drop_take, List.take_take, Nat.min_eq_left hle, List.drop_drop, Nat.add_comm]

theorem textOf_shift (hn : b + n ≤ w.length) {s : Slice} (hs : Slice.Inside n s) :
    textOf ((w.drop b).take n) s = textOf w (Slice.shift b s) := by
  have hw : Slice.Inside w.length (Slice.shift b s) := by
    simp only [Slice.Inside, Slice.shift] at *
    omega
  rw [textOf_of_inside hw, textOf_of_inside (by rwa [length_part hn]), take_part hs]
  rfl

theorem charsToHttpMethod_slice {l : List UInt8} {s : Slice}
    (h : l[s.start + s.length]? = some 32) :
    charsToHttpMethod (l.drop s.start) = charsToHttpMethod ((l.drop s.start).take s.length) := by
  obtain ⟨tail, htail⟩ : ∃ tail, (l.drop s.start).drop s.length = 32 :: tail := by
    rw [List.drop_drop]
    obtain ⟨hlt, hget⟩ := List.getElem?_eq_some_iff.1 h
    exact ⟨_, by rw [List.drop_eq_getElem_cons hlt, hget]⟩
  have hsplit := List.take_append_drop s.length (l.drop s.start)
  rw [htail] at hsplit
  rw [← hsplit, charsToHttpMethod_space, hsplit]

theorem onRequestMethod_shift {s : Slice} (hs : Slice.Inside n s)
    (h : ((w.drop b).take n)[s.start + s.length]? = some 32) (r : Collected) :
    onRequestMethod (((w.drop b).take n).drop s.start) r =
      onRequestMethod (w.drop (s.start + b)) r := by
  have hw : w[(Slice.shift b s).start + (Slice.shift b s).length]? = some 32 := by
    rw [List.getElem?_take] at h
    split at h
    · rw [List.getElem?_drop] at h
      rw [← h]
      congr 1
      simp only [Slice.shift]
      omega
    · cases h
  have hchars : charsToHttpMethod (((w.drop b).take n).drop s.start) =
      charsToHttpMethod (w.drop (s.start + b)) := by
    rw [charsToHttpMethod_slice h, take_part hs]
    exact (charsToHttpMethod_slice hw).symm
  unfold onRequestMethod
  rw [hchars]

theorem onCallback_shift (hn : b + n ≤ w.length) {c : Callback} (hin : Callback.Inside n c)
    (hc : Proper ((w.drop b).take n) c) (r : Collected) :
    onCallback ((w.drop b).take n) r c = onCallback w r (Callback.shift b c) := by
  cases c with
  | element e s =>
    cases s with
    | none => exact absurd hin id
    | some s =>
      have htext := textOf_shift hn hin
      cases e with
      | requestMethod =>
        simp only [onCallback, onElement, Callback.shift, Option.map_some, htext]
        rw [onRequestMethod_shift hin (hc.method s rfl)]
        rfl
      | _ => simp only [onCallback, onElement, Callback.shift, Option.map_some, htext]
  | httpField field value =>
    simp only [onCallback, Callback.shift, textOf_shift hn hin.1, textOf_shift hn hin.2]

theorem onCallback_idle {buffer : List UInt8} {c : Callback} (hc : Proper buffer c)
    (he : Callback.effective c = false) (r : Collected) : onCallback buffer r c = .ok r := by
  have hin := hc.idle he
  cases c with
  | element e s =>
    cases s with
    | none => exact absurd hin id
    | some s =>
      cases e with
      | requestUri => rfl
      | headerDone => rfl
      | _ => cases he
  | httpField field value => cases he

theorem httpField_ok {buffer : List UInt8} {field value : Slice} {r r' : Collected}
    (h : onCallback buffer r (.httpField field value) = .ok r') :
    ∃ name text, textOf buffer field = .ok name ∧ textOf buffer value = .ok text ∧
      r' = onRequestHttpField name text r := by
  cases hfield : textOf buffer field with
  | error f =>
    simp only [onCallback, hfield] at h
    cases h
  | ok name =>
    cases hvalue : textOf buffer value with
    | error f =>
      simp only [onCallback, hfield, hvalue] at h
      cases h
    | ok text =>
      simp only [onCallback, hfield, hvalue] at h
      cases h
      exact ⟨name, text, rfl, rfl, rfl⟩

theorem inside_of_onCallback {buffer : List UInt8} {c : Callback} {r r' : Collected}
    (he : Callback.effective c = true) (h : onCallback buffer r c = .ok r') :
    Callback.Inside buffer.length c := by
  cases c with
  | element e s =>
    cases s with
    | none => cases h
    | some s =>
      have htext : ∃ text, textOf buffer s = .ok text := by
        cases htext : textOf buffer s with
        | error f =>
          cases e with
          | requestUri => cases he
          | headerDone => cases he
          | _ =>
            simp only [onCallback, onElement, htext] at h
            cases h
        | ok text => exact ⟨text, rfl⟩
      obtain ⟨text, htext⟩ := htext
      exact inside_of_textOf htext
  | httpField field value =>
    obtain ⟨name, text, hfield, hvalue, -⟩ := httpField_ok h
    exact ⟨inside_of_textOf hfield, inside_of_textOf hvalue⟩

/-- The callbacks of all tokens, over all the bytes. -/
def collect (w : List UInt8) (r : Collected) (ts : List Token) : Except Fault Collected :=
  ts.foldlM (fun r t => onCallback w r t.call) r

theorem foldlM_effective {buffer : List UInt8} {calls : List Callback}
    (hc : ∀ c ∈ calls, Proper buffer c) (r : Collected) :
    calls.foldlM (onCallback buffer) r =
      (calls.filter Callback.effective).foldlM (onCallback buffer) r := by
  induction calls generalizing r with
  | nil => rfl
  | cons c cs ih =>
    have htail := fun r => ih (fun x hx => hc x (List.mem_cons_of_mem c hx)) r
    cases he : Callback.effective c with
    | false =>
      rw [List.filter_cons_of_neg (by simp [he]), List.foldlM_cons,
        onCallback_idle (hc c (by simp)) he]
      exact htail r
    | true =>
      rw [List.filter_cons_of_pos he, List.foldlM_cons, List.foldlM_cons]
      cases onCallback buffer r c with
      | error f => rfl
      | ok r => exact htail r

/-- Calls that are given their tokens collect what the tokens do. -/
theorem foldlM_tokens (hn : b + n ≤ w.length) {calls : List Callback} {ts : List Token}
    (hc : ∀ c ∈ calls, Proper ((w.drop b).take n) c)
    (h : List.Forall₂ (fun c t => Callback.shift b c = t.call ∧ Callback.Inside n c) calls ts)
    (r : Collected) :
    calls.foldlM (onCallback ((w.drop b).take n)) r = collect w r ts := by
  induction h generalizing r with
  | nil => rfl
  | @cons c t cs ts hct hrest ih =>
    have htail := fun r => ih (fun x hx => hc x (List.mem_cons_of_mem c hx)) r
    unfold collect at htail ⊢
    rw [List.foldlM_cons, List.foldlM_cons, onCallback_shift hn hct.2 (hc c (by simp)), hct.1]
    cases onCallback w r t.call with
    | error f => rfl
    | ok r => exact htail r

theorem collect_append (r : Collected) (ts ts' : List Token) :
    collect w r (ts ++ ts') = (collect w r ts).bind fun r => collect w r ts' := by
  unfold collect
  rw [List.foldlM_append]
  rfl

theorem of_map_ok {α β : Type} {x : Except Fault α} {f : α → β} {r : β}
    (h : x.map f = .ok r) : ∃ a, x = .ok a ∧ f a = r := by
  cases x with
  | error e => cases h
  | ok a =>
    cases h
    exact ⟨a, rfl, rfl⟩

theorem onCallback_error {buffer : List UInt8} {c : Callback} {r r' : Collected}
    (h : onCallback buffer r c = .ok r') (hr : r.error ≠ 0) : r'.error ≠ 0 := by
  cases c with
  | element e s =>
    cases s with
    | none => cases h
    | some s =>
      cases e with
      | requestUri =>
        cases h
        exact hr
      | headerDone =>
        cases h
        exact hr
      | requestMethod =>
        obtain ⟨text, -, rfl⟩ := of_map_ok (x := textOf buffer s) h
        unfold onRequestMethod
        split
        · simp
        · exact hr
      | httpVersion =>
        obtain ⟨text, -, rfl⟩ := of_map_ok (x := textOf buffer s) h
        unfold onRequestVersion
        split
        · exact hr
        · split
          · exact hr
          · simp
      | _ =>
        obtain ⟨text, -, rfl⟩ := of_map_ok (x := textOf buffer s) h
        exact hr
  | httpField field value =>
    obtain ⟨name, text, -, -, rfl⟩ := httpField_ok h
    unfold onRequestHttpField
    split
    · exact hr
    · exact hr

/-- An error stays. -/
theorem collect_error {ts : List Token} {r r' : Collected} (h : collect w r ts = .ok r')
    (hr : r'.error = 0) : r.error = 0 := by
  induction ts generalizing r with
  | nil =>
    cases h
    exact hr
  | cons t ts ih =>
    unfold collect at h ih
    rw [List.foldlM_cons] at h
    cases hcall : onCallback w r t.call with
    | error f =>
      rw [hcall] at h
      cases h
    | ok r₁ =>
      rw [hcall] at h
      have hr₁ := ih h
      by_contra hne
      exact onCallback_error hcall hne hr₁

end Part

/-!
## Reading the header
-/

/-- The call, counted from the first byte of the stream. -/
def shifted (g : Given) : Callback := Callback.shift g.before g.call

/-- What the callbacks that do anything were given. -/
def passed (given : List Given) : List Callback :=
  (given.filter fun g => Callback.effective g.call).map shifted

/-- Every call is given bytes of the buffer, and those of its token. -/
structure Delivers (given : List Given) (ts : List Token) : Prop where
  inside : ∀ g ∈ given, Callback.Inside g.buffer.length g.call
  tokens : passed given = ts.map (·.call)

/-- Where the reads of up to `n` bytes end; there are no more of them than `fuel`. -/
def readEndsFrom (n : ℕ) : ℕ → ℕ → Stream → List ℕ
  | 0, _, _ => []
  | fuel + 1, b, s =>
    let (len, _, s) := s.read n
    if len ≤ 0 then [] else (b + len.toNat) :: readEndsFrom n fuel (b + len.toNat) s

def readEnds (n : ℕ) (s : Stream) : List ℕ := readEndsFrom n (s.pending.length + 1) 0 s

/-- No read ends inside a token. -/
def Spared (ends : List ℕ) (ts : List Token) : Prop :=
  ∀ k ∈ ends, ∀ t ∈ ts, ¬ (t.since < k ∧ k < t.stop)

instance (ends : List ℕ) (ts : List Token) : Decidable (Spared ends ts) :=
  inferInstanceAs (Decidable (∀ k ∈ ends, ∀ t ∈ ts, ¬ (t.since < k ∧ k < t.stop)))

/-- Between two reads, with the first `b` bytes of the header parsed. -/
structure Reading (uriRelaxed : Bool) (header rest : List UInt8) (b : ℕ) (st : State) (m : Marks)
    (q : HttpParser) (s : Stream) : Prop where
  parked : Parked uriRelaxed b st m q
  lt : b < header.length
  ended : (walk uriRelaxed st b m (header.drop b)).ended = true
  pos : (walk uriRelaxed st b m (header.drop b)).pos = header.length
  accepting : ∃ st', (walk uriRelaxed st b m (header.drop b)).state = some st' ∧
    (main uriRelaxed).accepting st' = true
  isOpen : s.connected = true
  pending : s.pending = (header ++ rest).drop b

section Reads

variable {uriRelaxed : Bool} {header rest : List UInt8} {b : ℕ} {st : State} {m : Marks}
  {q : HttpParser} {s : Stream} {buffSize : ℕ}

/-- One read and what the parser makes of it. -/
structure Pass (uriRelaxed : Bool) (w : List UInt8) (b : ℕ) (st : State) (m : Marks)
    (q : HttpParser) (s : Stream) (buffSize k : ℕ) (s' : Stream) (q' : HttpParser)
    (calls : List Callback) : Prop where
  pos : 0 < k
  le : k ≤ buffSize
  length : b + k ≤ w.length
  read : s.read buffSize = ((k : ℤ), (w.drop b).take k, s')
  isOpen : s'.connected = true
  pending : s'.pending = w.drop (b + k)
  execute : httpParserExecute q ((w.drop b).take k) 0 =
    .ok (q', (walk uriRelaxed st b m ((w.drop b).take k)).pos - b, calls)
  executes : Executes uriRelaxed b ((w.drop b).take k) q' calls
    (walk uriRelaxed st b m ((w.drop b).take k))

theorem Reading.pass (hr : Reading uriRelaxed header rest b st m q s) (hpos : 0 < buffSize)
    (hlt : buffSize < 2 ^ 31) :
    ∃ k s' q' calls, Pass uriRelaxed (header ++ rest) b st m q s buffSize k s' q' calls := by
  have hlen : s.pending.length = (header ++ rest).length - b := by
    rw [hr.pending, List.length_drop]
  have hb := hr.lt
  have hne : s.pending ≠ [] := by
    apply List.ne_nil_of_length_pos
    rw [hlen, List.length_append]
    omega
  obtain ⟨k, segs, hk, hkn, hkl, hread, hrest⟩ := Stream.read_spec hr.isOpen hpos hne
  rw [hr.pending] at hread hrest
  rw [hlen] at hkl
  have hle : b + k ≤ (header ++ rest).length := by
    rw [List.length_append] at hkl ⊢
    omega
  have hpart := length_part hle
  have hchunk : ((header ++ rest).drop b).take k ≠ [] := by
    apply List.ne_nil_of_length_pos
    rw [hpart]
    exact hk
  obtain ⟨q', calls, hexec, hspec⟩ :=
    httpParserExecute_spec hr.parked hchunk (by rw [hpart]; omega)
  refine ⟨k, s.arrived segs, q', calls, hk, hkn, hle, hread, hr.isOpen, ?_, hexec, hspec⟩
  rw [hrest, List.drop_drop]

variable {k : ℕ} {s' : Stream} {q' : HttpParser} {calls : List Callback}

/-- The read ends in the header: the walk is still on its way. -/
theorem Reading.more (hr : Reading uriRelaxed header rest b st m q s)
    (hp : Pass uriRelaxed (header ++ rest) b st m q s buffSize k s' q' calls)
    (hk : b + k < header.length) :
    ∃ st' m', (walk uriRelaxed st b m (header.drop b)).tokens =
        (walk uriRelaxed st b m (((header ++ rest).drop b).take k)).tokens ++
          (walk uriRelaxed st' (b + k) m' (header.drop (b + k))).tokens ∧
      (walk uriRelaxed st b m (((header ++ rest).drop b).take k)).pos = b + k ∧
      httpParserFinish q' = 0 ∧ httpParserHasError q' = false ∧
      Reading uriRelaxed header rest (b + k) st' m' q' s' := by
  have hb := hr.lt
  have hchunk : ((header ++ rest).drop b).take k = (header.drop b).take k := by
    rw [List.drop_append_of_le_length (by omega), List.take_append_of_le_length]
    rw [List.length_drop]
    omega
  have hsplit : header.drop b = (header.drop b).take k ++ header.drop (b + k) := by
    conv_lhs => rw [← List.take_append_drop k (header.drop b), List.drop_drop]
  have hlen : ((header.drop b).take k).length = k := by
    rw [List.length_take, List.length_drop]
    omega
  have hexec := hp.executes
  rw [hchunk] at hexec ⊢
  generalize hw : walk uriRelaxed st b m ((header.drop b).take k) = w₁ at hexec ⊢
  have hgoing : w₁.ended = false ∧ ∃ st', w₁.state = some st' := by
    by_contra hstop
    have hstopped : (walk uriRelaxed st b m ((header.drop b).take k)).ended = true ∨
        (walk uriRelaxed st b m ((header.drop b).take k)).state = none := by
      rw [hw]
      cases hend : w₁.ended with
      | true => exact .inl rfl
      | false =>
        cases hst : w₁.state with
        | none => exact .inr rfl
        | some st' => exact absurd ⟨hend, st', hst⟩ hstop
    have hsame := walk_append_of_stopped hstopped (header.drop (b + k))
    rw [← hsplit] at hsame
    have hpos := hr.pos
    have hle : (walk uriRelaxed st b m ((header.drop b).take k)).pos ≤
        b + ((header.drop b).take k).length := walk_pos_le
    rw [hsame] at hpos
    omega
  obtain ⟨hend, st', hst'⟩ := hgoing
  rw [← hw] at hend hst'
  obtain ⟨hpos, happ⟩ := walk_append hend hst' (header.drop (b + k))
  rw [← hsplit, hw, hlen] at happ
  rw [hw] at hend hst'
  rw [hw, hlen] at hpos
  have hcs : q'.cs = some st' := hexec.state.trans hst'
  have hparked := hexec.parked hend st' hst'
  rw [hlen] at hparked
  have hnotfinal : (main uriRelaxed).accepting st' = false := by
    by_contra hacc
    have hne : (header.drop b).take k ≠ [] := by
      apply List.ne_nil_of_length_pos
      rw [hlen]
      exact hp.pos
    have hended := walk_accepting hne (hw ▸ hst') (by simpa using hacc)
    rw [hw, hend] at hended
    cases hended
  have hrended := hr.ended
  have hrpos := hr.pos
  obtain ⟨stEnd, hstEnd, hacc⟩ := hr.accepting
  rw [happ] at hrended hrpos hstEnd
  refine ⟨st', w₁.marks, by rw [happ], hpos, ?_, ?_, hparked, hk, hrended, hrpos,
    ⟨stEnd, hstEnd, hacc⟩, hp.isOpen, hp.pending⟩
  · simp [httpParserFinish, httpParserHasError, httpParserIsFinished, hcs, hexec.relaxed, hnotfinal]
  · simp [httpParserHasError, hcs]

/-- The read covers the rest of the header. -/
theorem Reading.last (hr : Reading uriRelaxed header rest b st m q s)
    (hp : Pass uriRelaxed (header ++ rest) b st m q s buffSize k s' q' calls)
    (hk : header.length ≤ b + k) :
    walk uriRelaxed st b m (((header ++ rest).drop b).take k) =
        walk uriRelaxed st b m (header.drop b) ∧
      httpParserFinish q' = 1 ∧ httpParserHasError q' = false := by
  have hb := hr.lt
  have hchunk : ((header ++ rest).drop b).take k =
      header.drop b ++ rest.take (b + k - header.length) := by
    rw [List.drop_append_of_le_length (by omega), List.take_append, List.length_drop,
      List.take_of_length_le (by rw [List.length_drop]; omega)]
    congr 2
    omega
  have hexec := hp.executes
  rw [hchunk, walk_append_of_stopped (.inl hr.ended)] at hexec ⊢
  obtain ⟨st', hst', hacc⟩ := hr.accepting
  have hcs : q'.cs = some st' := hexec.state.trans hst'
  refine ⟨rfl, ?_, ?_⟩
  · simp [httpParserFinish, httpParserHasError, httpParserIsFinished, hcs, hexec.relaxed, hacc]
  · simp [httpParserHasError, hcs]

/-- The calls of a pass, as `recvHeader` returns them. -/
def givenAt (b : ℕ) (chunk : List UInt8) (calls : List Callback) : List Given :=
  calls.map (⟨b, chunk, ·⟩)

theorem execute_eq {data : List UInt8} {n : ℕ}
    (h : httpParserExecute q data 0 = .ok (q', n, calls)) (r : Collected) :
    (HttpRequestParser.mk q r).execute data =
      (calls.foldlM (onCallback data) r).map fun r' => (⟨q', r'⟩, n, calls) := by
  have hbind : (HttpRequestParser.mk q r).execute data =
      (calls.foldlM (onCallback data) r).bind fun r' => .ok (⟨q', r'⟩, n, calls) := by
    simp only [HttpRequestParser.execute, h]
    rfl
  rw [hbind]
  cases calls.foldlM (onCallback data) r with
  | error f => rfl
  | ok r' => rfl

/-- A pass of the loop that parses at least one byte: it never leaves a full buffer. -/
theorem recvHeader_pass (hp : Pass uriRelaxed (header ++ rest) b st m q s buffSize k s' q' calls)
    (hlt : buffSize < 2 ^ 31) {n : ℕ} (hn : 0 < n)
    (hpos : (walk uriRelaxed st b m (((header ++ rest).drop b).take k)).pos = b + n)
    (herror : httpParserHasError q' = false) (fuel : ℕ) (r : Collected) :
    recvHeader buffSize (fuel + 1) ⟨q, r⟩ b [] s =
      (calls.foldlM (onCallback (((header ++ rest).drop b).take k)) r).bind fun r' =>
        if r'.error ≠ 0 then
          .ok (none, s'.close, givenAt b (((header ++ rest).drop b).take k) calls)
        else if httpParserFinish q' ≠ 0 then
          .ok (some (⟨q', r'⟩, (((header ++ rest).drop b).take k).drop n), s',
            givenAt b (((header ++ rest).drop b).take k) calls)
        else
          (recvHeader buffSize fuel ⟨q', r'⟩ (b + n) ((((header ++ rest).drop b).take k).drop n)
            s').map fun x =>
              (x.1, x.2.1, givenAt b (((header ++ rest).drop b).take k) calls ++ x.2.2) := by
  have hkpos := hp.pos
  have hk : ¬ (k : ℤ) ≤ 0 := by omega
  have hsize : ¬ (((((header ++ rest).drop b).take k).drop n).length : ℤ) =
      Stream.toInt buffSize := by
    have hle := hp.le
    rw [Stream.toInt_of_lt hlt, List.length_drop, length_part hp.length]
    omega
  have hexec := hp.execute
  rw [hpos, Nat.add_sub_cancel_left] at hexec
  simp only [recvHeader, List.length_nil, Nat.sub_zero, hp.read, hk, if_false, List.nil_append,
    execute_eq hexec]
  cases hfold : calls.foldlM (onCallback (((header ++ rest).drop b).take k)) r with
  | error f => rfl
  | ok r' =>
    have hfin : (HttpRequestParser.mk q' r').isFinished = httpParserFinish q' := rfl
    by_cases hr' : r'.error = 0
    · have herr : (HttpRequestParser.mk q' r').hasError = false := by
        simp [HttpRequestParser.hasError, hr', herror]
      simp only [Except.map, Except.bind, bind, herr, Bool.false_eq_true, if_false, hsize, hfin,
        ne_eq, hr', not_true_eq_false]
      by_cases hf : httpParserFinish q' = 0
      · simp only [hf, not_true_eq_false, if_false]
        cases recvHeader buffSize fuel ⟨q', r'⟩ (b + n)
            ((((header ++ rest).drop b).take k).drop n) s' with
        | error f => rfl
        | ok x => rfl
      · simp only [hf, not_false_eq_true, if_true]
        rfl
    · have herr : (HttpRequestParser.mk q' r').hasError = true := by
        simp [HttpRequestParser.hasError, hr']
      simp only [Except.map, Except.bind, bind, herr, if_true, ne_eq, hr', not_false_eq_true]
      rfl

theorem recvHeader_more (hp : Pass uriRelaxed (header ++ rest) b st m q s buffSize k s' q' calls)
    (hlt : buffSize < 2 ^ 31)
    (hpos : (walk uriRelaxed st b m (((header ++ rest).drop b).take k)).pos = b + k)
    (hfinish : httpParserFinish q' = 0) (herror : httpParserHasError q' = false) (fuel : ℕ)
    (r : Collected) :
    recvHeader buffSize (fuel + 1) ⟨q, r⟩ b [] s =
      (calls.foldlM (onCallback (((header ++ rest).drop b).take k)) r).bind fun r' =>
        if r'.error ≠ 0 then
          .ok (none, s'.close, givenAt b (((header ++ rest).drop b).take k) calls)
        else (recvHeader buffSize fuel ⟨q', r'⟩ (b + k) [] s').map fun x =>
          (x.1, x.2.1, givenAt b (((header ++ rest).drop b).take k) calls ++ x.2.2) := by
  have hdrop : (((header ++ rest).drop b).take k).drop k = [] :=
    List.drop_eq_nil_of_le (List.length_take_le _ _)
  rw [recvHeader_pass hp hlt hp.pos hpos herror]
  simp only [hdrop, hfinish, ne_eq, not_true_eq_false, if_false]

theorem recvHeader_last (hp : Pass uriRelaxed (header ++ rest) b st m q s buffSize k s' q' calls)
    (hlt : buffSize < 2 ^ 31) (hb : b < header.length)
    (hpos : (walk uriRelaxed st b m (((header ++ rest).drop b).take k)).pos = header.length)
    (hfinish : httpParserFinish q' = 1) (herror : httpParserHasError q' = false) (fuel : ℕ)
    (r : Collected) :
    recvHeader buffSize (fuel + 1) ⟨q, r⟩ b [] s =
      (calls.foldlM (onCallback (((header ++ rest).drop b).take k)) r).bind fun r' =>
        if r'.error ≠ 0 then
          .ok (none, s'.close, givenAt b (((header ++ rest).drop b).take k) calls)
        else .ok (some (⟨q', r'⟩, (((header ++ rest).drop b).take k).drop (header.length - b)), s',
          givenAt b (((header ++ rest).drop b).take k) calls) := by
  have hparsed : 0 < header.length - b := by omega
  rw [recvHeader_pass hp hlt hparsed (by omega) herror]
  simp only [hfinish, ne_eq, one_ne_zero, not_false_eq_true, if_true]

end Reads

/-!
## Reads that spare the tokens
-/

section Spares

variable {b k n : ℕ}

theorem passed_givenAt (chunk : List UInt8) (calls : List Callback) :
    passed (givenAt b chunk calls) =
      (calls.filter Callback.effective).map (Callback.shift b) := by
  simp only [passed, givenAt, List.filter_map, List.map_map]
  rfl

theorem passed_append (g g' : List Given) : passed (g ++ g') = passed g ++ passed g' := by
  simp [passed]

theorem delivers_append {g g' : List Given} {ts ts' : List Token}
    (hlen : (passed g).length = ts.length) :
    Delivers (g ++ g') (ts ++ ts') ↔ Delivers g ts ∧ Delivers g' ts' := by
  constructor
  · rintro ⟨hin, htokens⟩
    rw [passed_append, List.map_append] at htokens
    obtain ⟨h, h'⟩ := List.append_inj htokens (by rw [hlen, List.length_map])
    exact ⟨⟨fun x hx => hin x (List.mem_append_left g' hx), h⟩,
      ⟨fun x hx => hin x (List.mem_append_right g hx), h'⟩⟩
  · rintro ⟨⟨hin, h⟩, hin', h'⟩
    refine ⟨fun x hx => ?_, by rw [passed_append, List.map_append, h, h']⟩
    rcases List.mem_append.1 hx with hx | hx
    · exact hin x hx
    · exact hin' x hx

/-- Every call is given its token. -/
abbrev Given.Right (b n : ℕ) (c : Callback) (t : Token) : Prop :=
  Callback.shift b c = t.call ∧ Callback.Inside n c

theorem right_of_delivered {calls : List Callback} {ts : List Token}
    (h : List.Forall₂ (Agrees b n) calls ts)
    (htokens : calls.map (Callback.shift b) = ts.map (·.call))
    (hin : ∀ c ∈ calls, Callback.Inside n c) : List.Forall₂ (Given.Right b n) calls ts := by
  induction h with
  | nil => exact .nil
  | @cons c t cs ts hct hrest ih =>
    simp only [List.map_cons, List.cons.injEq] at htokens
    exact .cons ⟨htokens.1, hin c (by simp)⟩
      (ih htokens.2 fun x hx => hin x (List.mem_cons_of_mem c hx))

/-- The calls of one buffer are given their tokens if and only if the tokens lie in it. -/
theorem right_iff {calls : List Callback} {ts : List Token}
    (h : List.Forall₂ (Agrees b n) calls ts)
    (hts : ∀ t ∈ ts, ∃ k, Callback.Inside k t.call) :
    List.Forall₂ (Given.Right b n) calls ts ↔ ∀ t ∈ ts, b ≤ t.since ∧ t.stop ≤ b + n := by
  induction h with
  | nil => simp
  | @cons c t cs ts hct hrest ih =>
    have htail := ih fun x hx => hts x (List.mem_cons_of_mem t hx)
    obtain ⟨k, hk⟩ := hts t (by simp)
    have hhead : Given.Right b n c t ↔ b ≤ t.since ∧ t.stop ≤ b + n := by
      constructor
      · rintro ⟨hshift, hin⟩
        exact ⟨hct.shift.1 hshift, (hct.inside hshift k hk).1 hin⟩
      · rintro ⟨hsince, hstop⟩
        have hshift := hct.shift.2 hsince
        exact ⟨hshift, (hct.inside hshift k hk).2 hstop⟩
    rw [List.forall₂_cons, htail, List.forall_mem_cons, hhead]

theorem delivered_of_right {calls : List Callback} {ts : List Token}
    (h : List.Forall₂ (Given.Right b n) calls ts) :
    calls.map (Callback.shift b) = ts.map (·.call) ∧ ∀ c ∈ calls, Callback.Inside n c := by
  induction h with
  | nil => simp
  | @cons c t cs ts hct hrest ih =>
    refine ⟨by rw [List.map_cons, List.map_cons, hct.1, ih.1], ?_⟩
    rw [List.forall_mem_cons]
    exact ⟨hct.2, ih.2⟩

theorem delivers_of_right {chunk : List UInt8} {calls : List Callback} {ts : List Token}
    (hn : chunk.length = n) (hc : ∀ c ∈ calls, Proper chunk c)
    (h : List.Forall₂ (Given.Right b n) (calls.filter Callback.effective) ts) :
    Delivers (givenAt b chunk calls) ts := by
  obtain ⟨htokens, hin⟩ := delivered_of_right h
  refine ⟨fun g hg => ?_, by rw [passed_givenAt, htokens]⟩
  obtain ⟨c, hmem, rfl⟩ := List.mem_map.1 hg
  cases he : Callback.effective c with
  | false => exact (hc c hmem).idle he
  | true =>
    have hcin := hin c (List.mem_filter.2 ⟨hmem, he⟩)
    rw [← hn] at hcin
    exact hcin

theorem spared_append {ends : List ℕ} {ts ts' : List Token}
    (hts : ∀ t ∈ ts, t.since < b + k ∧ b < t.stop) (hts' : ∀ t ∈ ts', b + k < t.stop)
    (hends : ∀ e ∈ ends, b + k ≤ e) :
    Spared (b :: (b + k) :: ends) (ts ++ ts') ↔
      (∀ t ∈ ts, b ≤ t.since ∧ t.stop ≤ b + k) ∧ Spared ((b + k) :: ends) ts' := by
  constructor
  · intro h
    constructor
    · intro t ht
      have hmem : t ∈ ts ++ ts' := List.mem_append_left ts' ht
      have hfirst := h b (by simp) t hmem
      have hsecond := h (b + k) (by simp) t hmem
      have hrange := hts t ht
      omega
    · intro e he t ht
      exact h e (List.mem_cons_of_mem b he) t (List.mem_append_right ts ht)
  · rintro ⟨h, h'⟩ e he t ht
    rcases List.mem_append.1 ht with ht | ht
    · have hin := h t ht
      rcases List.mem_cons.1 he with rfl | he
      · omega
      · rcases List.mem_cons.1 he with rfl | he
        · omega
        · have := hends e he
          omega
    · have hnext := h' (b + k) (by simp) t ht
      have hstop := hts' t ht
      rcases List.mem_cons.1 he with rfl | he
      · omega
      · exact h' e he t ht

/-- The last read of a header has no tokens behind it. -/
theorem spared_last {ends : List ℕ} {ts : List Token}
    (hts : ∀ t ∈ ts, t.since < b + k ∧ b < t.stop) (hends : ∀ e ∈ ends, b + k ≤ e) :
    Spared (b :: (b + k) :: ends) ts ↔ ∀ t ∈ ts, b ≤ t.since ∧ t.stop ≤ b + k := by
  have happend : Spared (b :: (b + k) :: ends) (ts ++ []) ↔ _ :=
    spared_append hts (by simp) hends
  rw [List.append_nil] at happend
  rw [happend]
  simp [Spared]

theorem le_readEndsFrom {fuel : ℕ} {s : Stream} : ∀ e ∈ readEndsFrom n fuel b s, b ≤ e := by
  induction fuel generalizing b s with
  | zero => simp [readEndsFrom]
  | succ fuel ih =>
    intro e he
    simp only [readEndsFrom] at he
    split at he
    · cases he
    · rcases List.mem_cons.1 he with rfl | he
      · exact Nat.le_add_right b _
      · exact le_trans (Nat.le_add_right b _) (ih e he)

end Spares

section Receives

variable {uriRelaxed : Bool} {header rest : List UInt8} {b : ℕ} {st : State} {m : Marks}
  {q : HttpParser} {s : Stream} {buffSize k : ℕ} {s' : Stream} {q' : HttpParser}
  {calls : List Callback}

/-- What is to come at byte `b`. -/
abbrev ahead (uriRelaxed : Bool) (header : List UInt8) (b : ℕ) (st : State) (m : Marks) :
    List Token :=
  (walk uriRelaxed st b m (header.drop b)).tokens

theorem Pass.agree (hp : Pass uriRelaxed (header ++ rest) b st m q s buffSize k s' q' calls) :
    List.Forall₂ (Agrees b k) (calls.filter Callback.effective)
      (walk uriRelaxed st b m (((header ++ rest).drop b).take k)).tokens := by
  have h := hp.executes.agree
  rwa [length_part hp.length] at h

theorem Pass.right_of_delivers
    (hp : Pass uriRelaxed (header ++ rest) b st m q s buffSize k s' q' calls)
    (hd : Delivers (givenAt b (((header ++ rest).drop b).take k) calls)
      (walk uriRelaxed st b m (((header ++ rest).drop b).take k)).tokens) :
    List.Forall₂ (Given.Right b k) (calls.filter Callback.effective)
      (walk uriRelaxed st b m (((header ++ rest).drop b).take k)).tokens := by
  have htokens := hd.tokens
  rw [passed_givenAt] at htokens
  apply right_of_delivered hp.agree htokens
  intro c hc
  have hin := hd.inside ⟨b, ((header ++ rest).drop b).take k, c⟩
    (List.mem_map_of_mem (List.mem_of_mem_filter hc))
  rwa [length_part hp.length] at hin

theorem Pass.collect (hp : Pass uriRelaxed (header ++ rest) b st m q s buffSize k s' q' calls)
    (h : List.Forall₂ (Given.Right b k) (calls.filter Callback.effective)
      (walk uriRelaxed st b m (((header ++ rest).drop b).take k)).tokens) (r : Collected) :
    calls.foldlM (onCallback (((header ++ rest).drop b).take k)) r =
      collect (header ++ rest) r
        (walk uriRelaxed st b m (((header ++ rest).drop b).take k)).tokens := by
  have hproper := hp.executes.proper
  rw [foldlM_effective hproper]
  exact foldlM_tokens hp.length (fun c hc => hproper c (List.mem_of_mem_filter hc)) h r

theorem Pass.readEnds (hp : Pass uriRelaxed (header ++ rest) b st m q s buffSize k s' q' calls)
    (fuel : ℕ) : readEndsFrom buffSize (fuel + 1) b s =
      (b + k) :: readEndsFrom buffSize fuel (b + k) s' := by
  have hk : ¬ (k : ℤ) ≤ 0 := by
    have := hp.pos
    omega
  simp only [readEndsFrom, hp.read, hk, if_false, Int.toNat_natCast]

theorem Pass.range (hp : Pass uriRelaxed (header ++ rest) b st m q s buffSize k s' q' calls)
    (hm : Bounded (b - 1) m) :
    ∀ t ∈ (walk uriRelaxed st b m (((header ++ rest).drop b).take k)).tokens,
      t.since < b + k ∧ b < t.stop := by
  intro t ht
  obtain ⟨hsince, hstop⟩ := walk_range hm t ht
  have hle : (walk uriRelaxed st b m (((header ++ rest).drop b).take k)).pos ≤
      b + (((header ++ rest).drop b).take k).length := walk_pos_le
  rw [length_part hp.length] at hle
  omega

theorem Pass.length_passed
    (hp : Pass uriRelaxed (header ++ rest) b st m q s buffSize k s' q' calls) :
    (passed (givenAt b (((header ++ rest).drop b).take k) calls)).length =
      (walk uriRelaxed st b m (((header ++ rest).drop b).take k)).tokens.length := by
  rw [passed_givenAt, List.length_map]
  exact hp.agree.length_eq

/-- What the last read of the header left in the buffer, and the stream behind it. -/
theorem left_append_pending (hb : b < header.length) (hk : header.length ≤ b + k) :
    (((header ++ rest).drop b).take k).drop (header.length - b) ++
      (header ++ rest).drop (b + k) = rest := by
  obtain ⟨j, hj⟩ : ∃ j, b + k = header.length + j := ⟨b + k - header.length, by omega⟩
  have hleft : k - (header.length - b) = j := by omega
  have hstart : b + (header.length - b) = header.length := by omega
  rw [List.drop_take, List.drop_drop, hstart, hleft, List.drop_left, hj, ← List.drop_drop,
    List.drop_left, List.take_append_drop]

/-- There are fewer bytes to come after a pass. -/
theorem Pass.pending_lt (hp : Pass uriRelaxed (header ++ rest) b st m q s buffSize k s' q' calls)
    (hpending : s.pending = (header ++ rest).drop b) : s'.pending.length < s.pending.length := by
  have hkpos := hp.pos
  have hle := hp.length
  rw [hpending, hp.pending, List.length_drop, List.length_drop]
  omega

/-- The callbacks of a pass after which a header is received met no error. -/
theorem of_received {x : Except Fault Collected} {closed : Stream} {given given' : List Given}
    {f : Collected → Except Fault (Option (HttpRequestParser × List UInt8) × Stream × List Given)}
    {y : HttpRequestParser × List UInt8} {s'' : Stream}
    (h : (x.bind fun r' => if r'.error ≠ 0 then .ok (none, closed, given) else f r') =
      .ok (some y, s'', given')) :
    ∃ r', x = .ok r' ∧ f r' = .ok (some y, s'', given') := by
  cases x with
  | error e => cases h
  | ok r' =>
    by_cases hr' : r'.error = 0
    · simp only [Except.bind, hr', ne_eq, not_true_eq_false, if_false] at h
      exact ⟨r', rfl, h⟩
    · simp [Except.bind, hr'] at h

/-- A header received with all its tokens was read so that they were spared. -/
theorem Reading.spared_of_delivers {fuel : ℕ}
    (hr : Reading uriRelaxed header rest b st m q s) (hpos : 0 < buffSize)
    (hlt : buffSize < 2 ^ 31)
    (hts : ∀ t ∈ ahead uriRelaxed header b st m, ∃ n, Callback.Inside n t.call) {r : Collected}
    {p : HttpRequestParser} {left : List UInt8} {s'' : Stream} {given : List Given}
    (h : recvHeader buffSize fuel ⟨q, r⟩ b [] s = .ok (some (p, left), s'', given))
    (hd : Delivers given (ahead uriRelaxed header b st m)) :
    Spared (b :: readEndsFrom buffSize fuel b s) (ahead uriRelaxed header b st m) := by
  induction fuel generalizing b st m q s r given with
  | zero => cases h
  | succ fuel ih =>
    obtain ⟨k, s', q', calls, hp⟩ := hr.pass hpos hlt
    have hrange := hp.range hr.parked.bounded
    rw [hp.readEnds]
    by_cases hk : b + k < header.length
    · obtain ⟨st', m', htokens, hwalk, hfinish, herror, hr'⟩ := hr.more hp hk
      have hrange' : ∀ t ∈ (walk uriRelaxed st' (b + k) m' (header.drop (b + k))).tokens,
          b + k < t.stop := fun t ht => (walk_range hr'.parked.bounded t ht).2
      rw [recvHeader_more hp hlt hwalk hfinish herror] at h
      unfold ahead at hts hd ⊢
      rw [htokens] at hts hd ⊢
      obtain ⟨r', -, h⟩ := of_received h
      obtain ⟨x, hrec, hx⟩ := of_map_ok h
      simp only [Prod.mk.injEq] at hx
      obtain ⟨hres, rfl, rfl⟩ := hx
      obtain ⟨hd₁, hd₂⟩ := (delivers_append hp.length_passed).1 hd
      rw [spared_append hrange hrange' le_readEndsFrom]
      constructor
      · exact (right_iff hp.agree fun t ht => hts t (List.mem_append_left _ ht)).1
          (hp.right_of_delivers hd₁)
      · refine ih hr' (fun t ht => hts t (List.mem_append_right _ ht)) (r := r') ?_ hd₂
        rw [hrec, ← hres]
    · obtain ⟨hwalk, hfinish, herror⟩ := hr.last hp (by omega)
      rw [recvHeader_last hp hlt hr.lt (hwalk ▸ hr.pos) hfinish herror] at h
      obtain ⟨r', -, h⟩ := of_received h
      simp only [Except.ok.injEq, Prod.mk.injEq] at h
      obtain ⟨-, -, rfl⟩ := h
      unfold ahead at hts hd ⊢
      rw [← hwalk] at hts hd ⊢
      rw [spared_last hrange le_readEndsFrom]
      exact (right_iff hp.agree hts).1 (hp.right_of_delivers hd)

/-- A header whose tokens are spared is received, with all of them. -/
theorem Reading.delivers_of_spared {fuel : ℕ}
    (hr : Reading uriRelaxed header rest b st m q s) (hpos : 0 < buffSize)
    (hlt : buffSize < 2 ^ 31) (hfuel : s.pending.length < fuel)
    (hts : ∀ t ∈ ahead uriRelaxed header b st m, ∃ n, Callback.Inside n t.call)
    {r r' : Collected}
    (hcollect : HttpSegmentation.collect (header ++ rest) r (ahead uriRelaxed header b st m) =
      .ok r') (herr : r'.error = 0)
    (hs : Spared (b :: readEndsFrom buffSize fuel b s) (ahead uriRelaxed header b st m)) :
    ∃ q' left s'' given, recvHeader buffSize fuel ⟨q, r⟩ b [] s =
        .ok (some (⟨q', r'⟩, left), s'', given) ∧
      Delivers given (ahead uriRelaxed header b st m) ∧ s''.connected = true ∧
      left ++ s''.pending = rest := by
  induction fuel generalizing b st m q s r with
  | zero => exact absurd hfuel (Nat.not_lt_zero _)
  | succ fuel ih =>
    obtain ⟨k, s', q', calls, hp⟩ := hr.pass hpos hlt
    have hrange := hp.range hr.parked.bounded
    have hproper := hp.executes.proper
    have hkpos := hp.pos
    rw [hp.readEnds] at hs
    by_cases hk : b + k < header.length
    · obtain ⟨st', m', htokens, hwalk, hfinish, herror, hr'⟩ := hr.more hp hk
      have hrange' : ∀ t ∈ (walk uriRelaxed st' (b + k) m' (header.drop (b + k))).tokens,
          b + k < t.stop := fun t ht => (walk_range hr'.parked.bounded t ht).2
      unfold ahead at hts hcollect hs ⊢
      rw [htokens] at hts hcollect hs ⊢
      rw [spared_append hrange hrange' le_readEndsFrom] at hs
      have hright := (right_iff hp.agree fun t ht => hts t (List.mem_append_left _ ht)).2 hs.1
      have hfold := hp.collect hright r
      rw [collect_append] at hcollect
      cases hfirst : HttpSegmentation.collect (header ++ rest) r
          (walk uriRelaxed st b m (((header ++ rest).drop b).take k)).tokens with
      | error f =>
        rw [hfirst] at hcollect
        cases hcollect
      | ok r₁ =>
        rw [hfirst] at hcollect hfold
        have herr₁ : r₁.error = 0 := collect_error hcollect herr
        have hfuel' : s'.pending.length < fuel := by
          have hless := hp.pending_lt hr.pending
          omega
        obtain ⟨q'', left, s'', given, hrec, hd, hopen, hleft⟩ :=
          ih hr' hfuel' (fun t ht => hts t (List.mem_append_right _ ht)) hcollect hs.2
        refine ⟨q'', left, s'', givenAt b (((header ++ rest).drop b).take k) calls ++ given, ?_,
          (delivers_append hp.length_passed).2 ⟨?_, hd⟩, hopen, hleft⟩
        · rw [recvHeader_more hp hlt hwalk hfinish herror, hfold]
          simp only [Except.bind, herr₁, ne_eq, not_true_eq_false, if_false, hrec, Except.map]
        · exact delivers_of_right (length_part hp.length) hproper hright
    · obtain ⟨hwalk, hfinish, herror⟩ := hr.last hp (by omega)
      have hb := hr.lt
      unfold ahead at hts hcollect hs ⊢
      rw [← hwalk] at hts hcollect hs ⊢
      rw [spared_last hrange le_readEndsFrom] at hs
      have hright := (right_iff hp.agree hts).2 hs
      have hfold := hp.collect hright r
      rw [hcollect] at hfold
      refine ⟨q', (((header ++ rest).drop b).take k).drop (header.length - b), s',
        givenAt b (((header ++ rest).drop b).take k) calls, ?_,
        delivers_of_right (length_part hp.length) hproper hright, hp.isOpen, ?_⟩
      · rw [recvHeader_last hp hlt hb (hwalk ▸ hr.pos) hfinish herror, hfold]
        simp only [Except.bind, herr, ne_eq, not_true_eq_false, if_false]
      · rw [hp.pending]
        exact left_append_pending hb (by omega)

end Receives

/-!
## Receiving a request
-/

/-- The parser accepts the header when it arrives at once. -/
structure Accepts (uriRelaxed : Bool) (header : List UInt8) (p : HttpRequestParser) : Prop where
  parsed : ∃ calls,
    (HttpRequestParser.new uriRelaxed).execute header = .ok (p, header.length, calls)
  noError : p.hasError = false
  finished : p.isFinished ≠ 0

/-- The request that a header and the bytes behind it make. -/
def requestOf (lexicalCast : List UInt8 → Option UInt64) (p : HttpRequestParser)
    (rest : List UInt8) : HttpRequest :=
  if 0 < (p.getContentLength lexicalCast).toNat then
    { p.collected.data with body := rest.take (p.getContentLength lexicalCast).toNat }.init
  else p.collected.data.init

section Requests

variable {uriRelaxed : Bool} {header rest : List UInt8} {p : HttpRequestParser} {s : Stream}

theorem shift_zero (c : Callback) : Callback.shift 0 c = c := by
  cases c with
  | element e s => cases s <;> rfl
  | httpField field value => rfl

theorem inside_of_foldlM {buffer : List UInt8} {calls : List Callback} {r r' : Collected}
    (h : calls.foldlM (onCallback buffer) r = .ok r') :
    ∀ c ∈ calls.filter Callback.effective, Callback.Inside buffer.length c := by
  induction calls generalizing r with
  | nil => simp
  | cons c cs ih =>
    rw [List.foldlM_cons] at h
    cases hc : onCallback buffer r c with
    | error f =>
      rw [hc] at h
      cases h
    | ok r₁ =>
      rw [hc] at h
      intro x hx
      obtain ⟨hmem, he⟩ := List.mem_filter.1 hx
      rcases List.mem_cons.1 hmem with rfl | hmem
      · exact inside_of_onCallback he hc
      · exact ih h x (List.mem_filter.2 ⟨hmem, he⟩)

theorem right_of_inside {n : ℕ} {calls : List Callback} {ts : List Token}
    (h : List.Forall₂ (Agrees 0 n) calls ts) (hin : ∀ c ∈ calls, Callback.Inside n c) :
    List.Forall₂ (Given.Right 0 n) calls ts ∧ ∀ t ∈ ts, Callback.Inside n t.call := by
  induction h with
  | nil => simp
  | @cons c t cs ts hct hrest ih =>
    obtain ⟨hright, hts⟩ := ih fun x hx => hin x (List.mem_cons_of_mem c hx)
    have hshift := hct.shift.2 (Nat.zero_le _)
    have hc := hin c (by simp)
    refine ⟨.cons ⟨hshift, hc⟩ hright, ?_⟩
    rw [List.forall_mem_cons, ← hshift, shift_zero]
    exact ⟨hc, hts⟩

/-- What one read gives, told in tokens. -/
structure Wellformed (uriRelaxed : Bool) (header : List UInt8) (r : Collected) : Prop where
  pos : 0 < header.length
  ended : (walk uriRelaxed State.initial 0 .init header).ended = true
  walked : (walk uriRelaxed State.initial 0 .init header).pos = header.length
  accepting : ∃ st, (walk uriRelaxed State.initial 0 .init header).state = some st ∧
    (main uriRelaxed).accepting st = true
  inside : ∀ t ∈ tokens uriRelaxed header, ∃ n, Callback.Inside n t.call
  stop : ∀ t ∈ tokens uriRelaxed header, t.stop ≤ header.length
  collect : ∀ rest, collect (header ++ rest) (HttpRequestParser.new uriRelaxed).collected
    (tokens uriRelaxed header) = .ok r
  noError : r.error = 0

theorem Accepts.wellformed (ha : Accepts uriRelaxed header p) (hlt : header.length < 2 ^ 31) :
    Wellformed uriRelaxed header p.collected := by
  obtain ⟨calls', hparsed⟩ := ha.parsed
  have hne : header ≠ [] := by
    rintro rfl
    have hstart : HttpRequestParser.new uriRelaxed = p := by
      simp only [HttpRequestParser.execute, httpParserExecute] at hparsed
      cases hparsed
      rfl
    apply ha.finished
    rw [← hstart]
    cases uriRelaxed <;> decide +kernel
  obtain ⟨q', calls, hexec, hspec⟩ :=
    httpParserExecute_spec (parked_init uriRelaxed) hne hlt
  have hrun := execute_eq hexec (HttpRequestParser.new uriRelaxed).collected
  rw [show HttpRequestParser.mk (httpParserInit uriRelaxed)
    (HttpRequestParser.new uriRelaxed).collected = .new uriRelaxed from rfl, hparsed] at hrun
  cases hfold : calls.foldlM (onCallback header)
      (HttpRequestParser.new uriRelaxed).collected with
  | error f =>
    rw [hfold] at hrun
    cases hrun
  | ok r =>
    rw [hfold] at hrun
    simp only [Except.map, Except.ok.injEq, Prod.mk.injEq] at hrun
    obtain ⟨rfl, hpos, -⟩ := hrun
    obtain ⟨herror, hcs⟩ : r.error = 0 ∧ q'.cs ≠ none := by
      simpa [HttpRequestParser.hasError, httpParserHasError] using ha.noError
    obtain ⟨st, hst⟩ := Option.ne_none_iff_exists'.1 hcs
    have hstate := hspec.state.symm.trans hst
    have hacc : (main uriRelaxed).accepting st = true := by
      by_contra hacc
      apply ha.finished
      simp [HttpRequestParser.isFinished, httpParserFinish, httpParserHasError,
        httpParserIsFinished, hst, hspec.relaxed, hacc]
    obtain ⟨hright, hinside⟩ := right_of_inside hspec.agree (inside_of_foldlM hfold)
    have hrange := (right_iff hspec.agree fun t ht => ⟨_, hinside t ht⟩).1 hright
    rw [Nat.zero_add] at hrange
    refine ⟨List.length_pos_iff.2 hne, walk_accepting hne hstate hacc, hpos.symm,
      ⟨st, hstate, hacc⟩, fun t ht => ⟨_, hinside t ht⟩, fun t ht => (hrange t ht).2,
      fun rest => ?_, herror⟩
    have hpart : ((header ++ rest).drop 0).take header.length = header := by
      rw [List.drop_zero, List.take_left]
    have hproper : ∀ c ∈ calls.filter Callback.effective,
        Proper (((header ++ rest).drop 0).take header.length) c := by
      intro c hc
      rw [hpart]
      exact hspec.proper c (List.mem_of_mem_filter hc)
    have hcollect := foldlM_tokens (by simp) hproper hright
      (HttpRequestParser.new uriRelaxed).collected
    rw [hpart, ← foldlM_effective hspec.proper, hfold] at hcollect
    exact hcollect.symm

theorem recvBody_spec {bodyLength : ℕ} (hlt : bodyLength < 2 ^ 31)
    (hle : bodyLength ≤ rest.length) {left : List UInt8} (hc : s.connected = true)
    (hrest : left ++ s.pending = rest) :
    ∃ s', recvBody bodyLength left s = (some (rest.take bodyLength), s') := by
  have hall : left ++ s.available = rest := by rw [Stream.available_of_connected hc, hrest]
  refine ⟨s.skip (bodyLength - left.length), ?_⟩
  rw [recvBody_eq hlt, hall, if_neg (Nat.not_lt_of_le hle)]

theorem recvRest_spec (lexicalCast : List UInt8 → Option UInt64) (q : HttpParser)
    (hlt : (p.getContentLength lexicalCast).toNat < 2 ^ 31)
    (hle : (p.getContentLength lexicalCast).toNat ≤ rest.length) {left : List UInt8}
    (hc : s.connected = true) (hrest : left ++ s.pending = rest) :
    ∃ s', recvRest lexicalCast ⟨q, p.collected⟩ left s =
      (some (requestOf lexicalCast p rest), s') := by
  have hlength : (HttpRequestParser.mk q p.collected).getContentLength lexicalCast =
      p.getContentLength lexicalCast := rfl
  unfold recvRest requestOf
  rw [hlength]
  generalize (p.getContentLength lexicalCast).toNat = n at hlt hle ⊢
  have hint : (n : ℤ).bmod (2 ^ 64) = n := by
    apply Int.bmod_eq_of_le <;> omega
  rw [hint]
  unfold withBody
  by_cases hpos : 0 < n
  · obtain ⟨s', hbody⟩ := recvBody_spec hlt hle hc hrest
    have hpos' : (n : ℤ) > 0 := by omega
    exact ⟨s', by rw [if_pos hpos', if_pos hpos, hbody]⟩
  · have hpos' : ¬ (n : ℤ) > 0 := by omega
    exact ⟨s, by rw [if_neg hpos', if_neg hpos]⟩

theorem recvRequest_of_header {lexicalCast : List UInt8 → Option UInt64} {buffSize : ℕ}
    {parser : HttpRequestParser} {left : List UInt8} {s' : Stream} {given : List Given}
    (h : recvHeader buffSize (s.pending.length + 1) (.new uriRelaxed) 0 [] s =
      .ok (some (parser, left), s', given)) :
    recvRequest lexicalCast buffSize uriRelaxed s =
      .ok ((recvRest lexicalCast parser left s').1, (recvRest lexicalCast parser left s').2,
        given) := by
  unfold recvRequest
  rw [h]
  rfl

theorem header_of_recvRequest {lexicalCast : List UInt8 → Option UInt64} {buffSize : ℕ}
    {request : HttpRequest} {s' : Stream} {given : List Given}
    (h : recvRequest lexicalCast buffSize uriRelaxed s = .ok (some request, s', given)) :
    ∃ parser left s₁, recvHeader buffSize (s.pending.length + 1) (.new uriRelaxed) 0 [] s =
      .ok (some (parser, left), s₁, given) := by
  cases hheader : recvHeader buffSize (s.pending.length + 1) (.new uriRelaxed) 0 [] s with
  | error f =>
    unfold recvRequest at h
    rw [hheader] at h
    cases h
  | ok x =>
    obtain ⟨result, s₁, given₁⟩ := x
    cases result with
    | none =>
      unfold recvRequest at h
      rw [hheader] at h
      cases h
    | some r =>
      rw [recvRequest_of_header hheader] at h
      simp only [Except.ok.injEq, Prod.mk.injEq] at h
      exact ⟨r.1, r.2, s₁, by rw [h.2.2]⟩

theorem spared_zero {ends : List ℕ} {ts : List Token} :
    Spared (0 :: ends) ts ↔ Spared ends ts := by
  simp [Spared]

theorem recvRequest_iff_spared (lexicalCast : List UInt8 → Option UInt64) {buffSize : ℕ}
    (hsize : buffSize < 2 ^ 31) (ha : Accepts uriRelaxed header p)
    (hfit : header.length ≤ buffSize)
    (hbody : (p.getContentLength lexicalCast).toNat < 2 ^ 31)
    (hrest : (p.getContentLength lexicalCast).toNat ≤ rest.length) (hc : s.connected = true)
    (hp : s.pending = header ++ rest) :
    (∃ s' given, recvRequest lexicalCast buffSize uriRelaxed s =
        .ok (some (requestOf lexicalCast p rest), s', given) ∧
      Delivers given (tokens uriRelaxed header)) ↔
    Spared (readEnds buffSize s) (tokens uriRelaxed header) := by
  have hw := ha.wellformed (by omega)
  have hpos : 0 < buffSize := lt_of_lt_of_le hw.pos hfit
  have hreading : Reading uriRelaxed header rest 0 State.initial .init (httpParserInit uriRelaxed)
      s :=
    ⟨parked_init uriRelaxed, hw.pos, hw.ended, hw.walked, hw.accepting, hc, hp⟩
  rw [← spared_zero]
  constructor
  · rintro ⟨s', given, hrecv, hd⟩
    obtain ⟨parser, left, s₁, hheader⟩ := header_of_recvRequest hrecv
    exact hreading.spared_of_delivers hpos hsize hw.inside hheader hd
  · intro hs
    obtain ⟨q', left, s₁, given, hheader, hd, hopen, hleft⟩ :=
      hreading.delivers_of_spared hpos hsize (Nat.lt_succ_self _) hw.inside (hw.collect rest)
        hw.noError hs
    obtain ⟨s', hrest'⟩ := recvRest_spec lexicalCast q' hbody hrest hopen hleft
    refine ⟨s', given, ?_, hd⟩
    rw [recvRequest_of_header hheader, hrest']

/-- The same bytes in one segment. -/
def atOnce (s : Stream) : Stream :=
  s.arrived (if h : s.pending = [] then [] else [⟨s.pending, h⟩])

theorem pending_atOnce (s : Stream) : (atOnce s).pending = s.pending := by
  unfold atOnce Stream.pending
  split
  · rename_i h
    exact h.symm
  · simp [Stream.arrived]

/-- The first read then gets the header, if it fits the buffer. -/
theorem spared_atOnce {buffSize : ℕ} (hpos : 0 < header.length)
    (hfit : header.length ≤ buffSize) {ts : List Token} (hts : ∀ t ∈ ts, t.stop ≤ header.length)
    (hc : s.connected = true) (hp : s.pending = header ++ rest) :
    Spared (readEnds buffSize (atOnce s)) ts := by
  have hne : s.pending ≠ [] := by
    apply List.ne_nil_of_length_pos
    rw [hp, List.length_append]
    omega
  have hread : ∃ (k : ℕ) (s' : Stream), (atOnce s).read buffSize =
      ((k : ℤ), s.pending.take k, s') ∧ header.length ≤ k := by
    by_cases hlt : buffSize < s.pending.length
    · refine ⟨buffSize, s.arrived [⟨s.pending.drop buffSize, by simpa using hlt⟩], ?_, hfit⟩
      simp [atOnce, hne, Stream.read, Stream.arrived, hc, hlt]
    · refine ⟨s.pending.length, s.arrived [], ?_, ?_⟩
      · simp [atOnce, hne, Stream.read, Stream.arrived, hc, hlt]
      · rw [hp, List.length_append]
        omega
  obtain ⟨k, s', hread, hk⟩ := hread
  have hk0 : ¬ (k : ℤ) ≤ 0 := by omega
  intro e he t ht
  have hle : header.length ≤ e := by
    simp only [readEnds, readEndsFrom, hread, hk0, if_false, Int.toNat_natCast,
      Nat.zero_add] at he
    rcases List.mem_cons.1 he with rfl | he
    · exact hk
    · exact le_trans hk (le_readEndsFrom e he)
  have hstop := hts t ht
  omega

/-- However the bytes are segmented: the callbacks get the tokens of the header, in the buffer,
and the request is that of one read, if and only if no read ends inside a token. -/
theorem segmentation_iff (lexicalCast : List UInt8 → Option UInt64) {buffSize : ℕ}
    (hsize : buffSize < 2 ^ 31) (ha : Accepts uriRelaxed header p)
    (hfit : header.length ≤ buffSize)
    (hbody : (p.getContentLength lexicalCast).toNat < 2 ^ 31)
    (hrest : (p.getContentLength lexicalCast).toNat ≤ rest.length) (hc : s.connected = true)
    (hp : s.pending = header ++ rest) :
    (∃ s₁ given₁, recvRequest lexicalCast buffSize uriRelaxed (atOnce s) =
        .ok (some (requestOf lexicalCast p rest), s₁, given₁) ∧
      Delivers given₁ (tokens uriRelaxed header)) ∧
    ((∃ s' given, recvRequest lexicalCast buffSize uriRelaxed s =
        .ok (some (requestOf lexicalCast p rest), s', given) ∧
      Delivers given (tokens uriRelaxed header)) ↔
    Spared (readEnds buffSize s) (tokens uriRelaxed header)) := by
  have hw := ha.wellformed (by omega)
  have honce : (atOnce s).connected = true := hc
  refine ⟨?_, recvRequest_iff_spared lexicalCast hsize ha hfit hbody hrest hc hp⟩
  apply (recvRequest_iff_spared lexicalCast hsize ha hfit hbody hrest honce
    ((pending_atOnce s).trans hp)).2
  exact spared_atOnce hw.pos hfit hw.stop hc hp

/-- `lexical_cast` of digits. -/
def decimal (text : List UInt8) : Option UInt64 :=
  if text.isEmpty || text.any (!digit ·) then none
  else
    let n := text.foldl (fun n c => 10 * n + (c.toNat - 48)) 0
    if n < 2 ^ 64 then some (UInt64.ofNat n) else none

def arriving (segs : List Segment) : Stream := ⟨true, segs, ⟨0, by decide⟩, [], []⟩

def postHeader : List UInt8 := bytes "POST /a?b HTTP/1.1\r\ncontent-length: 2\r\n\r\n"

/-- The reads end between the tokens. -/
def postSegments : List Segment :=
  [⟨bytes "POST ", by decide⟩, ⟨bytes "/a?", by decide⟩, ⟨bytes "b HTTP/1.1\r\n", by decide⟩,
    ⟨bytes "content-length: 2\r\n", by decide⟩, ⟨bytes "\r\nh", by decide⟩,
    ⟨bytes "i", by decide⟩]

/-- What a run of the parser shows. -/
theorem accepts_of_run {n : ℕ}
    (h : ((HttpRequestParser.new false).execute header).toOption.map (fun x =>
      (x.2.1, x.1.hasError, x.1.isFinished, (x.1.getContentLength decimal).toNat)) =
        some (header.length, false, 1, n)) :
    ∃ p, Accepts false header p ∧ (p.getContentLength decimal).toNat = n := by
  cases hexec : (HttpRequestParser.new false).execute header with
  | error f =>
    rw [hexec] at h
    cases h
  | ok x =>
    obtain ⟨p, k, calls⟩ := x
    rw [hexec] at h
    simp only [Except.toOption, Option.map_some, Option.some.injEq, Prod.mk.injEq] at h
    obtain ⟨rfl, herror, hfinished, hlength⟩ := h
    exact ⟨p, ⟨⟨calls, hexec⟩, herror, by rw [hfinished]; decide⟩, hlength⟩

theorem segmentation_between_tokens :
    ∃ p, Accepts false postHeader p ∧
      ∃ s' given, recvRequest decimal 4096 false (arriving postSegments) =
          .ok (some (requestOf decimal p (bytes "hi")), s', given) ∧
        Delivers given (tokens false postHeader) := by
  obtain ⟨p, ha, hlength⟩ : ∃ p, Accepts false postHeader p ∧
      (p.getContentLength decimal).toNat = 2 := accepts_of_run (by decide +kernel)
  refine ⟨p, ha, (segmentation_iff decimal (by decide) ha (by decide +kernel) ?_ ?_ rfl
    (by decide +kernel)).2.2 (by decide +kernel)⟩
  · rw [hlength]
    decide
  · rw [hlength]
    decide

/-- What `recvRequest` returns with the default size of the buffer, unless it runs into undefined
behaviour. -/
def received (segs : List Segment) : Option (Option HttpRequest) :=
  (recvRequest decimal 4096 false (arriving segs)).toOption.map (·.1)

/-- One read gives a request; with a read that ends in the method there is none, and with one that
ends in the query the callback is given an index outside of the buffer. -/
theorem split_token_breaks_request :
    received [⟨bytes "GET /?a=1 HTTP/1.1\r\n\r\n", by decide⟩] =
        some (some { HttpRequest.new 0x11 true with query := bytes "a=1" }) ∧
      received [⟨bytes "GE", by decide⟩, ⟨bytes "T /?a=1 HTTP/1.1\r\n\r\n", by decide⟩] =
        some none ∧
      received [⟨bytes "GET /?a=", by decide⟩, ⟨bytes "1 HTTP/1.1\r\n\r\n", by decide⟩] =
        none := by
  refine ⟨?_, ?_, ?_⟩ <;> decide +kernel

end Requests

end HttpSegmentation
