import SylarNet.Http11Parser

/-!
# The tokens of a header

What the callbacks are for: each of them is to get a part of the header, wherever the reads
end. `walk` runs the machine over a header and counts all indices from its first byte. Beside
its slices a token has the bytes from which on the indices for it are set and at which the last
of it is read. A run of the code over a buffer that starts at byte `b` of the header passes the
slices of the token if and only if none of the indices is older than the buffer.
-/
namespace Http11Tokens

open RagelMachine Http11Grammar Http11Parser

/-- The indices of the parser, counted from the first byte of the header. -/
structure Marks where
  mark : ℕ
  fieldStart : ℕ
  fieldLen : ℕ
  /-- From where `fieldLen` was measured, unless it is zero. -/
  fieldLenFrom : Option ℕ
  queryStart : Option ℕ

namespace Marks

def init : Marks := ⟨0, 0, 0, none, none⟩

def act (i : ℕ) (m : Marks) : Action → Marks
  | .mark => { m with mark := i }
  | .startValue => { m with mark := i }
  | .startField => { m with fieldStart := i }
  | .writeField =>
    { m with
      fieldLen := i - m.fieldStart
      fieldLenFrom := if m.fieldStart < i then some m.fieldStart else none }
  | .startQuery => { m with queryStart := some i }
  | _ => m

end Marks

/-- What a callback is to be given, and the bytes `since`, .., `stop - 1` that it needs. -/
structure Token where
  call : Callback
  since : ℕ
  stop : ℕ

namespace Marks

def element (i : ℕ) (m : Marks) (e : Element) : Token :=
  ⟨.element e (some ⟨m.mark, i - m.mark⟩), m.mark, i + 1⟩

/-- The calls of `on_request_uri` and `on_request_header_done`, which do nothing, are no
tokens. -/
def token (i : ℕ) (m : Marks) : Action → Option Token
  | .requestMethod => some (m.element i .requestMethod)
  | .fragment => some (m.element i .fragment)
  | .httpVersion => some (m.element i .httpVersion)
  | .requestPath => some (m.element i .requestPath)
  | .queryString =>
    some ⟨.element .queryString (m.queryStart.map fun t => ⟨t, i - t⟩), m.queryStart.getD i, i + 1⟩
  | .writeValue =>
    some ⟨.httpField ⟨m.fieldStart, m.fieldLen⟩ ⟨m.mark, i - m.mark⟩,
      min m.mark (min m.fieldStart (m.fieldLenFrom.getD m.mark)),
      max (i + 1) (m.fieldStart + m.fieldLen)⟩
  | _ => none

def perform (i : ℕ) : Marks → List Action → Marks × List Token
  | m, [] => (m, [])
  | m, a :: as =>
    if a = .done then (m, [])
    else
      let t := perform i (m.act i a) as
      (t.1, (m.token i a).toList ++ t.2)

end Marks

structure Walk where
  state : Option State
  pos : ℕ
  marks : Marks
  tokens : List Token
  /-- By `fbreak`. -/
  ended : Bool

def walk (uriRelaxed : Bool) : State → ℕ → Marks → List UInt8 → Walk
  | st, i, m, [] => ⟨some st, i, m, [], false⟩
  | st, i, m, c :: cs =>
    match (main uriRelaxed).next st c with
    | none => ⟨none, i, m, [], false⟩
    | some (st, acts) =>
      let r := m.perform i acts
      if .done ∈ acts then ⟨some st, i + 1, r.1, r.2, true⟩
      else
        let w := walk uriRelaxed st (i + 1) r.1 cs
        { w with tokens := r.2 ++ w.tokens }

/-- The tokens of a header. -/
def tokens (uriRelaxed : Bool) (header : List UInt8) : List Token :=
  (walk uriRelaxed State.initial 0 .init header).tokens

/-- The next bytes after those of a walk that is still on its way. -/
theorem walk_append {uriRelaxed : Bool} {st st' : State} {i : ℕ} {m : Marks} {xs : List UInt8}
    (h : (walk uriRelaxed st i m xs).ended = false)
    (hst : (walk uriRelaxed st i m xs).state = some st') (ys : List UInt8) :
    (walk uriRelaxed st i m xs).pos = i + xs.length ∧
      walk uriRelaxed st i m (xs ++ ys) =
        { walk uriRelaxed st' (i + xs.length) (walk uriRelaxed st i m xs).marks ys with
          tokens := (walk uriRelaxed st i m xs).tokens ++
            (walk uriRelaxed st' (i + xs.length) (walk uriRelaxed st i m xs).marks
              ys).tokens } := by
  induction xs generalizing st i m with
  | nil =>
    cases hst
    exact ⟨rfl, rfl⟩
  | cons c cs ih =>
    cases hn : (main uriRelaxed).next st c with
    | none => simp [walk, hn] at hst
    | some r =>
      obtain ⟨st₁, acts⟩ := r
      by_cases hd : Action.done ∈ acts
      · simp [walk, hn, hd] at h
      · simp only [walk, hn, hd, if_false] at h hst
        obtain ⟨hpos, happ⟩ := ih h hst
        have hi : i + (cs.length + 1) = i + 1 + cs.length := by omega
        constructor
        · simp only [walk, hn, hd, if_false, List.length_cons, hi, hpos]
        · simp only [List.cons_append, walk, hn, hd, if_false, List.length_cons, hi, happ,
            List.append_assoc]

/-- A walk that has ended or failed does not see the bytes behind. -/
theorem walk_append_of_stopped {uriRelaxed : Bool} {st : State} {i : ℕ} {m : Marks}
    {xs : List UInt8} (h : (walk uriRelaxed st i m xs).ended = true ∨
      (walk uriRelaxed st i m xs).state = none) (ys : List UInt8) :
    walk uriRelaxed st i m (xs ++ ys) = walk uriRelaxed st i m xs := by
  induction xs generalizing st i m with
  | nil => simp [walk] at h
  | cons c cs ih =>
    cases hn : (main uriRelaxed).next st c with
    | none => simp [walk, hn]
    | some r =>
      obtain ⟨st₁, acts⟩ := r
      by_cases hd : Action.done ∈ acts
      · simp [walk, hn, hd]
      · simp only [walk, hn, hd, if_false] at h
        simp only [List.cons_append, walk, hn, hd, if_false, ih h]

theorem walk_pos_le {uriRelaxed : Bool} {st : State} {i : ℕ} {m : Marks} {xs : List UInt8} :
    (walk uriRelaxed st i m xs).pos ≤ i + xs.length := by
  induction xs generalizing st i m with
  | nil => exact le_refl i
  | cons c cs ih =>
    cases hn : (main uriRelaxed).next st c with
    | none => simp [walk, hn]
    | some r =>
      obtain ⟨st₁, acts⟩ := r
      by_cases hd : Action.done ∈ acts
      · simp only [walk, hn, hd, if_true, List.length_cons]
        omega
      · have hle : (walk uriRelaxed st₁ (i + 1) (m.perform i acts).1 cs).pos ≤ i + 1 + cs.length :=
          ih
        simp only [walk, hn, hd, if_false, List.length_cons]
        omega

theorem le_walk_pos {uriRelaxed : Bool} {st : State} {i : ℕ} {m : Marks} {xs : List UInt8} :
    i ≤ (walk uriRelaxed st i m xs).pos := by
  induction xs generalizing st i m with
  | nil => exact le_refl i
  | cons c cs ih =>
    simp only [walk]
    split
    · exact le_refl i
    · split
      · exact Nat.le_succ i
      · exact le_trans (Nat.le_succ i) ih

/-- At the end of the grammar `done` is executed: a walk that has not ended is at no such
state. -/
theorem walk_accepting {uriRelaxed : Bool} {st st' : State} {i : ℕ} {m : Marks} {xs : List UInt8}
    (hne : xs ≠ []) (hst : (walk uriRelaxed st i m xs).state = some st')
    (hacc : (main uriRelaxed).accepting st' = true) :
    (walk uriRelaxed st i m xs).ended = true := by
  induction xs generalizing st i m with
  | nil => exact absurd rfl hne
  | cons c cs ih =>
    cases hn : (main uriRelaxed).next st c with
    | none => simp [walk, hn] at hst
    | some r =>
      obtain ⟨st₁, acts⟩ := r
      by_cases hd : Action.done ∈ acts
      · simp [walk, hn, hd]
      · simp only [walk, hn, hd, if_false] at hst ⊢
        cases cs with
        | nil =>
          cases hst
          exact absurd (finishing_executed hn hacc) hd
        | cons c' cs => exact ih (by simp) hst

/-!
## The parser over one buffer

The buffer starts at byte `b` of the header, so that byte `p` of it is byte `b + p`.
-/

def Slice.shift (b : ℕ) (s : Slice) : Slice := ⟨s.start + b, s.length⟩

def Slice.Inside (n : ℕ) (s : Slice) : Prop := s.start + s.length ≤ n

/-- The call, counted from the first byte of the header. -/
def Callback.shift (b : ℕ) : Callback → Callback
  | .element e s => .element e (s.map (Slice.shift b))
  | .httpField field value => .httpField (Slice.shift b field) (Slice.shift b value)

/-- What the callback is given lies in the first `n` bytes of the buffer. -/
def Callback.Inside (n : ℕ) : Callback → Prop
  | .element _ none => False
  | .element _ (some s) => Slice.Inside n s
  | .httpField field value => Slice.Inside n field ∧ Slice.Inside n value

def Callback.effective : Callback → Bool
  | .element .requestUri _ => false
  | .element .headerDone _ => false
  | _ => true

structure Bounded (k : ℕ) (m : Marks) : Prop where
  mark : m.mark ≤ k
  fieldStart : m.fieldStart ≤ k
  fieldLen : ∀ f, m.fieldLenFrom = some f → f ≤ k ∧ 0 < m.fieldLen
  noFieldLen : m.fieldLenFrom = none → m.fieldLen = 0
  queryStart : ∀ t, m.queryStart = some t → t ≤ k

/-- What the parser has of the indices: those set in this buffer are right, `mark` and
`field_start` are zero otherwise and `field_len` too small, and `query_start` belongs to a
buffer before. -/
structure Regs (b : ℕ) (m : Marks) (q : HttpParser) : Prop where
  mark : if b ≤ m.mark then q.mark + b = m.mark else q.mark = 0
  fieldStart : if b ≤ m.fieldStart then q.fieldStart + b = m.fieldStart else q.fieldStart = 0
  fieldLen : if b ≤ m.fieldLenFrom.getD b then q.fieldLen = m.fieldLen
    else q.fieldLen < m.fieldLen
  noQuery : m.queryStart = none → q.queryStart = none
  queryStart : ∀ t, m.queryStart = some t → ∃ v, q.queryStart = some v ∧
    if b ≤ t then v + b = t else v ≤ t ∧ t < v + b

theorem len_of_le {start fpc : ℕ} (h : start ≤ fpc) (hlt : fpc < 2 ^ 64) :
    len start fpc = fpc - start := by
  have hcast : ((fpc : ℤ) - start) = ((fpc - start : ℕ) : ℤ) := by omega
  unfold len
  rw [hcast]
  omega

theorem Bounded.mono {k k' : ℕ} {m : Marks} (h : Bounded k m) (hk : k ≤ k') : Bounded k' m where
  mark := le_trans h.mark hk
  fieldStart := le_trans h.fieldStart hk
  fieldLen f hf := ⟨le_trans (h.fieldLen f hf).1 hk, (h.fieldLen f hf).2⟩
  noFieldLen := h.noFieldLen
  queryStart t ht := le_trans (h.queryStart t ht) hk

theorem Bounded.act {i : ℕ} {m : Marks} (h : Bounded i m) (a : Action) :
    Bounded i (m.act i a) := by
  cases a with
  | mark => exact { h with mark := le_refl i }
  | startValue => exact { h with mark := le_refl i }
  | startField => exact { h with fieldStart := le_refl i }
  | startQuery => exact { h with queryStart := by rintro t ⟨⟩; exact le_refl i }
  | writeField =>
    refine { h with fieldLen := ?_, noFieldLen := ?_ }
    · intro f hf
      by_cases hlt : m.fieldStart < i
      · simp only [Marks.act, hlt, if_true, Option.some.injEq] at hf ⊢
        omega
      · simp [Marks.act, hlt] at hf
    · intro hf
      by_cases hlt : m.fieldStart < i
      · simp [Marks.act, hlt] at hf
      · simp only [Marks.act]
        omega
  | _ => exact h

section Buffer

variable {b pe p : ℕ} {m : Marks} {q : HttpParser}

theorem Regs.mark_le (hq : Regs b m q) (hm : Bounded (b + p) m) : q.mark ≤ p := by
  have h := hq.mark
  have hb := hm.mark
  split at h <;> omega

theorem Regs.fieldStart_le (hq : Regs b m q) (hm : Bounded (b + p) m) : q.fieldStart ≤ p := by
  have h := hq.fieldStart
  have hb := hm.fieldStart
  split at h <;> omega

theorem Regs.writeField (hq : Regs b m q) (hm : Bounded (b + p) m) (hp : p < 2 ^ 64) :
    if b ≤ (m.act (b + p) .writeField).fieldLenFrom.getD b
    then len q.fieldStart p = b + p - m.fieldStart
    else len q.fieldStart p < b + p - m.fieldStart := by
  have hle := hq.fieldStart_le hm
  have hfs := hm.fieldStart
  have h := hq.fieldStart
  rw [len_of_le hle hp]
  by_cases hb : b ≤ m.fieldStart
  · rw [if_pos hb] at h
    have hfrom : b ≤ (m.act (b + p) .writeField).fieldLenFrom.getD b := by
      simp only [Marks.act]
      split <;> simp [hb]
    rw [if_pos hfrom]
    omega
  · rw [if_neg hb] at h
    have hfrom : ¬ b ≤ (m.act (b + p) .writeField).fieldLenFrom.getD b := by
      have hlt : m.fieldStart < b + p := by omega
      simpa [Marks.act, hlt] using hb
    rw [if_neg hfrom]
    omega

theorem Regs.act (hq : Regs b m q) (hm : Bounded (b + p) m) (hp : p < 2 ^ 64) (a : Action) :
    Regs b (m.act (b + p) a) (act pe p q a).1 := by
  have hi : b ≤ b + p := Nat.le_add_right b p
  cases a with
  | mark =>
    refine { hq with mark := ?_ }
    simp only [Marks.act, Http11Parser.act, hi, if_true]
    omega
  | startValue =>
    refine { hq with mark := ?_ }
    simp only [Marks.act, Http11Parser.act, hi, if_true]
    omega
  | startField =>
    refine { hq with fieldStart := ?_ }
    simp only [Marks.act, Http11Parser.act, hi, if_true]
    omega
  | writeField => exact { hq with fieldLen := hq.writeField hm hp }
  | startQuery =>
    refine { hq with noQuery := by simp [Marks.act], queryStart := ?_ }
    rintro t ⟨⟩
    refine ⟨p, rfl, ?_⟩
    rw [if_pos hi]
    omega
  | done =>
    simp only [Http11Parser.act]
    split
    · exact { hq with }
    · exact { hq with }
  | xml => exact { hq with }
  | json => exact { hq with }
  | _ => exact hq

/-- A call of the run over the buffer, and the token it is for. -/
structure Agrees (b n : ℕ) (c : Callback) (t : Token) : Prop where
  shift : Callback.shift b c = t.call ↔ b ≤ t.since
  inside : Callback.shift b c = t.call → ∀ k, Callback.Inside k t.call →
    (Callback.Inside n c ↔ t.stop ≤ b + n)

theorem element_agrees (hq : Regs b m q) (hm : Bounded (b + p) m) (hp : p < 2 ^ 64)
    (hpe : p < pe) (e : Element) :
    Agrees b pe (.element e (some (slice q.mark p))) (m.element (b + p) e) := by
  have hle := hq.mark_le hm
  have hmark := hq.mark
  have hbound := hm.mark
  constructor
  · simp only [Callback.shift, Slice.shift, slice, Marks.element, Option.map_some,
      Callback.element.injEq, true_and, Option.some.injEq, Slice.mk.injEq, len_of_le hle hp]
    split at hmark <;> omega
  · intro _ _ _
    simp only [Callback.Inside, Slice.Inside, slice, Marks.element, len_of_le hle hp]
    omega

theorem queryString_agrees (hq : Regs b m q) (hm : Bounded (b + p) m) (hp : p < 2 ^ 64)
    (hpe : p < pe) :
    Agrees b pe (.element .queryString (q.queryStart.map (slice · p)))
      ⟨.element .queryString (m.queryStart.map fun t => ⟨t, b + p - t⟩),
        m.queryStart.getD (b + p), b + p + 1⟩ := by
  cases hquery : m.queryStart with
  | none =>
    constructor
    · simp [Callback.shift, hq.noQuery hquery]
    · intro _ k hk
      exact absurd hk (by simp [Callback.Inside])
  | some t =>
    obtain ⟨v, hv, hreg⟩ := hq.queryStart t hquery
    have hbound := hm.queryStart t hquery
    by_cases hb : b ≤ t
    · rw [if_pos hb] at hreg
      have hle : v ≤ p := by omega
      constructor
      · simp only [hv, Callback.shift, Slice.shift, slice, Option.map_some,
          Callback.element.injEq, true_and, Option.some.injEq, Slice.mk.injEq, len_of_le hle hp,
          Option.getD_some]
        omega
      · intro _ _ _
        simp only [hv, Callback.Inside, Slice.Inside, slice, Option.map_some, len_of_le hle hp]
        omega
    · -- The index is one of an earlier buffer, so it stands for a later byte of the header.
      rw [if_neg hb] at hreg
      have hne : Callback.shift b (.element .queryString (some (slice v p))) ≠
          .element .queryString (some ⟨t, b + p - t⟩) := by
        simp only [Callback.shift, Slice.shift, slice, Option.map_some, ne_eq,
          Callback.element.injEq, true_and, Option.some.injEq, Slice.mk.injEq]
        omega
      constructor
      · simpa [hv, hb] using hne
      · intro heq
        rw [hv] at heq
        exact absurd heq hne

theorem httpField_agrees (hq : Regs b m q) (hm : Bounded (b + p) m) (hp : p < 2 ^ 64)
    (hpe : p < pe) :
    Agrees b pe (.httpField ⟨q.fieldStart, q.fieldLen⟩ (slice q.mark p))
      ⟨.httpField ⟨m.fieldStart, m.fieldLen⟩ ⟨m.mark, b + p - m.mark⟩,
        min m.mark (min m.fieldStart (m.fieldLenFrom.getD m.mark)),
        max (b + p + 1) (m.fieldStart + m.fieldLen)⟩ := by
  have hle := hq.mark_le hm
  have hmark := hq.mark
  have hstart := hq.fieldStart
  have hlen := hq.fieldLen
  have hbound := hm.mark
  constructor
  · simp only [Callback.shift, Slice.shift, slice, Callback.httpField.injEq, Slice.mk.injEq,
      len_of_le hle hp, le_min_iff]
    cases hfrom : m.fieldLenFrom with
    | none =>
      simp only [hfrom, Option.getD_none, le_refl, if_true] at hlen ⊢
      split at hmark <;> split at hstart <;> omega
    | some f =>
      simp only [hfrom, Option.getD_some] at hlen ⊢
      split at hmark <;> split at hstart <;> split at hlen <;> omega
  · intro heq _ _
    simp only [Callback.shift, Slice.shift, slice, Callback.httpField.injEq, Slice.mk.injEq,
      len_of_le hle hp] at heq
    simp only [Callback.Inside, Slice.Inside, slice, len_of_le hle hp, max_le_iff]
    omega

/-- The calls of one action that do anything, and its token. -/
theorem act_agrees (hq : Regs b m q) (hm : Bounded (b + p) m) (hp : p < 2 ^ 64) (hpe : p < pe)
    (a : Action) :
    List.Forall₂ (Agrees b pe) ((act pe p q a).2.filter Callback.effective)
      (m.token (b + p) a).toList := by
  cases a with
  | requestMethod => exact .cons (element_agrees hq hm hp hpe _) .nil
  | fragment => exact .cons (element_agrees hq hm hp hpe _) .nil
  | httpVersion => exact .cons (element_agrees hq hm hp hpe _) .nil
  | requestPath => exact .cons (element_agrees hq hm hp hpe _) .nil
  | queryString => exact .cons (queryString_agrees hq hm hp hpe) .nil
  | writeValue => exact .cons (httpField_agrees hq hm hp hpe) .nil
  | done =>
    simp only [act]
    split
    · exact .nil
    · exact .nil
  | _ => exact .nil

/-- What the assertions behind the run are about, apart from the indices. -/
structure Fits (p : ℕ) (q : HttpParser) : Prop where
  fieldLen : q.fieldLen ≤ p
  bodyStart : q.bodyStart ≤ p
  nread : q.nread = 0

theorem Fits.act (hf : Fits (p + 1) q) (hq : Regs b m q) (hm : Bounded (b + p) m)
    (hp : p < 2 ^ 64) (a : Action) : Fits (p + 1) (act pe p q a).1 := by
  have hmark := hq.mark_le hm
  cases a with
  | writeField =>
    refine { hf with fieldLen := ?_ }
    have hle := hq.fieldStart_le hm
    simp only [Http11Parser.act, len_of_le hle hp]
    omega
  | done =>
    simp only [Http11Parser.act]
    split
    · exact { hf with bodyStart := Nat.le_succ_of_le hmark }
    · exact { hf with bodyStart := le_refl (p + 1) }
  | _ => exact { hf with }

/-- A call that does nothing is inside the buffer too, and behind the method there is a
space. -/
structure Proper (buffer : List UInt8) (c : Callback) : Prop where
  idle : Callback.effective c = false → Callback.Inside buffer.length c
  method : ∀ s, c = .element .requestMethod (some s) → buffer[s.start + s.length]? = some 32

theorem act_proper {buffer : List UInt8} (hq : Regs b m q) (hm : Bounded (b + p) m)
    (hp : p < 2 ^ 64) (hpe : p < buffer.length) {a : Action}
    (hspace : a = .requestMethod → buffer[p]? = some 32) :
    ∀ c ∈ (act buffer.length p q a).2, Proper buffer c := by
  intro c hc
  have hle := hq.mark_le hm
  have hsum : q.mark + (p - q.mark) = p := by omega
  cases a with
  | requestMethod =>
    rcases List.mem_singleton.1 hc with rfl
    refine ⟨by simp [Callback.effective], ?_⟩
    rintro s ⟨⟩
    simpa only [slice, len_of_le hle hp, hsum] using hspace rfl
  | requestUri =>
    rcases List.mem_singleton.1 hc with rfl
    refine ⟨fun _ => ?_, by simp⟩
    simp only [Callback.Inside, Slice.Inside, slice, len_of_le hle hp]
    omega
  | done =>
    simp only [act] at hc
    split at hc
    · cases hc
    · rcases List.mem_singleton.1 hc with rfl
      refine ⟨fun _ => ?_, by simp⟩
      simp only [Callback.Inside, Slice.Inside]
      omega
  | fragment | httpVersion | requestPath | queryString | writeValue =>
    rcases List.mem_singleton.1 hc with rfl
    exact ⟨by simp [Callback.effective], by simp⟩
  | _ => cases hc

theorem act_uriRelaxed (a : Action) : (act pe p q a).1.uriRelaxed = q.uriRelaxed := by
  cases a with
  | done =>
    simp only [act]
    split <;> rfl
  | _ => rfl

theorem perform_bodyStart {acts : List Action} (h : .done ∉ acts) :
    (perform pe p q acts).1.bodyStart = q.bodyStart := by
  induction acts generalizing q with
  | nil => rfl
  | cons a as ih =>
    rw [List.mem_cons, not_or] at h
    have ha : a ≠ .done := Ne.symm h.1
    simp only [perform, ha, if_false]
    rw [ih h.2]
    cases a with
    | done => exact absurd rfl ha
    | _ => rfl

/-- The actions of one transition. -/
structure Performs (b p : ℕ) (buffer : List UInt8) (q : HttpParser)
    (r : HttpParser × List Callback × Bool) (w : Marks × List Token) : Prop where
  regs : Regs b w.1 r.1
  bounded : Bounded (b + p) w.1
  fits : Fits (p + 1) r.1
  relaxed : r.1.uriRelaxed = q.uriRelaxed
  agree : List.Forall₂ (Agrees b buffer.length) (r.2.1.filter Callback.effective) w.2
  proper : ∀ c ∈ r.2.1, Proper buffer c

theorem perform_spec {buffer : List UInt8} (hq : Regs b m q) (hm : Bounded (b + p) m)
    (hf : Fits (p + 1) q) (hp : p < 2 ^ 64) (hpe : p < buffer.length) {acts : List Action}
    (hspace : .requestMethod ∈ acts → buffer[p]? = some 32) :
    Performs b p buffer q (perform buffer.length p q acts) (m.perform (b + p) acts) ∧
      (perform buffer.length p q acts).2.2 = decide (.done ∈ acts) := by
  induction acts generalizing q m with
  | nil => exact ⟨⟨hq, hm, hf, rfl, .nil, by simp [perform]⟩, rfl⟩
  | cons a as ih =>
    have hact : Regs b (m.act (b + p) a) (act buffer.length p q a).1 := hq.act hm hp a
    have hagree := act_agrees hq hm hp hpe a
    have hproper := act_proper hq hm hp hpe (a := a) fun h => hspace (by simp [h])
    have hfit : Fits (p + 1) (act buffer.length p q a).1 := hf.act hq hm hp a
    by_cases hd : a = .done
    · subst hd
      refine ⟨⟨hact, hm, hfit, act_uriRelaxed _, hagree, hproper⟩, ?_⟩
      simp [perform]
    · obtain ⟨hrest, hbroke⟩ := ih hact (hm.act a) hfit fun h => hspace (by simp [h])
      simp only [perform, Marks.perform, hd, if_false]
      refine ⟨⟨hrest.regs, hrest.bounded, hrest.fits, ?_, ?_, ?_⟩, ?_⟩
      · rw [hrest.relaxed, act_uriRelaxed]
      · rw [List.filter_append]
        exact List.rel_append hagree hrest.agree
      · intro c hc
        rcases List.mem_append.1 hc with hc | hc
        · exact hproper c hc
        · exact hrest.proper c hc
      · rw [hbroke]
        simp [Ne.symm hd]

/-- A run over the rest of a buffer, and the walk over it. -/
structure Follows (b : ℕ) (buffer : List UInt8) (uriRelaxed : Bool)
    (r : HttpParser × ℕ × List Callback) (w : Walk) : Prop where
  state : r.1.cs = w.state
  pos : b + r.2.1 = w.pos
  regs : Regs b w.marks r.1
  bounded : Bounded (w.pos - 1) w.marks
  fits : Fits r.2.1 r.1
  bodyStart : w.ended = false → r.1.bodyStart = 0
  relaxed : r.1.uriRelaxed = uriRelaxed
  agree : List.Forall₂ (Agrees b buffer.length) (r.2.2.filter Callback.effective) w.tokens
  proper : ∀ c ∈ r.2.2, Proper buffer c

theorem exec_spec {buffer rest : List UInt8} {uriRelaxed : Bool} {st : State}
    (hu : q.uriRelaxed = uriRelaxed) (hst : q.cs = some st) (hq : Regs b m q)
    (hm : Bounded (b + p - 1) m) (hf : Fits p q) (hbody : q.bodyStart = 0)
    (hlt : buffer.length < 2 ^ 64) (hrest : buffer.drop p = rest) :
    Follows b buffer uriRelaxed (exec buffer.length q p rest)
      (walk uriRelaxed st (b + p) m rest) := by
  induction rest generalizing q m p st with
  | nil => exact ⟨hst, rfl, hq, hm, hf, fun _ => hbody, hu, .nil, by simp [exec]⟩
  | cons c cs ih =>
    have hpe : p < buffer.length := by
      by_contra hge
      rw [List.drop_eq_nil_of_le (by omega)] at hrest
      cases hrest
    have hc : buffer[p]? = some c := by
      rw [← List.head?_drop, hrest]
      rfl
    have hcs : buffer.drop (p + 1) = cs := by
      rw [← List.tail_drop, hrest]
      rfl
    cases hn : (main uriRelaxed).next st c with
    | none =>
      simp only [exec, hst, walk, hu, hn]
      exact ⟨rfl, rfl, { hq with }, hm, { hf with }, fun _ => hbody, rfl, .nil, by simp⟩
    | some r =>
      obtain ⟨st₁, acts⟩ := r
      have hspace : .requestMethod ∈ acts → buffer[p]? = some 32 := by
        intro h
        have heq := executed_confined (requestMethod_confined uriRelaxed) hn h
        rw [hc, eq_of_beq heq]
      have hf' : Fits (p + 1) q :=
        ⟨le_trans hf.fieldLen (by omega), le_trans hf.bodyStart (by omega), hf.nread⟩
      obtain ⟨hperf, hbroke⟩ := perform_spec hq (hm.mono (by omega)) hf' (by omega) hpe hspace
      have hu' : (perform buffer.length p q acts).1.uriRelaxed = uriRelaxed := by
        rw [hperf.relaxed, hu]
      by_cases hd : Action.done ∈ acts
      · simp only [exec, hst, walk, hu, hn, hbroke, hd, decide_true, if_true]
        exact ⟨rfl, rfl, { hperf.regs with }, hperf.bounded, { hperf.fits with }, by simp, hu',
          hperf.agree, hperf.proper⟩
      · have hrun := ih (q := { (perform buffer.length p q acts).1 with cs := some st₁ }) hu' rfl
          { hperf.regs with } hperf.bounded { hperf.fits with }
          ((perform_bodyStart hd).trans hbody) hcs
        simp only [exec, hst, walk, hu, hn, hbroke, hd, decide_false, Bool.false_eq_true, if_false]
        refine ⟨hrun.state, hrun.pos, hrun.regs, hrun.bounded, hrun.fits, hrun.bodyStart,
          hrun.relaxed, ?_, ?_⟩
        · rw [List.filter_append]
          exact List.rel_append hperf.agree hrun.agree
        · intro x hx
          rcases List.mem_append.1 hx with hx | hx
          · exact hperf.proper x hx
          · exact hrun.proper x hx

end Buffer

/-!
## From one call to the next
-/

/-- Between two calls of `http_parser_execute`, behind the first `b` bytes of the header. -/
structure Parked (uriRelaxed : Bool) (b : ℕ) (st : State) (m : Marks) (q : HttpParser) : Prop where
  state : q.cs = some st
  relaxed : q.uriRelaxed = uriRelaxed
  regs : Regs b m (reset q)
  bounded : Bounded (b - 1) m
  bodyStart : q.bodyStart = 0

theorem parked_init (uriRelaxed : Bool) :
    Parked uriRelaxed 0 State.initial .init (httpParserInit uriRelaxed) where
  state := rfl
  relaxed := rfl
  regs := ⟨rfl, rfl, rfl, fun _ => rfl, by simp [Marks.init]⟩
  bounded := ⟨le_refl 0, le_refl 0, by simp [Marks.init], fun _ => rfl, by simp [Marks.init]⟩
  bodyStart := rfl

/-- Every index is older than the next buffer. -/
theorem Regs.reset {b n : ℕ} {m : Marks} {q : HttpParser} (hq : Regs b m q)
    (hm : Bounded (b + n - 1) m) (hn : 0 < n) : Regs (b + n) m (reset q) where
  mark := by
    have h := hm.mark
    rw [if_neg (by omega)]
    rfl
  fieldStart := by
    have h := hm.fieldStart
    rw [if_neg (by omega)]
    rfl
  fieldLen := by
    cases hfrom : m.fieldLenFrom with
    | none =>
      rw [Option.getD_none, if_pos (le_refl _), hm.noFieldLen hfrom]
      rfl
    | some f =>
      obtain ⟨hle, hpos⟩ := hm.fieldLen f hfrom
      rw [Option.getD_some, if_neg (by omega)]
      exact hpos
  noQuery := hq.noQuery
  queryStart := by
    intro t ht
    obtain ⟨v, hv, hreg⟩ := hq.queryStart t ht
    have h := hm.queryStart t ht
    refine ⟨v, hv, ?_⟩
    rw [if_neg (by omega)]
    split at hreg <;> omega

structure Executes (uriRelaxed : Bool) (b : ℕ) (buffer : List UInt8) (q' : HttpParser)
    (calls : List Callback) (w : Walk) : Prop where
  state : q'.cs = w.state
  relaxed : q'.uriRelaxed = uriRelaxed
  agree : List.Forall₂ (Agrees b buffer.length) (calls.filter Callback.effective) w.tokens
  proper : ∀ c ∈ calls, Proper buffer c
  parked : w.ended = false → ∀ st, w.state = some st →
    Parked uriRelaxed (b + buffer.length) st w.marks q'

/-- No assertion fails, whatever the header was before this buffer. -/
theorem httpParserExecute_spec {uriRelaxed : Bool} {b : ℕ} {st : State} {m : Marks}
    {q : HttpParser} (hq : Parked uriRelaxed b st m q) {buffer : List UInt8} (hne : buffer ≠ [])
    (hlt : buffer.length < 2 ^ 31) :
    ∃ q' calls, httpParserExecute q buffer 0 =
        .ok (q', (walk uriRelaxed st b m buffer).pos - b, calls) ∧
      Executes uriRelaxed b buffer q' calls (walk uriRelaxed st b m buffer) := by
  have hpos : 0 < buffer.length := List.length_pos_iff.2 hne
  have hfits : Fits 0 (reset q) := ⟨le_refl 0, le_of_eq hq.bodyStart, rfl⟩
  have hrun := exec_spec (p := 0) (q := reset q) hq.relaxed hq.state hq.regs hq.bounded hfits
    hq.bodyStart (by omega) (List.drop_zero (l := buffer))
  rw [Nat.add_zero] at hrun
  have hle : (walk uriRelaxed st b m buffer).pos ≤ b + buffer.length := walk_pos_le
  generalize hr : exec buffer.length (reset q) 0 buffer = r at hrun
  have hw := hrun.pos
  have hrle : r.2.1 ≤ buffer.length := by omega
  have hmark : r.1.mark < buffer.length := by
    have h := hrun.regs.mark
    have h' := hrun.bounded.mark
    split at h <;> omega
  have hstart : r.1.fieldStart < buffer.length := by
    have h := hrun.regs.fieldStart
    have h' := hrun.bounded.fieldStart
    split at h <;> omega
  have hlen := hrun.fits.fieldLen
  have hbody := hrun.fits.bodyStart
  have hzero := hrun.fits.nread
  have hint : ((buffer.length - 0 : ℕ) : ℤ) =
      SylarStream.Stream.toInt buffer.length - SylarStream.Stream.toInt (0 : ℕ) := by
    rw [SylarStream.Stream.toInt_of_lt hlt, SylarStream.Stream.toInt_of_lt (by omega)]
    omega
  refine ⟨{ r.1 with nread := r.1.nread + (r.2.1 - 0) }, r.2.2, ?_, ?_⟩
  · have hnread : r.1.nread + (r.2.1 - 0) = (walk uriRelaxed st b m buffer).pos - b := by omega
    simp only [httpParserExecute, List.drop_zero, hr, Nat.pos_iff_ne_zero.1 hpos, if_false,
      Nat.zero_le, true_and, hint, not_true_eq_false]
    rw [if_pos ⟨hrle, by omega, by omega, hmark, by omega, hstart⟩, hnread]
  · refine ⟨hrun.state, hrun.relaxed, hrun.agree, hrun.proper, ?_⟩
    intro hend st' hst'
    obtain ⟨hall, -⟩ := walk_append hend hst' []
    have hbounded := hrun.bounded
    rw [hall] at hbounded
    exact ⟨hrun.state.trans hst', hrun.relaxed, { hrun.regs.reset hbounded hpos with },
      hbounded, hrun.bodyStart hend⟩

/-- The bytes a token needs are those up to the one at which it is passed on. -/
theorem Marks.token_range {i : ℕ} {m : Marks} (hm : Bounded i m) {a : Action} {t : Token}
    (ht : m.token i a = some t) : t.since ≤ i ∧ i < t.stop := by
  have hmark := hm.mark
  cases a with
  | queryString =>
    cases ht
    cases hquery : m.queryStart with
    | none => exact ⟨le_refl i, Nat.lt_succ_self i⟩
    | some t => exact ⟨hm.queryStart t hquery, Nat.lt_succ_self i⟩
  | requestMethod | fragment | httpVersion | requestPath =>
    cases ht
    exact ⟨hmark, Nat.lt_succ_self i⟩
  | writeValue =>
    cases ht
    exact ⟨le_trans (min_le_left _ _) hmark, lt_of_lt_of_le (Nat.lt_succ_self i) (le_max_left _ _)⟩
  | _ => cases ht

theorem Marks.perform_range {i : ℕ} {m : Marks} (hm : Bounded i m) (acts : List Action) :
    Bounded i (m.perform i acts).1 ∧
      ∀ t ∈ (m.perform i acts).2, t.since ≤ i ∧ i < t.stop := by
  induction acts generalizing m with
  | nil => exact ⟨hm, by simp [Marks.perform]⟩
  | cons a as ih =>
    by_cases hd : a = .done
    · simp only [Marks.perform, hd, if_true]
      exact ⟨hm, by simp⟩
    · obtain ⟨hb, hts⟩ := ih (hm.act a)
      simp only [Marks.perform, hd, if_false]
      refine ⟨hb, ?_⟩
      intro t ht
      rcases List.mem_append.1 ht with ht | ht
      · exact Marks.token_range hm (Option.mem_toList.1 ht)
      · exact hts t ht

theorem walk_range {uriRelaxed : Bool} {st : State} {i : ℕ} {m : Marks} (hm : Bounded (i - 1) m)
    {xs : List UInt8} : ∀ t ∈ (walk uriRelaxed st i m xs).tokens,
      t.since < (walk uriRelaxed st i m xs).pos ∧ i < t.stop := by
  induction xs generalizing st i m with
  | nil => simp [walk]
  | cons c cs ih =>
    cases hn : (main uriRelaxed).next st c with
    | none => simp [walk, hn]
    | some r =>
      obtain ⟨st₁, acts⟩ := r
      obtain ⟨hb, hts⟩ := Marks.perform_range (hm.mono (Nat.sub_le i 1)) acts
      by_cases hd : Action.done ∈ acts
      · simp only [walk, hn, hd, if_true]
        intro t ht
        exact ⟨Nat.lt_succ_of_le (hts t ht).1, (hts t ht).2⟩
      · simp only [walk, hn, hd, if_false]
        intro t ht
        rcases List.mem_append.1 ht with ht | ht
        · exact ⟨lt_of_lt_of_le (Nat.lt_succ_of_le (hts t ht).1) le_walk_pos, (hts t ht).2⟩
        · obtain ⟨hsince, hstop⟩ := ih (i := i + 1) hb t ht
          exact ⟨hsince, by omega⟩

end Http11Tokens
