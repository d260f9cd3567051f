import Mathlib.Algebra.Group.Int.Defs
import Mathlib.Algebra.Order.Group.Nat
import Mathlib.Tactic.Common

/-!
# Streams

`Stream` is abstract in the source; its `read` and `write` transfer at least one byte and at
most as many as asked for, or return a value that is not positive. What one `read` can get is
a segment of the bytes to come, so that every way to cut the bytes into reads is a list of
segments.
-/
namespace SylarStream

/-- What arrives together; a read of no bytes is the end of the stream. -/
abbrev Segment := { bytes : List UInt8 // bytes ≠ [] }

structure Stream where
  connected : Bool
  incoming : List Segment
  /-- What `read` returns once nothing is left to come. -/
  readEnd : { r : Int32 // r.toInt ≤ 0 }
  /-- The results of the next calls of `write`; afterwards it takes everything. -/
  accepts : List Int32
  outgoing : List UInt8

namespace Stream

/-- The bytes to come, in whatever segments. -/
def pending (s : Stream) : List UInt8 := s.incoming.flatMap (·.1)

def close (s : Stream) : Stream := { s with connected := false }

/-- What reads can get before the stream ends or fails. -/
def available (s : Stream) : List UInt8 := if s.connected then s.pending else []

/-- Result, bytes put into the buffer and the stream afterwards. -/
def read (s : Stream) (length : ℕ) : ℤ × List UInt8 × Stream :=
  if !s.connected then (-1, [], s)
  else
    match s.incoming with
    | [] => (s.readEnd.1.toInt, [], s)
    | seg :: rest =>
      if h : length < seg.1.length then
        (length, seg.1.take length,
          { s with incoming := ⟨seg.1.drop length, by simpa using h⟩ :: rest })
      else (seg.1.length, seg.1, { s with incoming := rest })

def write (s : Stream) (buffer : List UInt8) : ℤ × Stream :=
  if !s.connected then (-1, s)
  else
    match s.accepts with
    | [] => (buffer.length, { s with outgoing := s.outgoing ++ buffer })
    | a :: rest =>
      if a.toInt ≤ 0 then (a.toInt, { s with accepts := rest })
      else
        let n := min a.toInt.toNat buffer.length
        (n, { s with accepts := rest, outgoing := s.outgoing ++ buffer.take n })

/-- `int` of a value the function returns. -/
def toInt (v : ℤ) : ℤ := v.bmod (2 ^ 32)

/-- The loop of `readFixSize`. Every pass reads at least one byte, so that `left` passes are
enough. -/
def readFixSizeLoop : ℕ → Stream → ℕ → List UInt8 → Option ℤ × List UInt8 × Stream
  | 0, s, _, buffer => (none, buffer, s)
  | fuel + 1, s, left, buffer =>
    if left = 0 then (none, buffer, s)
    else
      let (len, bytes, s) := s.read left
      if len ≤ 0 then (some len, buffer, s)
      else readFixSizeLoop fuel s (left - len.toNat) (buffer ++ bytes)

/-- `int64_t` of a `size_t`. -/
def toInt64 (n : ℕ) : ℤ := (n : ℤ).bmod (2 ^ 64)

/-- `while (left > 0)` with an `int64_t left`, which no length from `2 ^ 63` on makes positive. -/
def readFixSize (s : Stream) (length : ℕ) : ℤ × List UInt8 × Stream :=
  match readFixSizeLoop length s (toInt64 length).toNat [] with
  | (none, buffer, s) => (toInt length, buffer, s)
  | (some len, buffer, s) => (toInt len, buffer, s)

/-- The loop of `writeFixSize` over what is left of the buffer. -/
def writeFixSizeLoop : ℕ → Stream → List UInt8 → Option ℤ × Stream
  | 0, s, _ => (none, s)
  | fuel + 1, s, left =>
    if left.length = 0 then (none, s)
    else
      let (len, s) := s.write left
      if len ≤ 0 then (some len, s)
      else writeFixSizeLoop fuel s (left.drop len.toNat)

def writeFixSize (s : Stream) (buffer : List UInt8) : ℤ × Stream :=
  match writeFixSizeLoop buffer.length s buffer with
  | (none, s) => (toInt buffer.length, s)
  | (some len, s) => (toInt len, s)

/-- The stream after reads only. -/
def arrived (s : Stream) (segs : List Segment) : Stream := { s with incoming := segs }

/-- The segments without the first bytes. -/
def skipped (n : ℕ) : List Segment → List Segment
  | [] => []
  | seg :: rest =>
    if h : n < seg.1.length then ⟨seg.1.drop n, by simpa using h⟩ :: rest
    else skipped (n - seg.1.length) rest

def skip (s : Stream) (n : ℕ) : Stream := s.arrived (skipped n s.incoming)

/-- The stream after writes only. -/
def wrote (s : Stream) (accepts : List Int32) (bytes : List UInt8) : Stream :=
  { s with accepts := accepts, outgoing := s.outgoing ++ bytes }

/-- No call of `write` fails. -/
structure Writable (s : Stream) : Prop where
  isOpen : s.connected = true
  takes : ∀ a ∈ s.accepts, 0 < a.toInt

theorem Writable.wrote {s : Stream} (hs : Writable s) {rest : List Int32}
    (h : ∀ a ∈ rest, 0 < a.toInt) (bytes : List UInt8) : Writable (s.wrote rest bytes) :=
  ⟨hs.isOpen, h⟩

theorem Writable.arrived {s : Stream} (hs : Writable s) (segs : List Segment) :
    Writable (s.arrived segs) := ⟨hs.isOpen, hs.takes⟩

@[simp] theorem wrote_wrote (s : Stream) (rest rest' : List Int32) (a b : List UInt8) :
    (s.wrote rest a).wrote rest' b = s.wrote rest' (a ++ b) := by
  simp [Stream.wrote]

@[simp] theorem arrived_arrived (s : Stream) (segs segs' : List Segment) :
    (s.arrived segs).arrived segs' = s.arrived segs' := rfl

theorem toInt_eq_of_lt {n : ℕ} (h : n < 2 ^ 32) :
    toInt n = if n < 2 ^ 31 then (n : ℤ) else (n : ℤ) - 2 ^ 32 := by
  rw [toInt, Int.bmod_def]
  split <;> split <;> omega

theorem toInt_of_lt {n : ℕ} (h : n < 2 ^ 31) : toInt n = n := by
  apply Int.bmod_eq_of_le <;> omega

/-- While bytes are to come a read gets the next ones, at least one of them. -/
theorem read_spec {s : Stream} (hc : s.connected = true) {n : ℕ} (hn : 0 < n)
    (hp : s.pending ≠ []) :
    ∃ k segs, 0 < k ∧ k ≤ n ∧ k ≤ s.pending.length ∧
      s.read n = ((k : ℤ), s.pending.take k, s.arrived segs) ∧
      (s.arrived segs).pending = s.pending.drop k := by
  obtain ⟨connected, incoming, readEnd, accepts, outgoing⟩ := s
  cases incoming with
  | nil => exact absurd rfl hp
  | cons seg rest =>
    change connected = true at hc
    subst hc
    have hseg : 0 < seg.1.length := List.length_pos_iff.2 seg.2
    by_cases hlt : n < seg.1.length
    · refine ⟨n, ⟨seg.1.drop n, by simpa using hlt⟩ :: rest, hn, le_refl n, ?_, ?_, ?_⟩
      · simp only [pending, List.flatMap_cons, List.length_append]
        omega
      · simp only [read, hlt, arrived, pending, List.flatMap_cons, dif_pos, Bool.not_true,
          Bool.false_eq_true, if_false, List.take_append_of_le_length (le_of_lt hlt)]
      · simp only [arrived, pending, List.flatMap_cons,
          List.drop_append_of_le_length (le_of_lt hlt)]
    · refine ⟨seg.1.length, rest, hseg, by omega, ?_, ?_, ?_⟩
      · simp [pending]
      · simp [read, hlt, arrived, pending]
      · simp [arrived, pending]

theorem skipped_zero (segs : List Segment) : skipped 0 segs = segs := by
  cases segs with
  | nil => rfl
  | cons seg rest =>
    have hseg : 0 < seg.1.length := List.length_pos_iff.2 seg.2
    simp only [skipped, hseg, dif_pos, List.drop_zero]

theorem skipped_skipped (a b : ℕ) (segs : List Segment) :
    skipped b (skipped a segs) = skipped (a + b) segs := by
  induction segs generalizing a with
  | nil => rfl
  | cons seg rest ih =>
    by_cases ha : a < seg.1.length
    · by_cases hb : a + b < seg.1.length
      · have hdrop : b < seg.1.length - a := by omega
        simp [skipped, ha, hb, hdrop]
      · have hdrop : ¬ b < seg.1.length - a := by omega
        have hrest : b - (seg.1.length - a) = a + b - seg.1.length := by omega
        simp [skipped, ha, hb, hdrop, hrest]
    · have hb : ¬ a + b < seg.1.length := by omega
      have hrest : a - seg.1.length + b = a + b - seg.1.length := by omega
      simp only [skipped, ha, hb, dif_neg, not_false_eq_true, ih, hrest]

@[simp] theorem skip_zero (s : Stream) : s.skip 0 = s := by
  simp [skip, arrived, skipped_zero]

@[simp] theorem skip_skip (s : Stream) (a b : ℕ) : (s.skip a).skip b = s.skip (a + b) := by
  simp [skip, arrived, skipped_skipped]

theorem pending_skip (s : Stream) (n : ℕ) : (s.skip n).pending = s.pending.drop n := by
  obtain ⟨connected, incoming, readEnd, accepts, outgoing⟩ := s
  simp only [skip, arrived, pending]
  induction incoming generalizing n with
  | nil => simp [skipped]
  | cons seg rest ih =>
    by_cases h : n < seg.1.length
    · simp [skipped, h, List.drop_append_of_le_length (le_of_lt h)]
    · simp [skipped, h, ih, List.drop_append, List.drop_eq_nil_of_le (not_lt.1 h)]

/-- A read skips what it gets. -/
theorem read_skip (s : Stream) (n : ℕ) : (s.read n).2.2 = s.skip (s.read n).1.toNat := by
  obtain ⟨connected, incoming, readEnd, accepts, outgoing⟩ := s
  cases connected with
  | false => simp [read]
  | true =>
    cases incoming with
    | nil =>
      have hend := readEnd.2
      simp [read, Int.toNat_of_nonpos hend]
    | cons seg rest =>
      by_cases h : n < seg.1.length
      · simp [read, h, skip, arrived, skipped]
      · simp [read, h, skip, arrived, skipped, skipped_zero]

theorem toInt_toInt (r : Int32) : toInt r.toInt = r.toInt := r.toInt_bmod_size

theorem available_of_connected {s : Stream} (hc : s.connected = true) :
    s.available = s.pending := if_pos hc

theorem available_skip (s : Stream) (n : ℕ) : (s.skip n).available = s.available.drop n := by
  have hc : (s.skip n).connected = s.connected := rfl
  unfold available
  rw [hc]
  split
  · exact pending_skip s n
  · exact List.drop_nil.symm

/-- A read fails for good, or it gets the next bytes. -/
theorem read_cases (s : Stream) {n : ℕ} (hn : 0 < n) :
    (s.available = [] ∧ ∃ r, r ≤ 0 ∧ toInt r = r ∧ s.read n = (r, [], s)) ∨
      ∃ k : ℕ, 0 < k ∧ k ≤ n ∧ k ≤ s.available.length ∧
        s.read n = ((k : ℤ), s.available.take k, s.skip k) := by
  by_cases hc : s.connected = true
  · rw [available_of_connected hc]
    by_cases hp : s.pending = []
    · have hnil : s.incoming = [] := by
        cases hin : s.incoming with
        | nil => rfl
        | cons seg rest =>
          rw [pending, hin, List.flatMap_cons, List.append_eq_nil_iff] at hp
          exact absurd hp.1 seg.2
      refine .inl ⟨hp, s.readEnd.1.toInt, s.readEnd.2, toInt_toInt _, ?_⟩
      simp [read, hc, hnil]
    · obtain ⟨k, segs, hk, hkn, hkl, hread, -⟩ := read_spec hc hn hp
      have hskip := read_skip s n
      simp only [hread, Int.toNat_natCast] at hskip
      rw [hskip] at hread
      exact .inr ⟨k, hk, hkn, hkl, hread⟩
  · refine .inl ⟨if_neg hc, -1, by decide, by decide, ?_⟩
    simp [read, hc]

/-- Either all bytes are there, or the loop ends with those that are. -/
theorem readFixSizeLoop_cases {fuel : ℕ} {s : Stream} {left : ℕ} (hfuel : left ≤ fuel)
    (buffer : List UInt8) :
    (left ≤ s.available.length ∧ readFixSizeLoop fuel s left buffer =
        (none, buffer ++ s.available.take left, s.skip left)) ∨
      (s.available.length < left ∧ ∃ r, r ≤ 0 ∧ toInt r = r ∧ readFixSizeLoop fuel s left buffer =
        (some r, buffer ++ s.available, s.skip s.available.length)) := by
  induction fuel generalizing s left buffer with
  | zero =>
    obtain rfl : left = 0 := by omega
    exact .inl ⟨Nat.zero_le _, by simp [readFixSizeLoop]⟩
  | succ fuel ih =>
    rcases Nat.eq_zero_or_pos left with rfl | hpos
    · exact .inl ⟨Nat.zero_le _, by simp [readFixSizeLoop]⟩
    rw [readFixSizeLoop, if_neg (Nat.pos_iff_ne_zero.1 hpos)]
    rcases read_cases s hpos with ⟨hnil, r, hr, hint, hread⟩ | ⟨k, hk, hkn, hkl, hread⟩
    · have hlt : s.available.length < left := by
        rw [hnil]
        exact hpos
      refine .inr ⟨hlt, r, hr, hint, ?_⟩
      simp only [hread, hr, if_true, hnil, List.append_nil, List.length_nil, skip_zero]
    · have hk0 : ¬ (k : ℤ) ≤ 0 := by omega
      have hdrop : (s.skip k).available.length = s.available.length - k := by
        rw [available_skip, List.length_drop]
      simp only [hread, hk0, if_false, Int.toNat_natCast]
      rcases @ih (s.skip k) (left - k) (by omega) (buffer ++ s.available.take k) with
        ⟨hle, hloop⟩ | ⟨hlt, r, hr, hint, hloop⟩
      · refine .inl ⟨by omega, ?_⟩
        have hsplit : k + (left - k) = left := by omega
        rw [hloop, available_skip, List.append_assoc, ← List.take_add, skip_skip, hsplit]
      · refine .inr ⟨by omega, r, hr, hint, ?_⟩
        have hsplit : k + (s.available.length - k) = s.available.length := by omega
        rw [hloop, hdrop, available_skip, List.append_assoc, List.take_append_drop, skip_skip,
          hsplit]

theorem toInt64_of_lt {n : ℕ} (h : n < 2 ^ 63) : toInt64 n = n := by
  apply Int.bmod_eq_of_le <;> omega

theorem toInt64_of_le {n : ℕ} (h : 2 ^ 63 ≤ n) (hn : n < 2 ^ 64) :
    toInt64 n = (n : ℤ) - 2 ^ 64 := by
  have hupper : ¬ (n : ℤ) % ((2 ^ 64 : ℕ) : ℤ) < (((2 ^ 64 : ℕ) : ℤ) + 1) / 2 := by omega
  change (n : ℤ).bmod (2 ^ 64) = _
  rw [Int.bmod_def, if_neg hupper]
  omega

theorem readFixSize_cases (s : Stream) {n : ℕ} (hn : n < 2 ^ 63) :
    (n ≤ s.available.length ∧ s.readFixSize n = (toInt n, s.available.take n, s.skip n)) ∨
      (s.available.length < n ∧ ∃ r, r ≤ 0 ∧
        s.readFixSize n = (r, s.available, s.skip s.available.length)) := by
  rw [readFixSize, toInt64_of_lt hn, Int.toNat_natCast]
  rcases readFixSizeLoop_cases (s := s) (le_refl n) [] with
    ⟨hle, hloop⟩ | ⟨hlt, r, hr, hint, hloop⟩
  · exact .inl ⟨hle, by rw [hloop, List.nil_append]⟩
  · exact .inr ⟨hlt, r, hr, by simp only [hloop, hint, List.nil_append]⟩

/-- The result is the length as an `int`, and nothing is read. -/
theorem readFixSize_wrapped (s : Stream) {n : ℕ} (h : 2 ^ 63 ≤ n) (hn : n < 2 ^ 64) :
    s.readFixSize n = (toInt n, [], s) := by
  have hneg : (n : ℤ) - 2 ^ 64 ≤ 0 := by omega
  rw [readFixSize, toInt64_of_le h hn, Int.toNat_of_nonpos hneg]
  rcases readFixSizeLoop_cases (s := s) (Nat.zero_le n) [] with ⟨-, hloop⟩ | ⟨hlt, -⟩
  · rw [hloop, List.take_zero, List.nil_append, skip_zero]
  · exact absurd hlt (Nat.not_lt_zero _)

/-- With enough bytes to come all of them are read, whatever the segments. -/
theorem readFixSize_spec {s : Stream} (hc : s.connected = true) {bytes tail : List UInt8}
    (hfits : bytes.length < 2 ^ 63) (hp : s.pending = bytes ++ tail) :
    ∃ segs, s.readFixSize bytes.length = (toInt bytes.length, bytes, s.arrived segs) ∧
      (s.arrived segs).pending = tail := by
  have hav : s.available = bytes ++ tail := by rw [available_of_connected hc, hp]
  refine ⟨skipped bytes.length s.incoming, ?_, ?_⟩
  · rcases readFixSize_cases s hfits with ⟨-, hread⟩ | ⟨hlt, -⟩
    · rw [hread, hav, List.take_left]
      rfl
    · rw [hav, List.length_append] at hlt
      omega
  · have hskip := pending_skip s bytes.length
    rwa [hp, List.drop_left] at hskip

theorem length_read {s : Stream} {n : ℕ} (h : ¬ (s.read n).1 ≤ 0) :
    (s.read n).2.1.length = (s.read n).1.toNat := by
  obtain ⟨connected, incoming, readEnd, accepts, outgoing⟩ := s
  cases connected with
  | false => simp [read] at h
  | true =>
    cases incoming with
    | nil =>
      have hend := readEnd.2
      exact absurd hend (by simpa [read] using h)
    | cons seg rest =>
      by_cases hlt : n < seg.1.length
      · simp [read, hlt, le_of_lt hlt]
      · simp [read, hlt]

theorem readFixSizeLoop_skip (fuel : ℕ) (s : Stream) (left : ℕ) (buffer : List UInt8) :
    ∃ bytes, (readFixSizeLoop fuel s left buffer).2 = (buffer ++ bytes, s.skip bytes.length) := by
  induction fuel generalizing s left buffer with
  | zero => exact ⟨[], by simp [readFixSizeLoop]⟩
  | succ fuel ih =>
    by_cases hleft : left = 0
    · exact ⟨[], by simp [readFixSizeLoop, hleft]⟩
    · have hskip := read_skip s left
      by_cases hlen : (s.read left).1 ≤ 0
      · refine ⟨[], ?_⟩
        rw [Int.toNat_of_nonpos hlen, skip_zero] at hskip
        simp [readFixSizeLoop, hleft, hlen, hskip]
      · obtain ⟨bytes, hbytes⟩ := ih (s.read left).2.2 (left - (s.read left).1.toNat)
          (buffer ++ (s.read left).2.1)
        refine ⟨(s.read left).2.1 ++ bytes, ?_⟩
        rw [hskip, skip_skip, ← length_read hlen, ← List.length_append] at hbytes
        simp only [readFixSizeLoop, hleft, hlen, if_false, hskip, ← length_read hlen, hbytes,
          List.append_assoc]

theorem readFixSize_skip (s : Stream) (n : ℕ) :
    (s.readFixSize n).2.2 = s.skip (s.readFixSize n).2.1.length := by
  obtain ⟨bytes, hbytes⟩ := readFixSizeLoop_skip n s (toInt64 n).toNat []
  unfold readFixSize
  cases hloop : readFixSizeLoop n s (toInt64 n).toNat [] with
  | mk result more =>
    rw [hloop] at hbytes
    change more = _ at hbytes
    subst hbytes
    cases result with
    | none => rfl
    | some len => rfl

/-- At the end of the stream the result is what `read` returns there. -/
theorem readFixSize_end {s : Stream} (hp : s.pending = []) {n : ℕ} (hn : 0 < n)
    (hlt : n < 2 ^ 63) : (s.readFixSize n).1 ≤ 0 := by
  have hnil : s.available = [] := by
    rw [available, hp, ite_self]
  rcases readFixSize_cases s hlt with ⟨hle, -⟩ | ⟨-, r, hr, hread⟩
  · rw [hnil, List.length_nil] at hle
    omega
  · rw [hread]
    exact hr

/-- The calls of `write` take that many bytes before one of them fails. -/
def takes : List Int32 → ℕ → Bool
  | [], _ => true
  | a :: rest, n => n = 0 || (decide (0 < a.toInt) && takes rest (n - a.toInt.toNat))

/-- The results of `write` behind the calls that take that many bytes. -/
def leftOver : List Int32 → ℕ → List Int32
  | [], _ => []
  | a :: rest, n => if n = 0 then a :: rest else leftOver rest (n - a.toInt.toNat)

theorem takes_zero (accepts : List Int32) : takes accepts 0 = true := by
  cases accepts <;> rfl

theorem leftOver_zero (accepts : List Int32) : leftOver accepts 0 = accepts := by
  cases accepts <;> rfl

theorem takes_of_positive {accepts : List Int32} (h : ∀ a ∈ accepts, 0 < a.toInt) (n : ℕ) :
    takes accepts n = true ∧ ∀ a ∈ leftOver accepts n, 0 < a.toInt := by
  induction accepts generalizing n with
  | nil => exact ⟨rfl, h⟩
  | cons a accepts ih =>
    obtain ⟨ha, hrest⟩ := List.forall_mem_cons.1 h
    obtain ⟨htakes, hleft⟩ := ih hrest (n - a.toInt.toNat)
    refine ⟨?_, ?_⟩
    · simp only [takes, ha, htakes, decide_true, Bool.and_self, Bool.or_true]
    · unfold leftOver
      split
      · exact h
      · exact hleft

theorem write_nil {s : Stream} (hc : s.connected = true) (ha : s.accepts = [])
    (buffer : List UInt8) : s.write buffer = ((buffer.length : ℤ), s.wrote [] buffer) := by
  obtain ⟨connected, incoming, readEnd, accepts, outgoing⟩ := s
  subst hc ha
  rfl

theorem write_cons {s : Stream} (hc : s.connected = true) {a : Int32} {accepts : List Int32}
    (ha : s.accepts = a :: accepts) (buffer : List UInt8) :
    s.write buffer = if a.toInt ≤ 0 then (a.toInt, s.wrote accepts [])
      else ((min a.toInt.toNat buffer.length : ℕ),
        s.wrote accepts (buffer.take (min a.toInt.toNat buffer.length))) := by
  obtain ⟨connected, incoming, readEnd, accepts', outgoing⟩ := s
  subst hc ha
  simp only [write, Stream.wrote, Bool.not_true, Bool.false_eq_true, if_false, List.append_nil]

theorem writeFixSizeLoop_nil (fuel : ℕ) (s : Stream) : writeFixSizeLoop fuel s [] = (none, s) := by
  cases fuel <;> rfl

/-- The loop writes everything where the calls take it, and stops at one that fails otherwise. -/
theorem writeFixSizeLoop_spec {fuel : ℕ} {s : Stream} (hc : s.connected = true)
    {left : List UInt8} (hfuel : left.length ≤ fuel) :
    if takes s.accepts left.length then
      writeFixSizeLoop fuel s left = (none, s.wrote (leftOver s.accepts left.length) left)
    else ∃ (a : Int32) (t : Stream), writeFixSizeLoop fuel s left = (some a.toInt, t) ∧
      a.toInt ≤ 0 := by
  induction fuel generalizing s left with
  | zero =>
    obtain rfl : left = [] := List.length_eq_zero_iff.1 (by omega)
    simp [takes_zero, leftOver_zero, writeFixSizeLoop_nil, Stream.wrote]
  | succ fuel ih =>
    by_cases hnil : left.length = 0
    · obtain rfl : left = [] := List.length_eq_zero_iff.1 hnil
      simp [takes_zero, leftOver_zero, writeFixSizeLoop_nil, Stream.wrote]
    · cases ha : s.accepts with
      | nil =>
        have hpos : ¬ (left.length : ℤ) ≤ 0 := by omega
        simp only [takes, leftOver, if_true, writeFixSizeLoop, hnil, if_false, write_nil hc ha,
          hpos, Int.toNat_natCast, List.drop_length, writeFixSizeLoop_nil]
      | cons a accepts =>
        by_cases hfail : a.toInt ≤ 0
        · have hnot : takes (a :: accepts) left.length = false := by
            simp only [takes, hnil, not_lt.2 hfail, decide_false, Bool.false_and, Bool.or_self]
          simp only [hnot, Bool.false_eq_true, if_false, writeFixSizeLoop, hnil,
            write_cons hc ha, hfail, if_true]
          exact ⟨a, _, rfl, hfail⟩
        · obtain ⟨n, hn⟩ : ∃ n, min a.toInt.toNat left.length = n := ⟨_, rfl⟩
          have hpos : ¬ (n : ℤ) ≤ 0 := by omega
          have hlength : (left.drop n).length = left.length - a.toInt.toNat := by
            rw [List.length_drop]
            omega
          have hrest := ih (s := s.wrote accepts (left.take n)) hc
            (show (left.drop n).length ≤ fuel by omega)
          rw [hlength, show (s.wrote accepts (left.take n)).accepts = accepts from rfl] at hrest
          simp only [takes, leftOver, hnil, lt_of_not_ge hfail, decide_true, decide_false,
            Bool.true_and, Bool.false_or, if_false, writeFixSizeLoop, write_cons hc ha, hfail, hn,
            hpos, Int.toNat_natCast]
          simpa only [wrote_wrote, List.take_append_drop] using hrest

theorem writeFixSize_takes {s : Stream} (hc : s.connected = true) {buffer : List UInt8}
    (ht : takes s.accepts buffer.length = true) : s.writeFixSize buffer =
      (toInt buffer.length, s.wrote (leftOver s.accepts buffer.length) buffer) := by
  have hloop := writeFixSizeLoop_spec hc (le_refl buffer.length)
  rw [if_pos ht] at hloop
  simp only [writeFixSize, hloop]

theorem writeFixSize_fails {s : Stream} (hc : s.connected = true) {buffer : List UInt8}
    (ht : ¬ takes s.accepts buffer.length = true) : (s.writeFixSize buffer).1 ≤ 0 := by
  have hloop := writeFixSizeLoop_spec hc (le_refl buffer.length)
  rw [if_neg ht] at hloop
  obtain ⟨a, t, hloop, ha⟩ := hloop
  have hint : toInt a.toInt = a.toInt := a.toInt_bmod
  simp only [writeFixSize, hloop, hint, ha]

theorem writeFixSize_spec {s : Stream} (hs : Writable s) (buffer : List UInt8) :
    ∃ rest : List Int32, (∀ a ∈ rest, 0 < a.toInt) ∧ s.writeFixSize buffer =
      (toInt buffer.length, s.wrote rest buffer) := by
  obtain ⟨htakes, hrest⟩ := takes_of_positive hs.takes buffer.length
  exact ⟨_, hrest, writeFixSize_takes hs.isOpen htakes⟩

theorem write_wrote (s : Stream) (buffer : List UInt8) :
    ∃ accepts bytes, (s.write buffer).2 = s.wrote accepts bytes := by
  unfold write
  split
  · exact ⟨s.accepts, [], by simp [Stream.wrote]⟩
  · split
    · rename_i haccepts
      exact ⟨[], buffer, by simp [Stream.wrote, ← haccepts]⟩
    · rename_i a accepts haccepts
      split
      · exact ⟨accepts, [], by simp [Stream.wrote]⟩
      · exact ⟨accepts, _, rfl⟩

/-- Writes of any outcome leave what is to come. -/
theorem writeFixSizeLoop_wrote (fuel : ℕ) (s : Stream) (left : List UInt8) :
    ∃ accepts bytes, (writeFixSizeLoop fuel s left).2 = s.wrote accepts bytes := by
  induction fuel generalizing s left with
  | zero => exact ⟨s.accepts, [], by simp [writeFixSizeLoop, Stream.wrote]⟩
  | succ fuel ih =>
    by_cases hleft : left.length = 0
    · exact ⟨s.accepts, [], by simp [writeFixSizeLoop, Stream.wrote, hleft]⟩
    · obtain ⟨accepts, bytes, hwrite⟩ := s.write_wrote left
      by_cases hlen : (s.write left).1 ≤ 0
      · exact ⟨accepts, bytes, by simp [writeFixSizeLoop, hleft, hlen, hwrite]⟩
      · obtain ⟨accepts', bytes', hmore⟩ :=
          ih (s.write left).2 (left.drop (s.write left).1.toNat)
        refine ⟨accepts', bytes ++ bytes', ?_⟩
        rw [hwrite, wrote_wrote] at hmore
        simp only [writeFixSizeLoop, hleft, hlen, if_false, hwrite, hmore]

theorem writeFixSize_wrote (s : Stream) (buffer : List UInt8) :
    ∃ accepts bytes, (s.writeFixSize buffer).2 = s.wrote accepts bytes := by
  obtain ⟨accepts, bytes, hloop⟩ := writeFixSizeLoop_wrote buffer.length s buffer
  refine ⟨accepts, bytes, ?_⟩
  rw [← hloop]
  unfold writeFixSize
  split <;> rename_i heq <;> rw [heq]

end Stream

end SylarStream
