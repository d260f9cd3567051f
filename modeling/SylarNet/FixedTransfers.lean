import SylarNet.PartialTransfers
import SylarNet.SylarStream

/-!
# Fixed numbers of bytes

`Stream::readFixSize` and `Stream::writeFixSize` over raw buffers, and the four functions of
`Util` that go on past an interrupted call.
-/
namespace FixedTransfers

open PartialTransfers
open SylarStream.Stream (toInt toInt64)

def EINTR : ℤ := 4

/-- `readFixSize` and `writeFixSize` differ in the call; `read` and `write` return an `int`. -/
def fixSizeLoop (d : Direction) (buffer length : ℕ) :
    List (Answer 32) → ℕ → ℤ → World → Run 32 (Option ℤ)
  | [], offset, left, w =>
    if left > 0 then ⟨w, [(offset, left.toNat)], [], none⟩
    else ⟨w, [], [], some (toInt length)⟩
  | a :: rest, offset, left, w =>
    if left > 0 then
      if a.len ≤ 0 then ⟨w, [(offset, left.toNat)], [a], some (toInt a.len)⟩
      else
        (fixSizeLoop d buffer length rest (offset + a.moved) (left - a.len)
          (w.move d (buffer + offset) a.moved)).after (offset, left.toNat) a
    else ⟨w, [], [], some (toInt length)⟩

namespace Stream

def readFixSize (buffer length : ℕ) (answers : List (Answer 32)) (w : World) :
    Run 32 (Option ℤ) :=
  fixSizeLoop .read buffer length answers 0 (toInt64 length) w

def writeFixSize (buffer length : ℕ) (answers : List (Answer 32)) (w : World) :
    Run 32 (Option ℤ) :=
  fixSizeLoop .write buffer length answers 0 (toInt64 length) w

end Stream

variable {bits : ℕ}

/-- The loop of `Util` over the number of bytes so far; the cast changes nothing where the call
returns an `int`. -/
def fixedBytesLoop (d : Direction) (buffer : ℕ) (length : ℤ) :
    List (Answer bits) → ℤ → World → Run bits (Option ℤ)
  | [], count, w =>
    if count < length then ⟨w, [(count.toNat, (length - count).toNat)], [], none⟩
    else ⟨w, [], [], some count⟩
  | a :: rest, count, w =>
    if count < length then
      if a.len > 0 then
        (fixedBytesLoop d buffer length rest (count + toInt a.len)
          (w.move d (buffer + count.toNat) a.moved)).after
            (count.toNat, (length - count).toNat) a
      else if a.len = 0 then
        ⟨w, [(count.toNat, (length - count).toNat)], [a], some count⟩
      else if a.errno ≠ EINTR then
        ⟨w, [(count.toNat, (length - count).toNat)], [a], some count⟩
      else
        (fixedBytesLoop d buffer length rest count w).after
          (count.toNat, (length - count).toNat) a
    else ⟨w, [], [], some count⟩

namespace Util

/-- `WriteFixedBytes(int sockfd, ..)`, over `write`. -/
def writeFixedBytes (buffer : ℕ) (length : ℤ) (answers : List (Answer 64)) (w : World) :
    Run 64 (Option ℤ) :=
  fixedBytesLoop .write buffer length answers 0 w

def readFixedBytes (buffer : ℕ) (length : ℤ) (answers : List (Answer 64)) (w : World) :
    Run 64 (Option ℤ) :=
  fixedBytesLoop .read buffer length answers 0 w

end Util

def interrupted (a : Answer bits) : Bool := a.len < 0 && a.errno = EINTR

section Refinement

variable {d : Direction} {buffer n : ℕ}

/-- `fixedBytesLoop` returns the number of bytes, whatever the ending is. -/
def counted (offset : ℕ) (r : Run bits (Ending bits)) : Run bits (Option ℤ) :=
  r.mapResult fun e =>
    if e = .waiting then none else some ((offset + transferred r.used : ℕ) : ℤ)

end Refinement

section Contracts

variable {d : Direction} {buffer n : ℕ} {w : World}

section NoRetries

variable {answers : List (Answer 32)} {t : Run 32 (Ending 32)}

end NoRetries

end Contracts

section Callees

variable {σ : Type} (call : σ → ℕ → ℤ × σ)

/-- What a callee with a state of its own answers to the loop. -/
def answersOf : ℕ → σ → ℕ → List (Answer 32)
  | 0, _, _ => []
  | fuel + 1, s, left =>
    if left = 0 then []
    else
      ⟨BitVec.ofInt 32 (call s left).1, 0⟩ ::
        if (call s left).1 ≤ 0 then []
        else answersOf fuel (call s left).2 (left - (call s left).1.toNat)

/-- At which result the loop stops. -/
def stopOf : ℕ → σ → ℕ → Option ℤ
  | 0, _, _ => none
  | fuel + 1, s, left =>
    if left = 0 then none
    else if (call s left).1 ≤ 0 then some (call s left).1
    else stopOf fuel (call s left).2 (left - (call s left).1.toNat)

/-- The results are an `int`, and at most what was asked for. -/
def Proper : Prop := ∀ s left, 0 < left → left < 2 ^ 31 →
  toInt (call s left).1 = (call s left).1 ∧ (call s left).1 ≤ left

variable {call} {d : Direction} {buffer n : ℕ}

theorem len_ofInt {v : ℤ} (h : toInt v = v) (errno : ℤ) :
    (⟨BitVec.ofInt 32 v, errno⟩ : Answer 32).len = v :=
  (BitVec.toInt_ofInt v).trans h

/-- The loop over the answers of a callee is the loop over the callee. -/
theorem fixSizeLoop_answersOf (hcall : Proper call) (hn : n < 2 ^ 31) {fuel left offset : ℕ}
    (hfuel : left ≤ fuel) (hleft : offset + left = n) (s : σ) (w : World) :
    Bounded left (answersOf call fuel s left) ∧
      (fixSizeLoop d buffer n (answersOf call fuel s left) offset left w).result =
        some (toInt ((stopOf call fuel s left).getD n)) := by
  induction fuel generalizing s left offset w with
  | zero =>
    have hzero : left = 0 := by omega
    simp [hzero, answersOf, stopOf, Bounded, fixSizeLoop]
  | succ fuel ih =>
    by_cases hzero : left = 0
    · simp [hzero, answersOf, stopOf, Bounded, fixSizeLoop]
    · obtain ⟨hint, hle⟩ := hcall s left (by omega) (by omega)
      have hlen := len_ofInt hint 0
      have hpos : (left : ℤ) > 0 := by omega
      by_cases hstop : (call s left).1 ≤ 0
      · simp only [answersOf, stopOf, hzero, hstop, if_true, if_false, Bounded, fixSizeLoop, hpos,
          hlen]
        exact ⟨fun _ => ⟨hle, trivial⟩, rfl⟩
      · obtain ⟨k, hk⟩ := Int.eq_ofNat_of_zero_le (by omega : 0 ≤ (call s left).1)
        have hmoved : (⟨BitVec.ofInt 32 (call s left).1, 0⟩ : Answer 32).moved = k :=
          (congrArg Int.toNat (hlen.trans hk)).trans (Int.toNat_natCast k)
        have hrest : (left : ℤ) - k = (left - k : ℕ) := by omega
        obtain ⟨hbounded, hresult⟩ := @ih (left - k) (offset + k) (by omega) (by omega)
          (call s left).2 (w.move d (buffer + offset) k)
        simp only [hk] at hstop hlen hmoved hle
        simp only [answersOf, stopOf, hzero, hk, hstop, if_false, Int.toNat_natCast, Bounded,
          fixSizeLoop, hpos, if_true, hlen, hmoved, hrest]
        exact ⟨fun _ => ⟨hle, hbounded⟩, hresult⟩

end Callees

section Streams

variable {n : ℕ}

def readCall (s : SylarStream.Stream) (left : ℕ) : ℤ × SylarStream.Stream :=
  ((s.read left).1, (s.read left).2.2)

/-- The state has what is left of the buffer. -/
def writeCall (p : SylarStream.Stream × List UInt8) (left : ℕ) :
    ℤ × SylarStream.Stream × List UInt8 :=
  let r := p.1.write (p.2.take left)
  (r.1, r.2, p.2.drop r.1.toNat)

theorem proper_readCall : Proper readCall := by
  intro s left hpos hlt
  rcases s.read_cases hpos with ⟨-, r, hr, hint, hread⟩ | ⟨k, -, hk, -, hread⟩
  · simp only [readCall, hread]
    exact ⟨hint, by omega⟩
  · simp only [readCall, hread]
    exact ⟨SylarStream.Stream.toInt_of_lt (by omega), by omega⟩

theorem proper_writeCall : Proper writeCall := by
  intro p left hpos hlt
  have hlength : (p.2.take left).length ≤ left := List.length_take_le left p.2
  simp only [writeCall, SylarStream.Stream.write]
  split_ifs with hclosed
  · exact ⟨rfl, by omega⟩
  · split
    · exact ⟨SylarStream.Stream.toInt_of_lt (by omega), by simp⟩
    · split_ifs with hstop
      · exact ⟨SylarStream.Stream.toInt_toInt _, by omega⟩
      · exact ⟨SylarStream.Stream.toInt_of_lt (by omega), by omega⟩

theorem stopOf_readCall (fuel : ℕ) (s : SylarStream.Stream) (left : ℕ) (bytes : List UInt8) :
    stopOf readCall fuel s left = (SylarStream.Stream.readFixSizeLoop fuel s left bytes).1 := by
  induction fuel generalizing s left bytes with
  | zero => rfl
  | succ fuel ih =>
    by_cases hzero : left = 0
    · simp [stopOf, SylarStream.Stream.readFixSizeLoop, hzero]
    · by_cases hstop : (s.read left).1 ≤ 0
      · simp [stopOf, readCall, SylarStream.Stream.readFixSizeLoop, hzero, hstop]
      · have hnext := ih (s.read left).2.2 (left - (s.read left).1.toNat)
          (bytes ++ (s.read left).2.1)
        simpa [stopOf, readCall, SylarStream.Stream.readFixSizeLoop, hzero, hstop] using hnext

theorem stopOf_writeCall (fuel : ℕ) (s : SylarStream.Stream) (left : List UInt8) :
    stopOf writeCall fuel (s, left) left.length =
      (SylarStream.Stream.writeFixSizeLoop fuel s left).1 := by
  induction fuel generalizing s left with
  | zero => rfl
  | succ fuel ih =>
    by_cases hzero : left.length = 0
    · simp [stopOf, SylarStream.Stream.writeFixSizeLoop, hzero]
    · have hall : left.take left.length = left := List.take_length
      by_cases hstop : (s.write left).1 ≤ 0
      · simp [stopOf, writeCall, SylarStream.Stream.writeFixSizeLoop, hzero, hstop, hall]
      · have hnext := ih (s.write left).2 (left.drop (s.write left).1.toNat)
        simp only [List.length_drop] at hnext
        simpa [stopOf, writeCall, SylarStream.Stream.writeFixSizeLoop, hzero, hstop, hall]
          using hnext

theorem toInt64_toNat (hn : n < 2 ^ 31) : (toInt64 n).toNat = n := by
  have hlength := SylarStream.Stream.toInt64_of_lt (by omega : n < 2 ^ 63)
  simp only [hlength, Int.toNat_natCast]

/-- Reading from a stream is a run of the loop over what its reads return. -/
theorem readFixSize_answersOf (s : SylarStream.Stream) (hn : n < 2 ^ 31) (buffer : ℕ)
    (w : World) : Bounded n (answersOf readCall n s n) ∧
      (Stream.readFixSize buffer n (answersOf readCall n s n) w).result =
        some (s.readFixSize n).1 := by
  have hlength := SylarStream.Stream.toInt64_of_lt (by omega : n < 2 ^ 63)
  have hrun := @fixSizeLoop_answersOf _ readCall .read buffer n proper_readCall hn n n 0
    (le_refl n) (Nat.zero_add n) s w
  simp only [Stream.readFixSize, hlength]
  refine ⟨hrun.1, hrun.2.trans ?_⟩
  simp only [stopOf_readCall n s n [], SylarStream.Stream.readFixSize, toInt64_toNat hn]
  obtain ⟨stop, bytes, after⟩ := SylarStream.Stream.readFixSizeLoop n s n []
  cases stop with
  | none => simp only [Option.getD_none]
  | some len => simp only [Option.getD_some]

theorem writeFixSize_answersOf (s : SylarStream.Stream) {bytes : List UInt8}
    (hn : bytes.length < 2 ^ 31) (buffer : ℕ) (w : World) :
    Bounded bytes.length (answersOf writeCall bytes.length (s, bytes) bytes.length) ∧
      (Stream.writeFixSize buffer bytes.length
        (answersOf writeCall bytes.length (s, bytes) bytes.length) w).result =
          some (s.writeFixSize bytes).1 := by
  have hlength := SylarStream.Stream.toInt64_of_lt (by omega : bytes.length < 2 ^ 63)
  have hrun := @fixSizeLoop_answersOf _ writeCall .write buffer bytes.length proper_writeCall hn
    bytes.length bytes.length 0 (le_refl bytes.length) (Nat.zero_add bytes.length) (s, bytes) w
  simp only [Stream.writeFixSize, hlength]
  refine ⟨hrun.1, hrun.2.trans ?_⟩
  simp only [stopOf_writeCall, SylarStream.Stream.writeFixSize]
  obtain ⟨stop, after⟩ := SylarStream.Stream.writeFixSizeLoop bytes.length s bytes
  cases stop with
  | none => simp only [Option.getD_none]
  | some len => simp only [Option.getD_some]

end Streams

end FixedTransfers
