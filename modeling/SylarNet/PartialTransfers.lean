import Mathlib.Data.Int.Notation
import Mathlib.Data.Nat.Notation
import Mathlib.Order.Nat
import Mathlib.Tactic.Common

/-!
# Transfers by partial calls

A call moves some of the bytes that it was asked for, or returns a value that is not positive.
`transfer` asks again for what is left until everything was moved, or until it has an answer
that it does not retry.
-/
namespace PartialTransfers

inductive Direction where
  | read
  | write
  deriving DecidableEq, Repr

/-- The memory of a program, what the next reads will store there, and what the writes took. -/
structure World where
  memory : ℕ → UInt8
  incoming : ℕ → UInt8
  sent : List UInt8

/-- One call that moved `count` bytes. -/
def World.move (d : Direction) (address count : ℕ) (w : World) : World :=
  match d with
  | .read =>
    { w with
      memory := fun i =>
        if address ≤ i ∧ i < address + count then w.incoming (i - address) else w.memory i
      incoming := fun i => w.incoming (count + i) }
  | .write => { w with sent := w.sent ++ (List.range count).map fun i => w.memory (address + i) }

theorem World.move_zero (d : Direction) (address : ℕ) (w : World) : w.move d address 0 = w := by
  cases d with
  | read =>
    simp only [World.move, Nat.add_zero, Nat.zero_add]
    congr 1
    funext i
    exact if_neg (by omega)
  | write => simp [World.move]

/-- Two calls, the second of which goes on where the first stopped, are as one. -/
theorem World.move_move (d : Direction) (address j k : ℕ) (w : World) :
    (w.move d address j).move d (address + j) k = w.move d address (j + k) := by
  cases d with
  | read =>
    simp only [World.move, World.mk.injEq, and_true]
    constructor
    · funext i
      by_cases hsecond : address + j ≤ i ∧ i < address + j + k
      · have hboth : address ≤ i ∧ i < address + (j + k) := by omega
        have hoffset : j + (i - (address + j)) = i - address := by omega
        simp [hsecond, hboth, hoffset]
      · by_cases hfirst : address ≤ i ∧ i < address + j
        · have hboth : address ≤ i ∧ i < address + (j + k) := by omega
          simp [hsecond, hfirst, hboth]
        · have hneither : ¬(address ≤ i ∧ i < address + (j + k)) := by omega
          simp [hsecond, hfirst, hneither]
    · funext i
      simp [Nat.add_assoc]
  | write =>
    simp [World.move, List.range_add, List.map_append, List.append_assoc, Function.comp_def,
      Nat.add_assoc]

/-- What a call returned, in `bits` bits, and `errno` behind it. -/
structure Answer (bits : ℕ) where
  value : BitVec bits
  errno : ℤ
  deriving DecidableEq, Repr

variable {bits : ℕ}

def Answer.len (a : Answer bits) : ℤ := a.value.toInt

/-- How many bytes the call moved. -/
def Answer.moved (a : Answer bits) : ℕ := a.len.toNat

def transferred : List (Answer bits) → ℕ
  | [] => 0
  | a :: rest => a.moved + transferred rest

/-- No call moves more than it was asked for, where each is asked for what is left. -/
def Bounded : ℕ → List (Answer bits) → Prop
  | _, [] => True
  | left, a :: rest => 0 < left → a.len ≤ left ∧ Bounded (left - a.moved) rest

inductive Ending (bits : ℕ) where
  /-- The last call has not returned. -/
  | waiting
  | complete
  /-- At an answer that is not retried. -/
  | stopped (a : Answer bits)
  deriving DecidableEq, Repr

/-- What became of a run; a call is the offset in the buffer and the number of bytes asked for. -/
structure Run (bits : ℕ) (ρ : Type) where
  world : World
  calls : List (ℕ × ℕ)
  used : List (Answer bits)
  result : ρ

variable {ρ σ : Type}

namespace Run

def after (call : ℕ × ℕ) (a : Answer bits) (r : Run bits ρ) : Run bits ρ :=
  { r with calls := call :: r.calls, used := a :: r.used }

def mapResult (f : ρ → σ) (r : Run bits ρ) : Run bits σ :=
  { world := r.world, calls := r.calls, used := r.used, result := f r.result }

end Run

section Contract

variable (d : Direction) (buffer n : ℕ) (retries : Answer bits → Bool)

/-- Another call follows this answer, unless everything was moved. -/
def GoesOn (a : Answer bits) : Prop := 0 < a.len ∨ retries a = true

/-- What a run from `offset` on has done, whatever the answers were. -/
structure Contract (answers : List (Answer bits)) (offset : ℕ) (w : World)
    (r : Run bits (Ending bits)) : Prop where
  used : r.used <+: answers
  world : r.world = w.move d (buffer + offset) (transferred r.used)
  within : offset + transferred r.used ≤ n
  calls : ∀ c ∈ r.calls, c.1 + c.2 = n
  waits : r.result = .waiting → r.used = answers ∧ offset + transferred r.used < n ∧
    ∀ a ∈ r.used, GoesOn retries a
  completes : r.result = .complete → offset + transferred r.used = n ∧
    r.calls.length = r.used.length ∧ ∀ a ∈ r.used, GoesOn retries a
  stops : ∀ a, r.result = .stopped a → ¬GoesOn retries a ∧ offset + transferred r.used < n ∧
    r.calls.length = r.used.length ∧ ∃ front, r.used = front ++ [a] ∧ ∀ b ∈ front, GoesOn retries b

variable {d : Direction} {buffer n : ℕ} {retries : Answer bits → Bool}

theorem Answer.moved_of_nonpos {a : Answer bits} (h : ¬0 < a.len) : a.moved = 0 :=
  Int.toNat_of_nonpos (Int.not_lt.1 h)

theorem Contract.complete (answers : List (Answer bits)) (w : World) :
    Contract d buffer n retries answers n w ⟨w, [], [], .complete⟩ where
  used := List.nil_prefix
  world := (World.move_zero d _ w).symm
  within := le_refl n
  calls := by simp
  waits := by simp
  completes _ := by simp [transferred]
  stops := by simp

theorem Contract.waiting {offset : ℕ} (w : World) (h : offset < n) :
    Contract d buffer n retries [] offset w ⟨w, [(offset, n - offset)], [], .waiting⟩ where
  used := List.nil_prefix
  world := (World.move_zero d _ w).symm
  within := le_of_lt h
  calls := by
    intro c hc
    have hcall := List.mem_singleton.1 hc
    simp only [hcall]
    omega
  waits _ := by simpa [transferred] using h
  completes := by simp
  stops := by simp

theorem Contract.stopped {a : Answer bits} {offset : ℕ} (rest : List (Answer bits)) (w : World)
    (h : offset < n) (ha : ¬GoesOn retries a) : Contract d buffer n retries (a :: rest) offset w
      ⟨w, [(offset, n - offset)], [a], .stopped a⟩ := by
  have hmoved : a.moved = 0 := Answer.moved_of_nonpos fun hpos => ha (.inl hpos)
  have hnone : transferred [a] = 0 := by simp only [transferred, hmoved]
  constructor
  · exact List.prefix_append [a] rest
  · simp only [hnone, World.move_zero]
  · simp only [hnone]
    omega
  · intro c hc
    have hcall := List.mem_singleton.1 hc
    simp only [hcall]
    omega
  · intro h
    cases h
  · intro h
    cases h
  · intro b hb
    cases hb
    refine ⟨ha, ?_, rfl, [], rfl, by simp⟩
    simp only [hnone]
    exact h

/-- One call more in front; a call whose answer is retried moved nothing. -/
theorem Contract.after {a : Answer bits} {rest : List (Answer bits)} {offset : ℕ} {w : World}
    {r : Run bits (Ending bits)} (hlt : offset < n) (ha : GoesOn retries a)
    (h : Contract d buffer n retries rest (offset + a.moved)
      (w.move d (buffer + offset) a.moved) r) :
    Contract d buffer n retries (a :: rest) offset w (r.after (offset, n - offset) a) := by
  have hcount : offset + transferred (r.after (offset, n - offset) a).used =
      offset + a.moved + transferred r.used := (Nat.add_assoc _ _ _).symm
  have hall : ∀ {as : List (Answer bits)}, (∀ b ∈ as, GoesOn retries b) →
      ∀ b ∈ a :: as, GoesOn retries b := fun has => List.forall_mem_cons.2 ⟨ha, has⟩
  constructor
  · exact (List.prefix_cons_inj a).2 h.used
  · have hmove := World.move_move d (buffer + offset) a.moved (transferred r.used) w
    exact (Nat.add_assoc buffer offset a.moved ▸ h.world).trans hmove
  · simpa only [hcount] using h.within
  · intro c hc
    rcases List.mem_cons.1 hc with hfirst | hrest
    · simp only [hfirst]
      omega
    · exact h.calls c hrest
  · intro hend
    obtain ⟨hused, hleft, hgo⟩ := h.waits hend
    exact ⟨congrArg (a :: ·) hused, hcount ▸ hleft, hall hgo⟩
  · intro hend
    obtain ⟨hfull, hlength, hgo⟩ := h.completes hend
    exact ⟨hcount.trans hfull, congrArg (· + 1) hlength, hall hgo⟩
  · intro b hend
    obtain ⟨hb, hleft, hlength, front, hfront, hgo⟩ := h.stops b hend
    exact ⟨hb, hcount ▸ hleft, congrArg (· + 1) hlength, a :: front, congrArg (a :: ·) hfront,
      hall hgo⟩

end Contract

end PartialTransfers
