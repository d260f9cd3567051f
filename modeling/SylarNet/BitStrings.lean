import Mathlib.Algebra.Order.Group.Nat
import Mathlib.Data.List.Basic
import Mathlib.Data.Nat.Bitwise
import Mathlib.Tactic.Ring

/-!
# Strings of bits

Numbers as strings of bits, most significant first, and the shifts and masks that put them
together and take them apart.
-/
namespace BitStrings

/-- The `w` bits of a number, most significant first. -/
def bits (w v : ℕ) : List Bool := (List.range w).map fun i => v.testBit (w - 1 - i)

def ofBits (l : List Bool) : ℕ := l.foldl (fun v b => 2 * v + b.toNat) 0

theorem length_bits (w v : ℕ) : (bits w v).length = w := by
  rw [bits, List.length_map, List.length_range]

theorem bits_succ (w v : ℕ) : bits (w + 1) v = bits w (v / 2) ++ [v.testBit 0] := by
  rw [bits, List.range_succ, List.map_append, List.map_singleton, bits]
  congr 1
  · apply List.map_congr_left
    intro i hi
    have hlt := List.mem_range.1 hi
    rw [← Nat.testBit_succ]
    congr 1
    omega
  · simp

/-- The high bits stand before the low ones. -/
theorem bits_add (m n v : ℕ) : bits (m + n) v = bits m (v / 2 ^ n) ++ bits n v := by
  induction n generalizing v with
  | zero => rw [Nat.add_zero, Nat.pow_zero, Nat.div_one]; exact (List.append_nil _).symm
  | succ n ih =>
    rw [← Nat.add_assoc, bits_succ, ih, bits_succ n v, List.append_assoc, Nat.div_div_eq_div_mul,
      Nat.pow_succ']

theorem ofBits_append (l m : List Bool) :
    ofBits (l ++ m) = ofBits l * 2 ^ m.length + ofBits m := by
  have hfold (v : ℕ) : m.foldl (fun v b => 2 * v + b.toNat) v = v * 2 ^ m.length + ofBits m := by
    rw [ofBits]
    induction m generalizing v with
    | nil => simp
    | cons b m ih =>
      rw [List.foldl_cons, ih, List.foldl_cons, ih (2 * 0 + b.toNat), List.length_cons,
        Nat.pow_succ]
      ring
  rw [ofBits, List.foldl_append]
  exact hfold _

theorem ofBits_bits (w v : ℕ) : ofBits (bits w v) = v % 2 ^ w := by
  induction w generalizing v with
  | zero => rw [Nat.pow_zero, Nat.mod_one]; rfl
  | succ w ih =>
    rw [bits_succ, ofBits_append, ih, Nat.pow_succ', Nat.mod_mul, List.length_singleton]
    have hbit : ofBits [v.testBit 0] = v % 2 := by
      rw [ofBits, List.foldl_cons, List.foldl_nil, Nat.testBit_zero]
      rcases Nat.mod_two_eq_zero_or_one v with h | h <;> simp [h]
    rw [hbit]
    ring

theorem ofBits_zeros (l : List Bool) (n : ℕ) :
    ofBits (l ++ List.replicate n false) = ofBits l * 2 ^ n := by
  have hzeros : ofBits (List.replicate n false) = 0 := by
    induction n with
    | zero => rfl
    | succ n ih => rw [List.replicate_succ]; exact ih
  rw [ofBits_append, hzeros, List.length_replicate, Nat.add_zero]

theorem ofBits_unused {l : List Bool} (h : ∀ b ∈ l, b = false) : ofBits l = 0 := by
  have hzeros := ofBits_zeros [] l.length
  rw [List.nil_append, ← List.eq_replicate_of_mem h, show ofBits [] = 0 from rfl,
    Nat.zero_mul] at hzeros
  exact hzeros

theorem shiftLeft_or {y w : ℕ} (hy : y < 2 ^ w) (x : ℕ) : x <<< w ||| y = x * 2 ^ w + y := by
  rw [← Nat.shiftLeft_add_eq_or_of_lt hy, Nat.shiftLeft_eq]

theorem and_mask (x w : ℕ) : x &&& (2 ^ w - 1) = x % 2 ^ w := Nat.and_two_pow_sub_one_eq_mod x w

end BitStrings
