import Mathlib.Algebra.BigOperators.Fin
import Mathlib.Algebra.BigOperators.Intervals
import Mathlib.Algebra.Order.Group.Nat
import Mathlib.Algebra.Ring.GeomSum
import Mathlib.Algebra.Ring.Int.Parity
import Mathlib.Data.Int.ModEq
import Mathlib.Tactic.Ring

/-!
# Sums of powers

The value of a list of coefficients as Horner's rule computes it, and the sums of the powers of an
odd number, which have a period modulo a power of two.
-/
namespace GeometricSums

open Finset

/-- Horner's rule from a value that is there already. -/
def horner {R : Type*} [CommRing R] (x h : R) (cs : List R) : R :=
  cs.foldl (fun h c => x * h + c) h

theorem horner_cons {R : Type*} [CommRing R] (x h c : R) (cs : List R) :
    horner x h (c :: cs) = horner x (x * h + c) cs := rfl

/-- The polynomial with the values of `f` on a list as its coefficients. -/
theorem horner_map {α R : Type*} [CommRing R] (f : α → R) (x h : R) (l : List α) :
    horner x h (l.map f) =
      x ^ l.length * h + ∑ i : Fin l.length, x ^ (l.length - 1 - i) * f l[i] := by
  induction l generalizing h with
  | nil => simp [horner]
  | cons a l ih =>
    have hexp (i : Fin l.length) : l.length + 1 - 1 - (i.succ : ℕ) = l.length - 1 - i := by
      rw [Fin.val_succ]
      omega
    rw [List.map_cons, horner_cons, ih]
    simp only [List.length_cons, Fin.sum_univ_succ, hexp]
    simp only [Fin.getElem_fin, Fin.val_succ, List.getElem_cons_succ, Fin.val_zero,
      List.getElem_cons_zero, Nat.add_sub_cancel, Nat.sub_zero]
    ring

theorem horner_replicate {R : Type*} [CommRing R] (x h c : R) (n : ℕ) :
    horner x h (List.replicate n c) = x ^ n * h + (∑ i ∈ range n, x ^ i) * c := by
  induction n generalizing h with
  | zero => simp [horner]
  | succ n ih =>
    rw [List.replicate_succ, horner_cons, ih, sum_range_succ]
    ring

section OddBase

variable {x : ℤ}

theorem two_pow_dvd_geom_sum (hx : Odd x) (k : ℕ) : 2 ^ k ∣ ∑ i ∈ range (2 ^ k), x ^ i := by
  induction k with
  | zero => simp
  | succ k ih =>
    have hdouble : ∑ i ∈ range (2 ^ (k + 1)), x ^ i =
        (∑ i ∈ range (2 ^ k), x ^ i) * (1 + x ^ 2 ^ k) := by
      rw [pow_succ, mul_two, sum_range_add]
      simp only [pow_add, ← mul_sum]
      ring
    rw [hdouble, pow_succ]
    exact mul_dvd_mul ih (even_iff_two_dvd.1 (odd_one.add_odd hx.pow))

theorem two_pow_dvd_geom_sum_mul (hx : Odd x) (k q : ℕ) :
    2 ^ k ∣ ∑ i ∈ range (2 ^ k * q), x ^ i := by
  induction q with
  | zero => simp
  | succ q ih =>
    rw [mul_add_one, sum_range_add]
    simp only [pow_add _ (2 ^ k * q), ← mul_sum]
    exact dvd_add ih (dvd_mul_of_dvd_right (two_pow_dvd_geom_sum hx k) _)

/-- Only the number of powers modulo `2 ^ k` matters modulo `2 ^ k`. -/
theorem geom_sum_modEq (hx : Odd x) (k n : ℕ) :
    ∑ i ∈ range (n % 2 ^ k), x ^ i ≡ ∑ i ∈ range n, x ^ i [ZMOD 2 ^ k] := by
  have hsplit : ∑ i ∈ range n, x ^ i = ∑ i ∈ range (n % 2 ^ k), x ^ i +
      x ^ (n % 2 ^ k) * ∑ i ∈ range (2 ^ k * (n / 2 ^ k)), x ^ i := by
    conv_lhs => rw [← Nat.mod_add_div n (2 ^ k), sum_range_add]
    simp only [pow_add, ← mul_sum]
  rw [hsplit, Int.modEq_iff_dvd, add_sub_cancel_left]
  exact dvd_mul_of_dvd_right (two_pow_dvd_geom_sum_mul hx k _) _

end OddBase

end GeometricSums
