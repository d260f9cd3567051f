import SylarNet.GeometricSums
import SylarNet.SylarHttp

/-!
# The quick hash

One overload goes through a C string, the other counts bytes and does not go through them: it
reads the first byte in every round.
-/
namespace QuickHash

open GeometricSums
open SylarHttp (bytes)

/-- A `char`, as it is promoted. -/
def char (c : UInt8) : ℤ := if c.toNat < 128 then c.toNat else c.toNat - 256

/-- The loop over a string. It has a null byte at its end. -/
def quickHashLoop : List UInt8 → UInt32 → UInt32
  | [], h => h
  | c :: str, h => if c = 0 then h else quickHashLoop str (31 * h + UInt32.ofInt (char c))

def quickHash (str : List UInt8) : UInt32 := quickHashLoop str 0

/-- The rounds that are left of the loop over `i`. -/
def quickHashSizedLoop (str : List UInt8) : ℕ → UInt32 → UInt32
  | 0, h => h
  | n + 1, h => quickHashSizedLoop str n (31 * h + UInt32.ofInt (char (str.headD 0)))

def quickHashSized (tmp : List UInt8) (size : UInt32) : UInt32 :=
  quickHashSizedLoop tmp size.toNat 0

section Polynomial

abbrev CString := { s : List UInt8 // 0 ∉ s }

def polynomialHash (s : List UInt8) : UInt32 :=
  UInt32.ofInt (∑ i : Fin s.length, 31 ^ (s.length - 1 - i) * char s[i])

/-- Both overloads give the polynomial hash of a string, the one with the size that it has. -/
structure Agrees (s : CString) : Prop where
  cString : quickHash s.1 = polynomialHash s.1
  sized : quickHashSized s.1 (UInt32.ofNat s.1.length) = polynomialHash s.1

/-- The differences to the first byte cancel out. -/
def Cancels (s : List UInt8) : Prop :=
  2 ^ 32 ∣ ∑ i : Fin s.length, 31 ^ (s.length - 1 - i) * (char s[i] - char (s.headD 0))

end Polynomial

section Results

variable {s str : List UInt8}

theorem ofInt_eq_iff {a b : ℤ} : UInt32.ofInt a = UInt32.ofInt b ↔ 2 ^ 32 ∣ b - a := by
  have htoNat (x : ℤ) : (UInt32.ofInt x).toNat = (x % 2 ^ 32).toNat := by
    rw [UInt32.ofInt, UInt32.toNat_ofNat']
    omega
  rw [← UInt32.toNat_inj, htoNat, htoNat]
  omega

theorem quickHashLoop_eq (h : 0 ∉ str) (v : ℤ) :
    quickHashLoop str (UInt32.ofInt v) = UInt32.ofInt (horner 31 v (str.map char)) := by
  induction str generalizing v with
  | nil => rfl
  | cons c str ih =>
    rw [List.mem_cons, not_or] at h
    rw [quickHashLoop, if_neg (Ne.symm h.1), List.map_cons, horner_cons, ← ih h.2,
      UInt32.ofInt_add, UInt32.ofInt_mul]
    rfl

theorem quickHashSizedLoop_eq (str : List UInt8) (n : ℕ) (v : ℤ) :
    quickHashSizedLoop str n (UInt32.ofInt v) =
      UInt32.ofInt (horner 31 v (List.replicate n (char (str.headD 0)))) := by
  induction n generalizing v with
  | zero => rfl
  | succ n ih =>
    rw [quickHashSizedLoop, List.replicate_succ, horner_cons, ← ih, UInt32.ofInt_add,
      UInt32.ofInt_mul]
    rfl

theorem polynomialHash_eq (s : List UInt8) :
    polynomialHash s = UInt32.ofInt (horner 31 0 (s.map char)) := by
  rw [horner_map, mul_zero, zero_add, polynomialHash]

/-- The overload for C strings is right for all of them. -/
theorem quickHash_eq (s : CString) : quickHash s.1 = polynomialHash s.1 := by
  rw [polynomialHash_eq, ← quickHashLoop_eq s.2]
  rfl

/-- The other one sees as many first bytes as the string has bytes. -/
theorem quickHashSized_eq (s : List UInt8) : quickHashSized s (UInt32.ofNat s.length) =
    UInt32.ofInt ((∑ i ∈ Finset.range (s.length % 2 ^ 32), 31 ^ i) * char (s.headD 0)) := by
  have hloop := quickHashSizedLoop_eq s (s.length % 2 ^ 32) 0
  rw [horner_replicate, mul_zero, zero_add] at hloop
  rw [quickHashSized, UInt32.toNat_ofNat']
  exact hloop

theorem sum_differences (s : List UInt8) (c : ℤ) :
    ∑ i : Fin s.length, 31 ^ (s.length - 1 - i) * (char s[i] - c) =
      ∑ i : Fin s.length, 31 ^ (s.length - 1 - i) * char s[i] -
        (∑ i ∈ Finset.range s.length, 31 ^ i) * c := by
  have hconst := horner_map (fun _ : UInt8 => c) 31 0 s
  rw [List.map_const', horner_replicate, mul_zero, zero_add, zero_add] at hconst
  rw [hconst]
  simp only [mul_sub, Finset.sum_sub_distrib]

/-- They agree exactly on the strings whose differences to the first byte cancel out. -/
theorem quick_hash_agrees_iff (s : CString) : Agrees s ↔ Cancels s.1 := by
  have hodd : Odd (31 : ℤ) := by decide
  have hperiod := (geom_sum_modEq hodd 32 s.1.length).dvd
  have hmul := dvd_mul_of_dvd_left hperiod (char (s.1.headD 0))
  have hsized : quickHashSized s.1 (UInt32.ofNat s.1.length) = polynomialHash s.1 ↔
      Cancels s.1 := by
    rw [quickHashSized_eq, polynomialHash, ofInt_eq_iff, Cancels, sum_differences,
      ← dvd_sub_left hmul, sub_mul, sub_sub_sub_cancel_right]
  exact ⟨fun h => hsized.1 h.sized, fun h => ⟨quickHash_eq s, hsized.2 h⟩⟩

/-- Strings of one byte, however often, do not tell the overloads apart. -/
theorem cancels_of_forall {s : List UInt8} (h : ∀ c ∈ s, c = s.headD 0) : Cancels s := by
  have hzero (i : Fin s.length) : char s[i] - char (s.headD 0) = 0 := by
    rw [h s[i] (List.getElem_mem i.2), sub_self]
  simp only [Cancels, hzero, mul_zero, Finset.sum_const_zero, dvd_zero]

theorem two_letters_differ : ¬ ∀ s, Agrees s := by
  intro h
  exact absurd (h ⟨bytes "ab", by decide⟩).sized (by decide)

end Results

end QuickHash
