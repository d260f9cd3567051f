import Mathlib.Data.Nat.Digits.Lemmas

/-!
# Decimal numbers as bytes

The text of a natural number and the number of a text, with what a reader of either needs.
-/
namespace DecimalText

def isDigit (c : UInt8) : Bool := 48 ≤ c && c ≤ 57

def digit (d : ℕ) : UInt8 := UInt8.ofNat (48 + d)

/-- The number that digits stand for, most significant first. -/
def value (text : List UInt8) : ℕ := text.foldl (fun v c => 10 * v + (c.toNat - 48)) 0

def decimal (n : ℕ) : List UInt8 :=
  if n = 0 then [48] else (Nat.digits 10 n).reverse.map digit

/-- A sign only where the number is negative. -/
def ofInt (i : ℤ) : List UInt8 := if i < 0 then 45 :: decimal i.natAbs else decimal i.natAbs

theorem digit_toNat {d : ℕ} (hd : d < 10) : (digit d).toNat = 48 + d := by
  rw [digit, UInt8.toNat_ofNat']
  omega

theorem isDigit_iff (c : UInt8) : isDigit c = true ↔ 48 ≤ c.toNat ∧ c.toNat ≤ 57 := by
  rw [isDigit, Bool.and_eq_true, decide_eq_true_eq, decide_eq_true_eq, UInt8.le_iff_toNat_le,
    UInt8.le_iff_toNat_le]
  rfl

theorem isDigit_digit {d : ℕ} (hd : d < 10) : isDigit (digit d) = true := by
  rw [isDigit_iff, digit_toNat hd]
  omega

theorem decimal_of_ne_zero {n : ℕ} (hn : n ≠ 0) :
    decimal n = (Nat.digits 10 n).reverse.map digit := if_neg hn

theorem decimal_ne_nil (n : ℕ) : decimal n ≠ [] := by
  by_cases hn : n = 0
  · rw [hn]
    exact List.cons_ne_nil _ _
  · rw [decimal_of_ne_zero hn, Ne, List.map_eq_nil_iff, List.reverse_eq_nil_iff]
    exact Nat.digits_ne_nil_iff_ne_zero.2 hn

theorem isDigit_of_mem_decimal {n : ℕ} {c : UInt8} (h : c ∈ decimal n) : isDigit c = true := by
  by_cases hn : n = 0
  · rw [hn] at h
    rw [List.mem_singleton.1 h]
    rfl
  · rw [decimal_of_ne_zero hn] at h
    obtain ⟨d, hd, rfl⟩ := List.mem_map.1 h
    exact isDigit_digit (Nat.digits_lt_base (by decide) (List.mem_reverse.1 hd))

/-- Only the text of zero begins with a zero. -/
theorem head_decimal {n : ℕ} (hn : n ≠ 0) :
    ∃ c rest, decimal n = c :: rest ∧ c ≠ 48 := by
  have hdigits : Nat.digits 10 n ≠ [] := Nat.digits_ne_nil_iff_ne_zero.2 hn
  rw [decimal_of_ne_zero hn, ← List.dropLast_concat_getLast hdigits, List.reverse_append,
    List.reverse_singleton, List.singleton_append, List.map_cons]
  refine ⟨_, _, rfl, ?_⟩
  have hlast := Nat.getLast_digit_ne_zero 10 hn
  have hlt : (Nat.digits 10 n).getLast hdigits < 10 :=
    Nat.digits_lt_base (by decide) (List.getLast_mem hdigits)
  intro heq
  have hnat := digit_toNat hlt
  rw [heq] at hnat
  change 48 = _ at hnat
  omega

theorem value_digits (ds : List ℕ) (h : ∀ d ∈ ds, d < 10) :
    value (ds.reverse.map digit) = Nat.ofDigits 10 ds := by
  induction ds with
  | nil => rfl
  | cons d ds ih =>
    rw [List.forall_mem_cons] at h
    rw [List.reverse_cons, List.map_append, value, List.foldl_append, Nat.ofDigits_cons,
      ← ih h.2, value, List.map_singleton, List.foldl_cons, List.foldl_nil, digit_toNat h.1]
    omega

/-- Reading the text of a number gives the number. -/
theorem value_decimal (n : ℕ) : value (decimal n) = n := by
  by_cases hn : n = 0
  · rw [hn]
    rfl
  · rw [decimal_of_ne_zero hn, value_digits, Nat.ofDigits_digits]
    intro d hd
    exact Nat.digits_lt_base (by decide) hd

end DecimalText
