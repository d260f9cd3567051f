import Mathlib.Data.Nat.Digits.Lemmas

/-!
# Hexadecimal numbers as bytes

The text of a natural number in lower case without leading zeros, and the number of a text in
either case.
-/
namespace HexText

def digit (d : ℕ) : UInt8 := UInt8.ofNat (if d < 10 then 48 + d else 87 + d)

def digitValue (c : UInt8) : ℕ :=
  if c ≤ 57 then c.toNat - 48 else if c ≤ 70 then c.toNat - 55 else c.toNat - 87

/-- The number that digits stand for, most significant first. -/
def value (text : List UInt8) : ℕ := text.foldl (fun v c => 16 * v + digitValue c) 0

def hex (n : ℕ) : List UInt8 := if n = 0 then [48] else (Nat.digits 16 n).reverse.map digit

theorem digitValue_digit {d : ℕ} (hd : d < 16) : digitValue (digit d) = d := by
  interval_cases d <;> rfl

theorem hex_ne_nil (n : ℕ) : hex n ≠ [] := by
  unfold hex
  split_ifs with hn
  · exact List.cons_ne_nil _ _
  · rw [Ne, List.map_eq_nil_iff, List.reverse_eq_nil_iff]
    exact Nat.digits_ne_nil_iff_ne_zero.2 hn

theorem exists_digit_of_mem {n : ℕ} {c : UInt8} (h : c ∈ hex n) : ∃ d < 16, c = digit d := by
  unfold hex at h
  split_ifs at h with hn
  · exact ⟨0, by decide, List.mem_singleton.1 h⟩
  · obtain ⟨d, hd, rfl⟩ := List.mem_map.1 h
    exact ⟨d, Nat.digits_lt_base (by decide) (List.mem_reverse.1 hd), rfl⟩

theorem length_hex_le {n k : ℕ} (hk : 0 < k) (h : n < 16 ^ k) : (hex n).length ≤ k := by
  unfold hex
  split_ifs with hn
  · exact hk
  · rw [List.length_map, List.length_reverse]
    exact (Nat.digits_length_le_iff (by decide) n).2 h

theorem value_digits (ds : List ℕ) (h : ∀ d ∈ ds, d < 16) :
    value (ds.reverse.map digit) = Nat.ofDigits 16 ds := by
  induction ds with
  | nil => rfl
  | cons d ds ih =>
    rw [List.forall_mem_cons] at h
    rw [List.reverse_cons, List.map_append, value, List.foldl_append, Nat.ofDigits_cons,
      ← ih h.2, value, List.map_singleton, List.foldl_cons, List.foldl_nil, digitValue_digit h.1]
    omega

/-- Reading the text of a number gives the number. -/
theorem value_hex (n : ℕ) : value (hex n) = n := by
  unfold hex
  split_ifs with hn
  · rw [hn]
    rfl
  · rw [value_digits, Nat.ofDigits_digits]
    intro d hd
    exact Nat.digits_lt_base (by decide) hd

end HexText
