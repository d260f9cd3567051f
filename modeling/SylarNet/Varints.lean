import Mathlib.Algebra.Group.Int.Defs
import Mathlib.Algebra.Order.Group.Nat
import Mathlib.Data.Nat.Bitwise
import Mathlib.Tactic.Common

/-!
# Numbers in groups of seven bits

A number is a string of bytes with seven of its bits each, the lowest first, and every byte but
the last has its high bit set. A signed number is put among the unsigned ones before: they take
turns, so that what is near to zero stays short.
-/
namespace Varints

def encode (v : ℕ) : List UInt8 :=
  if v < 128 then [UInt8.ofNat v] else UInt8.ofNat (v % 128 + 128) :: encode (v / 128)

/-- A reader that gives up after so many bytes, and leaves the rest. -/
def decode : ℕ → List UInt8 → Option (ℕ × List UInt8)
  | 0, bytes => some (0, bytes)
  | _ + 1, [] => none
  | passes + 1, b :: bytes =>
    if b < 128 then some (b.toNat, bytes)
    else (decode passes bytes).map fun r => (b.toNat % 128 + 128 * r.1, r.2)

theorem encode_of_lt {v : ℕ} (h : v < 128) : encode v = [UInt8.ofNat v] := by
  rw [encode, if_pos h]

theorem encode_of_le {v : ℕ} (h : 128 ≤ v) :
    encode v = UInt8.ofNat (v % 128 + 128) :: encode (v / 128) := by
  rw [encode, if_neg (by omega)]

theorem encode_ne_nil (v : ℕ) : encode v ≠ [] := by
  rw [encode]
  split <;> exact List.cons_ne_nil _ _

theorem length_encode_pos (v : ℕ) : 1 ≤ (encode v).length :=
  List.length_pos_iff.2 (encode_ne_nil v)

/-- What is left behind the first group of a number that fits into one group more. -/
theorem div_fits {k v : ℕ} (h : v < 128 ^ (k + 1)) (hv : ¬ v < 128) :
    v / 128 < 128 ^ k ∧ 1 ≤ k := by
  constructor
  · apply Nat.div_lt_of_lt_mul
    rwa [pow_succ, Nat.mul_comm] at h
  · by_contra hzero
    obtain rfl : k = 0 := by omega
    omega

theorem length_encode_le {k v : ℕ} (hk : 1 ≤ k) (h : v < 128 ^ k) : (encode v).length ≤ k := by
  induction k generalizing v with
  | zero => omega
  | succ k ih =>
    by_cases hv : v < 128
    · rw [encode_of_lt hv]
      exact hk
    · obtain ⟨hdiv, hk'⟩ := div_fits h hv
      rw [encode_of_le (by omega), List.length_cons]
      exact Nat.succ_le_succ (ih hk' hdiv)

section Reading

variable {k v : ℕ} {bytes rest : List UInt8}

theorem toNat_last (h : v < 128) : (UInt8.ofNat v).toNat = v := by
  rw [UInt8.toNat_ofNat']
  omega

theorem toNat_group (v : ℕ) : (UInt8.ofNat (v % 128 + 128)).toNat = v % 128 + 128 := by
  rw [UInt8.toNat_ofNat']
  omega

theorem group_not_last (v : ℕ) : ¬ UInt8.ofNat (v % 128 + 128) < 128 := by
  rw [UInt8.lt_iff_toNat_lt, toNat_group]
  exact Nat.not_lt.2 (Nat.le_add_left 128 (v % 128))

theorem decode_last (k : ℕ) (h : v < 128) :
    decode (k + 1) (UInt8.ofNat v :: rest) = some (v, rest) := by
  have hlast : UInt8.ofNat v < 128 := by
    rw [UInt8.lt_iff_toNat_lt, toNat_last h]
    exact h
  rw [decode, if_pos hlast, toNat_last h]

theorem decode_group (k v : ℕ) (bytes : List UInt8) :
    decode (k + 1) (UInt8.ofNat (v % 128 + 128) :: bytes) =
      (decode k bytes).map fun r => (v % 128 + 128 * r.1, r.2) := by
  have hmod : (v % 128 + 128) % 128 = v % 128 := by omega
  rw [decode, if_neg (group_not_last v), toNat_group, hmod]

/-- A number that fits is read back, and nothing behind it is. -/
theorem decode_encode (h : v < 128 ^ k) (hk : 1 ≤ k) (rest : List UInt8) :
    decode k (encode v ++ rest) = some (v, rest) := by
  induction k generalizing v with
  | zero => omega
  | succ k ih =>
    by_cases hv : v < 128
    · rw [encode_of_lt hv]
      exact decode_last k hv
    · obtain ⟨hdiv, hk'⟩ := div_fits h hv
      rw [encode_of_le (by omega), List.cons_append, decode_group, ih hdiv hk', Option.map_some,
        Nat.mod_add_div]

/-- Of a longer number the reader has the low bits, and stops within it. -/
theorem decode_encode_long (h : 128 ^ k ≤ v) (rest : List UInt8) :
    ∃ left, left ≠ [] ∧ decode k (encode v ++ rest) = some (v % 128 ^ k, left ++ rest) := by
  induction k generalizing v with
  | zero => exact ⟨encode v, encode_ne_nil v, by rw [decode, pow_zero, Nat.mod_one]⟩
  | succ k ih =>
    have hdiv : 128 ^ k ≤ v / 128 := by
      rw [Nat.le_div_iff_mul_le (by decide), ← pow_succ]
      exact h
    have hbig : 128 ≤ v := by
      have hone : 1 ≤ v / 128 := le_trans (Nat.one_le_pow k 128 (by decide)) hdiv
      omega
    obtain ⟨left, hleft, hdecode⟩ := ih hdiv
    refine ⟨left, hleft, ?_⟩
    rw [encode_of_le hbig, List.cons_append, decode_group, hdecode, Option.map_some,
      Nat.pow_succ', Nat.mod_mul]

theorem decode_shortens (h : decode (k + 1) bytes = some (v, rest)) :
    rest.length < bytes.length := by
  induction k generalizing v bytes with
  | zero =>
    cases bytes with
    | nil => cases h
    | cons b bytes =>
      rw [decode] at h
      split at h <;> cases h <;> exact Nat.lt_succ_self _
  | succ k ih =>
    cases bytes with
    | nil => cases h
    | cons b bytes =>
      rw [decode] at h
      split at h
      · cases h
        exact Nat.lt_succ_self _
      · obtain ⟨⟨n, left⟩, hdecode, heq⟩ := Option.map_eq_some_iff.1 h
        cases heq
        exact Nat.lt_succ_of_lt (ih hdecode)

/-- What is read from some bytes is less than they could hold. -/
theorem decode_lt (h : decode k bytes = some (v, rest)) :
    ∃ code, bytes = code ++ rest ∧ v < 128 ^ code.length := by
  induction k generalizing v bytes with
  | zero =>
    cases h
    exact ⟨[], rfl, by decide⟩
  | succ k ih =>
    cases bytes with
    | nil => cases h
    | cons b bytes =>
      rw [decode] at h
      split at h
      · rename_i hb
        cases h
        exact ⟨[b], rfl, UInt8.lt_iff_toNat_lt.1 hb⟩
      · obtain ⟨⟨n, left⟩, hdecode, heq⟩ := Option.map_eq_some_iff.1 h
        cases heq
        obtain ⟨code, rfl, hlt⟩ := ih hdecode
        refine ⟨b :: code, rfl, ?_⟩
        rw [List.length_cons, pow_succ]
        have hmod := Nat.mod_lt b.toNat (show 0 < 128 by decide)
        omega

/-- No other bytes that are read as the number, or as a greater one, are fewer. -/
theorem length_encode_le_of_decode (h : decode (k + 1) bytes = some (v, rest)) {n : ℕ}
    (hn : n ≤ v) : (encode n).length ≤ bytes.length - rest.length := by
  have hshort := decode_shortens h
  obtain ⟨code, rfl, hlt⟩ := decode_lt h
  rw [List.length_append] at hshort ⊢
  rw [Nat.add_sub_cancel]
  exact length_encode_le (by omega) (lt_of_le_of_lt hn hlt)

end Reading

section ZigZag

variable {w : ℕ}

/-- What is not negative is doubled; the others take the places between. -/
def zigzag (v : BitVec w) : BitVec w := if v.msb then ((-v) <<< 1) - 1#w else v <<< 1

def unzigzag (v : BitVec w) : BitVec w := (v >>> 1) ^^^ -(v &&& 1#w)

theorem pos_of_msb {v : BitVec w} (h : v.msb = true) : 0 < w := by
  rcases Nat.eq_zero_or_pos w with rfl | hw
  · rw [BitVec.eq_nil v] at h
    cases h
  · exact hw

theorem toNat_zigzag (v : BitVec w) : (zigzag v).toNat =
    if v.msb then 2 * (2 ^ w - v.toNat) - 1 else 2 * v.toNat := by
  have hlt := v.isLt
  cases hmsb : v.msb with
  | false =>
    have htwo := BitVec.msb_eq_false_iff_two_mul_lt.1 hmsb
    rw [zigzag, hmsb, if_neg Bool.false_ne_true, if_neg Bool.false_ne_true, BitVec.toNat_shiftLeft,
      Nat.shiftLeft_eq, pow_one, Nat.mod_eq_of_lt (by omega), Nat.mul_comm]
  | true =>
    have htwo := BitVec.msb_eq_true_iff_two_mul_ge.1 hmsb
    have hneg : (-v).toNat = 2 ^ w - v.toNat := by
      rw [BitVec.toNat_neg, Nat.mod_eq_of_lt (by omega)]
    have hone : (1#w).toNat = 1 := BitVec.toNat_one (pos_of_msb hmsb)
    rw [zigzag, hmsb, if_pos rfl, if_pos rfl, BitVec.toNat_sub, BitVec.toNat_shiftLeft, hneg,
      Nat.shiftLeft_eq, pow_one, hone, Nat.mul_comm]
    by_cases hmin : 2 * (2 ^ w - v.toNat) = 2 ^ w
    · rw [hmin, Nat.mod_self, Nat.add_zero, Nat.mod_eq_of_lt (by omega)]
    · have hsum : 2 ^ w - 1 + 2 * (2 ^ w - v.toNat) = 2 * (2 ^ w - v.toNat) - 1 + 2 ^ w := by omega
      rw [Nat.mod_eq_of_lt (by omega : 2 * (2 ^ w - v.toNat) < 2 ^ w), hsum, Nat.add_mod_right,
        Nat.mod_eq_of_lt (by omega)]

/-- The number as a signed one. -/
theorem zigzag_spec (v : BitVec w) : ((zigzag v).toNat : ℤ) =
    if v.toInt < 0 then -2 * v.toInt - 1 else 2 * v.toInt := by
  have hlt := v.isLt
  have hpow : ((2 ^ w : ℕ) : ℤ) = 2 ^ w := by norm_cast
  rw [toNat_zigzag, BitVec.toInt_eq_msb_cond]
  cases v.msb with
  | false =>
    simp only [Bool.false_eq_true, if_false]
    rw [if_neg (by omega)]
    omega
  | true =>
    simp only [if_true]
    rw [if_pos (by omega)]
    omega

theorem toNat_unzigzag (hw : 0 < w) (v : BitVec w) : (unzigzag v).toNat =
    if v.toNat % 2 = 0 then v.toNat / 2 else 2 ^ w - 1 - v.toNat / 2 := by
  have hlow : (v &&& 1#w).toNat = v.toNat % 2 := by
    rw [BitVec.toNat_and, BitVec.toNat_one hw, Nat.and_one_is_mod]
  have hhalf : (v >>> 1).toNat = v.toNat / 2 := by
    rw [BitVec.toNat_ushiftRight, Nat.shiftRight_eq_div_pow, pow_one]
  split
  · rename_i heven
    have hzero : v &&& 1#w = 0#w := by
      apply BitVec.eq_of_toNat_eq
      rw [hlow, heven, BitVec.toNat_zero]
    rw [unzigzag, hzero, BitVec.neg_zero, BitVec.xor_zero, hhalf]
  · rename_i hodd
    have hone : v &&& 1#w = 1#w := by
      apply BitVec.eq_of_toNat_eq
      rw [hlow, BitVec.toNat_one hw]
      omega
    rw [unzigzag, hone, BitVec.neg_one_eq_allOnes, BitVec.xor_allOnes, BitVec.toNat_not, hhalf]

theorem unzigzag_zigzag (hw : 0 < w) (v : BitVec w) : unzigzag (zigzag v) = v := by
  have hlt := v.isLt
  apply BitVec.eq_of_toNat_eq
  rw [toNat_unzigzag hw, toNat_zigzag]
  cases hmsb : v.msb with
  | false =>
    rw [if_neg Bool.false_ne_true, if_pos (Nat.mul_mod_right 2 _)]
    exact Nat.mul_div_cancel_left _ (by decide)
  | true =>
    have htwo := BitVec.msb_eq_true_iff_two_mul_ge.1 hmsb
    rw [if_pos rfl, if_neg (by omega)]
    omega

theorem zigzag_unzigzag (hw : 0 < w) (v : BitVec w) : zigzag (unzigzag v) = v := by
  obtain ⟨k, rfl⟩ : ∃ k, w = k + 1 := ⟨w - 1, (Nat.sub_add_cancel hw).symm⟩
  have hlt := v.isLt
  have hpow : 2 ^ (k + 1) = 2 * 2 ^ k := Nat.pow_succ'
  have hval := toNat_unzigzag hw v
  apply BitVec.eq_of_toNat_eq
  rw [toNat_zigzag]
  split at hval
  · have hmsb : (unzigzag v).msb = false := BitVec.msb_eq_false_iff_two_mul_lt.2 (by omega)
    rw [hmsb, if_neg Bool.false_ne_true]
    omega
  · have hmsb : (unzigzag v).msb = true := BitVec.msb_eq_true_iff_two_mul_ge.2 (by omega)
    rw [hmsb, if_pos rfl]
    omega

end ZigZag

end Varints
