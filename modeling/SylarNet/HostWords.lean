import Mathlib.Algebra.Order.Group.Nat
import Mathlib.Tactic.Common

/-! Machine words in memory: a word of `width` bytes under either byte order of the host, and
the swap that turns one order into the other. -/
namespace HostWords

inductive ByteOrder where
  | little
  | big
  deriving DecidableEq, Repr

/-- Least significant byte first. -/
def toLittle : ℕ → ℕ → List UInt8
  | 0, _ => []
  | width + 1, v => UInt8.ofNat v :: toLittle width (v / 256)

def ofLittle : List UInt8 → ℕ
  | [] => 0
  | b :: bs => b.toNat + 256 * ofLittle bs

def toBig (width v : ℕ) : List UInt8 := (toLittle width v).reverse

/-- The bytes of a variable of the host. -/
def store : ByteOrder → ℕ → ℕ → List UInt8
  | .little, width, v => toLittle width v
  | .big, width, v => toBig width v

/-- The variable of the host that has these bytes. -/
def load : ByteOrder → List UInt8 → ℕ
  | .little, bs => ofLittle bs
  | .big, bs => ofLittle bs.reverse

def byteswap (width v : ℕ) : ℕ := ofLittle (toBig width v)

@[simp] theorem length_toLittle (width v : ℕ) : (toLittle width v).length = width := by
  induction width generalizing v with
  | zero => rfl
  | succ width ih => simp [toLittle, ih]

@[simp] theorem length_toBig (width v : ℕ) : (toBig width v).length = width := by
  simp [toBig]

@[simp] theorem length_store (order : ByteOrder) (width v : ℕ) :
    (store order width v).length = width := by
  cases order <;> simp [store]

theorem ofLittle_toLittle {width v : ℕ} (h : v < 256 ^ width) :
    ofLittle (toLittle width v) = v := by
  induction width generalizing v with
  | zero =>
    simp only [pow_zero, Nat.lt_one_iff] at h
    simp [toLittle, ofLittle, h]
  | succ width ih =>
    have hdiv : v / 256 < 256 ^ width := by
      apply Nat.div_lt_of_lt_mul
      rwa [pow_succ, Nat.mul_comm] at h
    have hbyte : (UInt8.ofNat v).toNat = v % 256 := UInt8.toNat_ofNat
    simp only [toLittle, ofLittle, ih hdiv, hbyte]
    omega

theorem toLittle_ofLittle (bs : List UInt8) : toLittle bs.length (ofLittle bs) = bs := by
  induction bs with
  | nil => rfl
  | cons b bs ih =>
    have hb : b.toNat < 256 := b.toNat_lt
    have hhead : UInt8.ofNat (b.toNat + 256 * ofLittle bs) = b := by
      apply UInt8.toNat_inj.1
      rw [UInt8.toNat_ofNat']
      omega
    have htail : (b.toNat + 256 * ofLittle bs) / 256 = ofLittle bs := by omega
    simp only [List.length_cons, toLittle, ofLittle, hhead, htail, ih]

theorem toLittle_byteswap (width v : ℕ) : toLittle width (byteswap width v) = toBig width v := by
  have h := toLittle_ofLittle (toBig width v)
  rwa [length_toBig] at h

theorem byteswap_ofLittle (bs : List UInt8) :
    byteswap bs.length (ofLittle bs) = ofLittle bs.reverse := by
  simp only [byteswap, toBig, toLittle_ofLittle]

theorem ofLittle_reverse_toBig {width v : ℕ} (h : v < 256 ^ width) :
    ofLittle (toBig width v).reverse = v := by
  simp only [toBig, List.reverse_reverse, ofLittle_toLittle h]

theorem ofLittle_lt (bs : List UInt8) : ofLittle bs < 256 ^ bs.length := by
  induction bs with
  | nil => simp [ofLittle]
  | cons b bs ih =>
    have hb : b.toNat < 256 := b.toNat_lt
    rw [ofLittle, List.length_cons, pow_succ]
    omega

theorem load_lt (order : ByteOrder) (bs : List UInt8) : load order bs < 256 ^ bs.length := by
  cases order with
  | little => exact ofLittle_lt bs
  | big => simpa [load] using ofLittle_lt bs.reverse

theorem load_store (order : ByteOrder) {width v : ℕ} (h : v < 256 ^ width) :
    load order (store order width v) = v := by
  cases order with
  | little => exact ofLittle_toLittle h
  | big => exact ofLittle_reverse_toBig h

/-- The bits of the bytes are those of the number. -/
theorem testBit_getD_toLittle {width j k : ℕ} (hj : j < width) (hk : k < 8) (v : ℕ) :
    ((toLittle width v).getD j 0).toNat.testBit k = v.testBit (8 * j + k) := by
  induction width generalizing v j with
  | zero => omega
  | succ width ih =>
    cases j with
    | zero =>
      have hbyte : (UInt8.ofNat v).toNat = v % 2 ^ 8 := UInt8.toNat_ofNat
      rw [toLittle, List.getD_cons_zero, hbyte, Nat.testBit_mod_two_pow]
      simp [hk]
    | succ j =>
      have hplace : 8 * (j + 1) + k = 8 * j + k + 8 := by omega
      have hdiv : v / 256 = v / 2 ^ 8 := rfl
      rw [toLittle, List.getD_cons_succ, ih (by omega), hplace, hdiv, Nat.testBit_div_two_pow]

theorem getD_toBig {width j : ℕ} (hj : j < width) (v : ℕ) :
    (toBig width v).getD j 0 = (toLittle width v).getD (width - 1 - j) 0 := by
  have hlt : j < (toLittle width v).length := by simpa using hj
  rw [toBig, List.getD_eq_getElem?_getD, List.getElem?_reverse hlt, length_toLittle,
    List.getD_eq_getElem?_getD]

end HostWords
