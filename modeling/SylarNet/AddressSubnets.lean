import SylarNet.SylarAddress
import Mathlib.Data.Nat.Bitwise

/-!
# Subnets

Broadcast address, network address and subnet mask of a prefix. The two classes share
`CreateMask<uint32_t>`, which has the width of an IPv4 address; the functions of `IPv6Address`
put a mask of its low bits into one byte.
-/
namespace AddressSubnets

open HostWords SylarEndian SylarAddress

namespace IPv4Address

variable (order : ByteOrder)

def broadcastAddress (a : SockaddrIn) (prefixLen : UInt32) : Except Fault (Option SockaddrIn) :=
  if 32 < prefixLen then .ok none
  else do
    let mask ← createMask prefixLen
    .ok (some { a with addr := a.addr ||| networkLong order mask })

def networkAddress (a : SockaddrIn) (prefixLen : UInt32) : Except Fault (Option SockaddrIn) :=
  if 32 < prefixLen then .ok none
  else do
    let mask ← createMask prefixLen
    .ok (some { a with addr := a.addr &&& ~~~networkLong order mask })

/-- The length is not tested. -/
def subnetMask (prefixLen : UInt32) : Except Fault (Option SockaddrIn) := do
  let mask ← createMask prefixLen
  .ok (some ⟨AF_INET, 0, ~~~networkLong order mask, .zero 8⟩)

end IPv4Address

namespace IPv6Address

def broadcastAddress (a : SockaddrIn6) (prefixLen : UInt32) : Except Fault SockaddrIn6 := do
  let mask ← createMask (prefixLen % 8)
  let addr ← a.addr.modify (prefixLen / 8).toNat (· ||| mask.toUInt8)
  .ok { a with addr := addr.assign (fun i => (prefixLen / 8).toNat + 1 ≤ i) 0xff }

def networkAddress (a : SockaddrIn6) (prefixLen : UInt32) : Except Fault SockaddrIn6 := do
  let mask ← createMask (prefixLen % 8)
  let addr ← a.addr.modify (prefixLen / 8).toNat (· &&& (~~~mask).toUInt8)
  .ok { a with addr := addr }

def subnetMask (prefixLen : UInt32) : Except Fault SockaddrIn6 := do
  let mask ← createMask (prefixLen % 8)
  let addr ← (Bytes.zero 16).modify (prefixLen / 8).toNat fun _ => (~~~mask).toUInt8
  .ok ⟨AF_INET6, 0, 0, addr.assign (· < (prefixLen / 8).toNat) 0xff, 0⟩

end IPv6Address

/-- The bits of the bytes one behind the other, each byte from its highest bit on. -/
def bitAt (bytes : List UInt8) (i : ℕ) : Bool := (bytes.getD (i / 8) 0).toNat.testBit (7 - i % 8)

/-- The first `p` bits are kept and the others are clear. -/
def Cleared (a : List UInt8) (p : ℕ) (b : List UInt8) : Prop :=
  ∀ i < 8 * a.length, bitAt b i = (bitAt a i && decide (i < p))

/-- The first `p` bits are kept and the others are set. -/
def Filled (a : List UInt8) (p : ℕ) (b : List UInt8) : Prop :=
  ∀ i < 8 * a.length, bitAt b i = (bitAt a i || decide (p ≤ i))

/-- Of so many bytes the first `p` bits are set and the others are clear. -/
def Leading (width p : ℕ) (b : List UInt8) : Prop := ∀ i < 8 * width, bitAt b i = decide (i < p)

section Masks

theorem createMask_shift {p : UInt32} (h : p.toNat = 0 ∨ 32 < p.toNat) :
    createMask p = .error .shift := by
  have hlt := p.toNat_lt
  have hshift : (32 : UInt64) ≤ 32 - p.toUInt64 := by
    rw [UInt64.le_iff_toNat_le, UInt64.toNat_sub]
    simp
    omega
  rw [createMask, if_pos hshift]

theorem toNat_shift {p : UInt32} (h : p.toNat ≤ 32) : (32 - p.toUInt64).toNat = 32 - p.toNat := by
  rw [UInt64.toNat_sub]
  simp
  omega

theorem createMask_one {p : UInt32} (h : p.toNat = 1) : createMask p = .error .signedOverflow := by
  have hp : p = 1 := by
    apply UInt32.toNat_inj.1
    exact h
  subst hp
  rfl

theorem createMask_ok {p : UInt32} (h : 2 ≤ p.toNat) (hle : p.toNat ≤ 32) :
    createMask p = .ok (UInt32.ofNat (2 ^ (32 - p.toNat) - 1)) := by
  have hshift := toNat_shift hle
  have hsmall : ¬ (32 : UInt64) ≤ 32 - p.toUInt64 := by
    rw [UInt64.le_iff_toNat_le, hshift]
    simp
    omega
  have hne : ¬ 32 - p.toUInt64 = 31 := by
    intro heq
    rw [heq] at hshift
    simp at hshift
    omega
  rw [createMask, if_neg hsmall, if_neg hne, hshift]

theorem createMask_fault {p : UInt32} (h : ¬ (2 ≤ p.toNat ∧ p.toNat ≤ 32)) :
    ∃ fault, createMask p = .error fault := by
  by_cases hone : p.toNat = 1
  · exact ⟨_, createMask_one hone⟩
  · exact ⟨_, createMask_shift (by omega)⟩

theorem testBit_mask {n : ℕ} (h : n ≤ 32) (i : ℕ) :
    (UInt32.ofNat (2 ^ n - 1)).toNat.testBit i = decide (i < n) := by
  have hlt : 2 ^ n - 1 < 2 ^ 32 := by
    have := Nat.pow_le_pow_right (show 0 < 2 by omega) h
    have := Nat.two_pow_pos n
    omega
  rw [UInt32.toNat_ofNat', Nat.mod_eq_of_lt hlt, Nat.testBit_two_pow_sub_one]

end Masks

section Long

variable {order : ByteOrder} {a p : UInt32} {i : ℕ}

/-- Where a bit of the stored word is in the number. -/
def place : ByteOrder → ℕ → ℕ
  | .little, i => 8 * (i / 8) + (7 - i % 8)
  | .big, i => 31 - i

theorem place_lt (order : ByteOrder) (h : i < 32) : place order i < 32 := by
  cases order <;> simp only [place] <;> omega

theorem bitAt_store (order : ByteOrder) (h : i < 32) (v : ℕ) :
    bitAt (store order 4 v) i = v.testBit (place order i) := by
  have hbyte : i / 8 < 4 := by omega
  cases order with
  | little => exact testBit_getD_toLittle hbyte (by omega) v
  | big =>
    have hplace : 8 * (4 - 1 - i / 8) + (7 - i % 8) = 31 - i := by omega
    rw [bitAt, store, getD_toBig hbyte, testBit_getD_toLittle (by omega) (by omega), hplace]
    rfl

/-- The mask of the low bits has the last bits of the network. -/
theorem bitAt_networkLong {n : ℕ} (hn : n ≤ 32) (h : i < 32) :
    bitAt (store order 4 (networkLong order (UInt32.ofNat (2 ^ n - 1))).toNat) i =
      decide (32 - n ≤ i) := by
  rw [toNat_networkLong, store_byteswapOnLittleEndian, show toBig 4 _ = store .big 4 _ from rfl,
    bitAt_store .big h, testBit_mask hn, place, decide_eq_decide]
  omega

theorem bitAt_or (h : i < 32) (b : UInt32) : bitAt (store order 4 (a ||| b).toNat) i =
    (bitAt (store order 4 a.toNat) i || bitAt (store order 4 b.toNat) i) := by
  simp only [bitAt_store order h, UInt32.toNat_or, Nat.testBit_or]

theorem bitAt_and (h : i < 32) (b : UInt32) : bitAt (store order 4 (a &&& b).toNat) i =
    (bitAt (store order 4 a.toNat) i && bitAt (store order 4 b.toNat) i) := by
  simp only [bitAt_store order h, UInt32.toNat_and, Nat.testBit_and]

theorem bitAt_not (h : i < 32) :
    bitAt (store order 4 (~~~a).toNat) i = !bitAt (store order 4 a.toNat) i := by
  rw [bitAt_store order h, bitAt_store order h]
  change (~~~a.toBitVec).getLsbD (place order i) = !a.toBitVec.getLsbD (place order i)
  simp [place_lt order h]

end Long

/-- What the three functions of an IPv4 address are for. -/
structure IPv4Subnet (order : ByteOrder) (a : SockaddrIn) (p : UInt32) : Prop where
  inside : p ≤ 32 → ∃ network broadcast mask : SockaddrIn,
    IPv4Address.networkAddress order a p = .ok (some network) ∧
    IPv4Address.broadcastAddress order a p = .ok (some broadcast) ∧
    IPv4Address.subnetMask order p = .ok (some mask) ∧
    network = { a with addr := network.addr } ∧ broadcast = { a with addr := broadcast.addr } ∧
    Cleared (store order 4 a.addr.toNat) p.toNat (store order 4 network.addr.toNat) ∧
    Filled (store order 4 a.addr.toNat) p.toNat (store order 4 broadcast.addr.toNat) ∧
    Leading 4 p.toNat (store order 4 mask.addr.toNat)
  outside : 32 < p → IPv4Address.networkAddress order a p = .ok none ∧
    IPv4Address.broadcastAddress order a p = .ok none ∧
    IPv4Address.subnetMask order p = .ok none

theorem ipv4Subnet_of_le (order : ByteOrder) (a : SockaddrIn) {p : UInt32} (htwo : 2 ≤ p.toNat)
    (hle : p.toNat ≤ 32) : IPv4Subnet order a p := by
  have hshort : ¬ 32 < p := by
    rw [UInt32.lt_iff_toNat_lt]
    exact Nat.not_lt.2 hle
  have hok := createMask_ok htwo hle
  have hwidth : 32 - p.toNat ≤ 32 := Nat.sub_le _ _
  have hlast : 32 - (32 - p.toNat) = p.toNat := Nat.sub_sub_self hle
  have hnot : ∀ i, (!decide (p.toNat ≤ i)) = decide (i < p.toNat) := by
    intro i
    rw [← decide_not, decide_eq_decide]
    omega
  let mask := networkLong order (UInt32.ofNat (2 ^ (32 - p.toNat) - 1))
  refine ⟨fun _ => ⟨{ a with addr := a.addr &&& ~~~mask }, { a with addr := a.addr ||| mask },
    ⟨AF_INET, 0, ~~~mask, .zero 8⟩, ?_, ?_, ?_, rfl, rfl, ?_, ?_, ?_⟩,
    fun hlt => absurd hlt hshort⟩
  · rw [IPv4Address.networkAddress, if_neg hshort, hok]
    rfl
  · rw [IPv4Address.broadcastAddress, if_neg hshort, hok]
    rfl
  · rw [IPv4Address.subnetMask, hok]
    rfl
  · intro i hi
    rw [length_store] at hi
    rw [bitAt_and hi, bitAt_not hi, bitAt_networkLong hwidth hi, hlast, hnot]
  · intro i hi
    rw [length_store] at hi
    rw [bitAt_or hi, bitAt_networkLong hwidth hi, hlast]
  · intro i hi
    rw [bitAt_not hi, bitAt_networkLong hwidth hi, hlast, hnot]

/-- They are right for the prefixes of at least two bits that an address has. -/
theorem ipv4_subnet_iff (order : ByteOrder) (a : SockaddrIn) (p : UInt32) :
    IPv4Subnet order a p ↔ 2 ≤ p ∧ p ≤ 32 := by
  simp only [UInt32.le_iff_toNat_le]
  constructor
  · intro h
    by_contra hp
    obtain ⟨fault, hfault⟩ := createMask_fault hp
    by_cases hlong : 32 < p
    · obtain ⟨-, -, hmask⟩ := h.outside hlong
      rw [IPv4Address.subnetMask, hfault] at hmask
      cases hmask
    · obtain ⟨network, -, -, hnetwork, -⟩ := h.inside (by simpa using hlong)
      rw [IPv4Address.networkAddress, if_neg hlong, hfault] at hnetwork
      cases hnetwork
  · rintro ⟨htwo, hle⟩
    exact ipv4Subnet_of_le order a htwo hle

/-- A prefix that is too long. -/
theorem unguarded_subnetMask : ¬ ∀ order a p, IPv4Subnet order a p := by
  intro h
  obtain ⟨-, -, hmask⟩ := (h .little ⟨AF_INET, 0, 0, .zero 8⟩ 33).outside (by decide)
  cases hmask

section Bytes

variable {n i j : ℕ} {b c : Bytes n} {f : UInt8 → UInt8} {visited : ℕ → Bool} {v : UInt8}

theorem getD_modify (h : b.modify i f = .ok c) (j : ℕ) :
    c.1.getD j 0 = if j = i then f (b.1.getD j 0) else b.1.getD j 0 := by
  unfold Bytes.modify at h
  split_ifs at h with hi
  cases h
  simp only [List.getD_eq_getElem?_getD, List.getElem?_modify]
  split_ifs with hij hji hji
  · have hj : j < b.1.length := by
      rw [b.2]
      omega
    simp [hj]
  · exact absurd hij.symm hji
  · exact absurd hji.symm hij
  · simp

theorem getD_assign (hj : j < n) :
    (b.assign visited v).1.getD j 0 = if visited j then v else b.1.getD j 0 := by
  have hb : j < b.1.length := by rwa [b.2]
  simp [Bytes.assign, hb]

theorem modify_ok (hi : i < n) (b : Bytes n) (f : UInt8 → UInt8) : ∃ c, b.modify i f = .ok c :=
  ⟨_, if_pos hi⟩

theorem bitAt_of_getD {u w : List UInt8} (h : u.getD (i / 8) 0 = w.getD (i / 8) 0) :
    bitAt u i = bitAt w i := by
  rw [bitAt, h, bitAt]

theorem bitAt_zero {u : List UInt8} (h : u.getD (i / 8) 0 = 0) : bitAt u i = false := by
  rw [bitAt, h]
  simp

theorem bitAt_ones {u : List UInt8} (h : u.getD (i / 8) 0 = 0xff) : bitAt u i = true := by
  have hones : ∀ k < 8, (0xff : UInt8).toNat.testBit k = true := by decide
  rw [bitAt, h, hones _ (by omega)]

end Bytes

theorem toNat_mod (p : UInt32) : (p % 8).toNat = p.toNat % 8 := by simp

theorem toNat_div (p : UInt32) : (p / 8).toNat = p.toNat / 8 := by simp

/-- Of a mask for a part of a byte all bits of the lowest byte are set. -/
theorem createMask_low {p : UInt32} (h : 2 ≤ p.toNat % 8) :
    ∃ mask, createMask (p % 8) = .ok mask ∧ mask.toUInt8 = -1 ∧ (~~~mask).toUInt8 = 0 := by
  have hmod := toNat_mod p
  have hlt : p.toNat % 8 < 8 := Nat.mod_lt _ (by decide)
  have hcases : p % 8 = 2 ∨ p % 8 = 3 ∨ p % 8 = 4 ∨ p % 8 = 5 ∨ p % 8 = 6 ∨ p % 8 = 7 := by
    simp only [← UInt32.toNat_inj, hmod, UInt32.reduceToNat]
    omega
  rcases hcases with h | h | h | h | h | h <;> rw [h] <;> exact ⟨_, rfl, by decide, by decide⟩

theorem createMask_unaligned {p : UInt32} (h : p.toNat % 8 < 2) :
    ∃ fault, createMask (p % 8) = .error fault := by
  have hmod := toNat_mod p
  rcases Nat.eq_zero_or_pos (p.toNat % 8) with hzero | hpos
  · exact ⟨_, createMask_shift (.inl (by omega))⟩
  · exact ⟨_, createMask_one (by omega)⟩

section Long6

variable {a r : SockaddrIn6} {p : UInt32}

/-- A prefix that ends within a byte, and not behind its first bit. -/
def Within (p : UInt32) : Prop := p.toNat < 128 ∧ 2 ≤ p.toNat % 8

/-- The whole byte in which the prefix ends is cleared, and the others are kept. -/
theorem networkAddress_ok (h : Within p) : ∃ r, IPv6Address.networkAddress a p = .ok r ∧
    r = { a with addr := r.addr } ∧ ∀ j, r.addr.1.getD j 0 =
      if j = p.toNat / 8 then 0 else a.addr.1.getD j 0 := by
  obtain ⟨mask, hmask, -, hlow⟩ := createMask_low h.2
  obtain ⟨addr, haddr⟩ := modify_ok (show (p / 8).toNat < 16 by
    have := h.1
    rw [toNat_div]
    omega) a.addr (· &&& (~~~mask).toUInt8)
  refine ⟨{ a with addr := addr }, ?_, rfl, ?_⟩
  · rw [IPv6Address.networkAddress, hmask]
    simp only [bind, Except.bind, haddr]
  · intro j
    rw [getD_modify haddr, toNat_div, hlow, UInt8.and_zero]

/-- The bytes from there on are set. -/
theorem broadcastAddress_ok (h : Within p) : ∃ r, IPv6Address.broadcastAddress a p = .ok r ∧
    r = { a with addr := r.addr } ∧ ∀ j < 16, r.addr.1.getD j 0 =
      if p.toNat / 8 ≤ j then 0xff else a.addr.1.getD j 0 := by
  obtain ⟨mask, hmask, hlow, -⟩ := createMask_low h.2
  obtain ⟨addr, haddr⟩ := modify_ok (show (p / 8).toNat < 16 by
    have := h.1
    rw [toNat_div]
    omega) a.addr (· ||| mask.toUInt8)
  refine ⟨{ a with addr := addr.assign (fun i => (p / 8).toNat + 1 ≤ i) 0xff }, ?_, rfl, ?_⟩
  · rw [IPv6Address.broadcastAddress, hmask]
    simp only [bind, Except.bind, haddr]
  · intro j hj
    rw [getD_assign hj, getD_modify haddr, toNat_div, hlow, UInt8.or_neg_one]
    simp only [decide_eq_true_eq]
    split_ifs <;> first | rfl | omega

/-- The byte in which the prefix ends is clear. -/
theorem subnetMask_ok (h : Within p) : ∃ r, IPv6Address.subnetMask p = .ok r ∧
    r.addr.1.getD (p.toNat / 8) 0 = 0 := by
  have hlt := h.1
  obtain ⟨mask, hmask, -, hlow⟩ := createMask_low h.2
  obtain ⟨addr, haddr⟩ := modify_ok (show (p / 8).toNat < 16 by
    rw [toNat_div]
    omega) (Bytes.zero 16) fun _ => (~~~mask).toUInt8
  refine ⟨⟨AF_INET6, 0, 0, addr.assign (fun i => i < (p / 8).toNat) 0xff, 0⟩, ?_, ?_⟩
  · rw [IPv6Address.subnetMask, hmask]
    simp only [bind, Except.bind, haddr]
  · rw [getD_assign (by omega), getD_modify haddr, toNat_div, hlow]
    simp

/-- A prefix that does not end so has a fault in each function. -/
theorem fault_of_not_within (h : ¬ Within p) :
    (∃ fault, IPv6Address.networkAddress a p = .error fault) ∧
    (∃ fault, IPv6Address.broadcastAddress a p = .error fault) ∧
    ∃ fault, IPv6Address.subnetMask p = .error fault := by
  rcases Nat.lt_or_ge (p.toNat % 8) 2 with hshort | hpart
  · obtain ⟨fault, hfault⟩ := createMask_unaligned hshort
    refine ⟨⟨fault, ?_⟩, ⟨fault, ?_⟩, ⟨fault, ?_⟩⟩
    · rw [IPv6Address.networkAddress, hfault]
      rfl
    · rw [IPv6Address.broadcastAddress, hfault]
      rfl
    · rw [IPv6Address.subnetMask, hfault]
      rfl
  · obtain ⟨mask, hmask, -⟩ := createMask_low hpart
    have hbeyond : ¬ (p / 8).toNat < 16 := by
      intro hlt
      rw [toNat_div] at hlt
      exact h ⟨by omega, hpart⟩
    have hmodify (b : Bytes 16) (f : UInt8 → UInt8) :
        b.modify (p / 8).toNat f = .error .outOfBounds := if_neg hbeyond
    refine ⟨⟨.outOfBounds, ?_⟩, ⟨.outOfBounds, ?_⟩, ⟨.outOfBounds, ?_⟩⟩
    · rw [IPv6Address.networkAddress, hmask]
      simp only [bind, Except.bind, hmodify]
    · rw [IPv6Address.broadcastAddress, hmask]
      simp only [bind, Except.bind, hmodify]
    · rw [IPv6Address.subnetMask, hmask]
      simp only [bind, Except.bind, hmodify]

end Long6

section Subnet

variable (a : SockaddrIn6) (p : UInt32)

def NetworkRight : Prop := ∃ network, IPv6Address.networkAddress a p = .ok network ∧
  network = { a with addr := network.addr } ∧ Cleared a.addr.1 p.toNat network.addr.1

def BroadcastRight : Prop := ∃ broadcast, IPv6Address.broadcastAddress a p = .ok broadcast ∧
  broadcast = { a with addr := broadcast.addr } ∧ Filled a.addr.1 p.toNat broadcast.addr.1

def MaskRight : Prop := ∃ mask, IPv6Address.subnetMask p = .ok mask ∧
  Leading 16 p.toNat mask.addr.1

/-- What the three functions of an IPv6 address are for. -/
structure IPv6Subnet : Prop where
  network : NetworkRight a p
  broadcast : BroadcastRight a p
  mask : MaskRight p
  masked : ∀ network broadcast mask, IPv6Address.networkAddress a p = .ok network →
    IPv6Address.broadcastAddress a p = .ok broadcast → IPv6Address.subnetMask p = .ok mask →
    network.addr.1 = List.zipWith (· &&& ·) a.addr.1 mask.addr.1 ∧
    broadcast.addr.1 = List.zipWith (· ||| ·) network.addr.1 (mask.addr.1.map (~~~·))

variable {a p}

/-- The bits of the prefix in its last byte are lost, and no byte behind it is changed. -/
theorem networkRight_iff : NetworkRight a p ↔ Within p ∧ ∀ i < 128, p.toNat / 8 ≤ i / 8 →
    (i / 8 = p.toNat / 8 → i < p.toNat) → bitAt a.addr.1 i = false := by
  by_cases h : Within p
  swap
  · refine iff_of_false ?_ fun hright => h hright.1
    rintro ⟨network, hnetwork, -⟩
    obtain ⟨⟨fault, hfault⟩, -⟩ := fault_of_not_within (a := a) h
    rw [hfault] at hnetwork
    cases hnetwork
  obtain ⟨r, hr, hframe, hbytes⟩ := networkAddress_ok (a := a) h
  have hother {i : ℕ} (hi : i / 8 ≠ p.toNat / 8) : bitAt r.addr.1 i = bitAt a.addr.1 i := by
    apply bitAt_of_getD
    rw [hbytes, if_neg hi]
  have hend {i : ℕ} (hi : i / 8 = p.toNat / 8) : bitAt r.addr.1 i = false := by
    apply bitAt_zero
    rw [hbytes, if_pos hi]
  have hlength : 8 * a.addr.1.length = 128 := by simp [a.addr.2]
  constructor
  · rintro ⟨network, hnetwork, -, hcleared⟩
    cases hr.symm.trans hnetwork
    refine ⟨h, fun i hi hle hin => ?_⟩
    have hbit := hcleared i (by omega)
    by_cases hbyte : i / 8 = p.toNat / 8
    · rw [hend hbyte] at hbit
      simpa [hin hbyte] using hbit.symm
    · rw [hother hbyte] at hbit
      simpa [show ¬ i < p.toNat by omega] using hbit
  · rintro ⟨-, hclear⟩
    refine ⟨r, hr, hframe, fun i hi => ?_⟩
    rw [hlength] at hi
    by_cases hbyte : i / 8 = p.toNat / 8
    · rw [hend hbyte]
      by_cases hlt : i < p.toNat
      · simp [hclear i hi hbyte.ge fun _ => hlt]
      · simp [hlt]
    · rw [hother hbyte]
      by_cases hlt : i < p.toNat
      · simp [hlt]
      · simp [hclear i hi (by omega) fun heq => absurd heq hbyte]

/-- The bits of the prefix in its last byte are set with the others. -/
theorem broadcastRight_iff : BroadcastRight a p ↔ Within p ∧ ∀ i < p.toNat,
    i / 8 = p.toNat / 8 → bitAt a.addr.1 i = true := by
  by_cases h : Within p
  swap
  · refine iff_of_false ?_ fun hright => h hright.1
    rintro ⟨broadcast, hbroadcast, -⟩
    obtain ⟨-, ⟨fault, hfault⟩, -⟩ := fault_of_not_within (a := a) h
    rw [hfault] at hbroadcast
    cases hbroadcast
  have hwithin := h.1
  obtain ⟨r, hr, hframe, hbytes⟩ := broadcastAddress_ok (a := a) h
  have hfront {i : ℕ} (hi : i / 8 < p.toNat / 8) : bitAt r.addr.1 i = bitAt a.addr.1 i := by
    apply bitAt_of_getD
    rw [hbytes _ (by omega), if_neg (Nat.not_le.2 hi)]
  have hend {i : ℕ} (hi : i < 128) (hle : p.toNat / 8 ≤ i / 8) : bitAt r.addr.1 i = true := by
    apply bitAt_ones
    rw [hbytes _ (by omega), if_pos hle]
  have hlength : 8 * a.addr.1.length = 128 := by simp [a.addr.2]
  constructor
  · rintro ⟨broadcast, hbroadcast, -, hfilled⟩
    cases hr.symm.trans hbroadcast
    refine ⟨h, fun i hi hbyte => ?_⟩
    have hbit := hfilled i (by omega)
    rw [hend (by omega) hbyte.ge] at hbit
    simpa [show ¬ p.toNat ≤ i by omega] using hbit.symm
  · rintro ⟨-, hset⟩
    refine ⟨r, hr, hframe, fun i hi => ?_⟩
    rw [hlength] at hi
    rcases Nat.lt_or_ge (i / 8) (p.toNat / 8) with hlt | hle
    · rw [hfront hlt]
      simp [show ¬ p.toNat ≤ i by omega]
    · rw [hend hi hle]
      by_cases hlt : i < p.toNat
      · simp [hset i hlt (by omega)]
      · simp [Nat.le_of_not_lt hlt]

/-- The first bit of the byte in which the prefix ends is not set. -/
theorem not_maskRight : ¬ MaskRight p := by
  rintro ⟨mask, hmask, hleading⟩
  by_cases h : Within p
  · have hwithin := h.1
    have hpart := h.2
    obtain ⟨r, hr, hbyte⟩ := subnetMask_ok h
    cases hr.symm.trans hmask
    have hset := hleading (p.toNat / 8 * 8) (by omega)
    rw [bitAt_zero (by rwa [Nat.mul_div_cancel _ (by decide)])] at hset
    simp at hset
    omega
  · obtain ⟨-, -, fault, hfault⟩ := fault_of_not_within (a := ⟨AF_INET6, 0, 0, .zero 16, 0⟩) h
    rw [hfault] at hmask
    cases hmask

/-- There is no prefix for which all three are right, and the first two are right only where the
address happens to have the bits they put into its bytes. -/
theorem ipv6_subnet_never (a : SockaddrIn6) (p : UInt32) :
    ¬ IPv6Subnet a p ∧ ¬ MaskRight p ∧
    (NetworkRight a p ↔ Within p ∧ ∀ i < 128, p.toNat / 8 ≤ i / 8 →
      (i / 8 = p.toNat / 8 → i < p.toNat) → bitAt a.addr.1 i = false) ∧
    (BroadcastRight a p ↔ Within p ∧ ∀ i < p.toNat, i / 8 = p.toNat / 8 →
      bitAt a.addr.1 i = true) :=
  ⟨fun h => not_maskRight h.mask, not_maskRight, networkRight_iff, broadcastRight_iff⟩

end Subnet

/-- Of a prefix of twelve bits the mask has eight. -/
theorem short_subnetMask : ¬ ∀ a (p : UInt32), p ≤ 128 → IPv6Subnet a p := by
  intro h
  obtain ⟨mask, hmask, hleading⟩ := (h ⟨AF_INET6, 0, 0, .zero 16, 0⟩ 12 (by decide)).mask
  cases hmask
  exact absurd (hleading 8 (by decide)) (by decide)

end AddressSubnets
