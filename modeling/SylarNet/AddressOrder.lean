import SylarNet.SylarAddress

/-!
# Comparison of addresses

An address is compared through the memory behind its constant accessor and a length that each
class reports on its own. The accessor of an IPv6 address points into its structure.
-/
namespace AddressOrder

open HostWords SylarAddress

/-- An address of each class with its members. -/
inductive Address where
  | ipv4 (addr : SockaddrIn)
  | ipv6 (addr : SockaddrIn6)
  | unix (addr : SockaddrUn) (length : UInt32)
  | unknown (addr : Sockaddr)
  deriving DecidableEq, Repr

section Compare

def difference : List UInt8 → List UInt8 → ℤ
  | x :: l, y :: m => if x = y then difference l m else x.toNat - y.toNat
  | _, _ => 0

/-- The two objects are given from the pointers to their ends. -/
def memcmp (l m : List UInt8) (n : ℕ) : Except Fault ℤ :=
  if n ≤ l.length ∧ n ≤ m.length then .ok (difference (l.take n) (m.take n))
  else .error .outOfBounds

variable (order : ByteOrder)

/-- From the pointer to the end of the structure. -/
def getAddr : Address → List UInt8
  | .ipv4 a => a.bytes order
  | .ipv6 a => a.bytes order
  | .unix a _ => a.bytes order
  | .unknown a => a.bytes order

/-- The overload that the functions of the base class use. That of an IPv6 address returns
`&m_addr.sin6_addr`. -/
def getAddrConst : Address → List UInt8
  | .ipv4 a => a.bytes order
  | .ipv6 a => (a.bytes order).drop 8
  | .unix a _ => a.bytes order
  | .unknown a => a.bytes order

def getAddrLen : Address → UInt32
  | .ipv4 _ => 16
  | .ipv6 _ => 28
  | .unix _ length => length
  | .unknown _ => 16

def getFamily (a : Address) : ℤ := load order ((getAddrConst order a).take 2)

def less (a b : Address) : Except Fault Bool := do
  let minlen := min (getAddrLen a) (getAddrLen b)
  let result ← memcmp (getAddrConst order a) (getAddrConst order b) minlen.toNat
  if result < 0 then .ok true
  else if 0 < result then .ok false
  else if getAddrLen a < getAddrLen b then .ok true
  else .ok false

def equal (a b : Address) : Except Fault Bool :=
  if getAddrLen a = getAddrLen b then do
    let result ← memcmp (getAddrConst order a) (getAddrConst order b) (getAddrLen a).toNat
    .ok (decide (result = 0))
  else .ok false

end Compare

section Create

variable {order : ByteOrder}

def structureSize (family : ℕ) : ℕ := if family = AF_INET6.toNat then 28 else 16

/-- An object behind a `const sockaddr*`, as large as the structure of its family. -/
structure Object (order : ByteOrder) where
  bytes : List UInt8
  room : structureSize (load order (bytes.take 2)) ≤ bytes.length

namespace Object

def family (o : Object order) : ℕ := load order (o.bytes.take 2)

theorem room_short (o : Object order) : 16 ≤ o.bytes.length := by
  have h := o.room
  unfold structureSize at h
  split at h <;> omega

theorem room_long (o : Object order) (hf : o.family = AF_INET6.toNat) : 28 ≤ o.bytes.length := by
  have h := o.room
  simp only [structureSize] at h
  rwa [if_pos (show load order (o.bytes.take 2) = AF_INET6.toNat from hf)] at h

end Object

def readBytes (l : List UInt8) (i n : ℕ) (h : i + n ≤ l.length) : Bytes n :=
  ⟨(l.drop i).take n, by
    rw [List.length_take, List.length_drop]
    omega⟩

def readLong (order : ByteOrder) (l : List UInt8) (i : ℕ) : UInt32 :=
  UInt32.ofNat (load order ((l.drop i).take 4))

def create (addr : Option (Object order)) (_addrlen : UInt32) : Option Address :=
  match addr with
  | none => none
  | some o =>
    if o.family = AF_INET.toNat then
      some (.ipv4 ⟨readShort order o.bytes 0, readShort order o.bytes 2, readLong order o.bytes 4,
        readBytes o.bytes 8 8 o.room_short⟩)
    else if hf : o.family = AF_INET6.toNat then
      some (.ipv6 ⟨readShort order o.bytes 0, readShort order o.bytes 2, readLong order o.bytes 4,
        readBytes o.bytes 8 16 (by
          have := o.room_long hf
          omega), readLong order o.bytes 24⟩)
    else some (.unknown ⟨readShort order o.bytes 0, readBytes o.bytes 2 14 o.room_short⟩)

end Create

section Difference

variable {l m : List UInt8}

theorem difference_eq_zero (h : l.length = m.length) : difference l m = 0 ↔ l = m := by
  induction l generalizing m with
  | nil => simp [difference, List.eq_nil_of_length_eq_zero h.symm]
  | cons x l ih =>
    cases m with
    | nil => simp at h
    | cons y m =>
      simp only [difference]
      split_ifs with hxy
      · simp [hxy, ih (by simpa using h)]
      · have hne : x.toNat ≠ y.toNat := fun heq => hxy (UInt8.toNat_inj.1 heq)
        simp [hxy]
        omega

/-- Where the common part differs the sign is that of the lists, and else of the lengths. -/
theorem lt_iff_difference (l m : List UInt8) : l < m ↔
    difference (l.take (min l.length m.length)) (m.take (min l.length m.length)) < 0 ∨
    difference (l.take (min l.length m.length)) (m.take (min l.length m.length)) = 0 ∧
      l.length < m.length := by
  induction l generalizing m with
  | nil => cases m <;> simp [difference]
  | cons x l ih =>
    cases m with
    | nil => simp [difference]
    | cons y m =>
      have hlength : min (l.length + 1) (m.length + 1) = min l.length m.length + 1 := by omega
      rw [List.cons_lt_cons_iff, ih m]
      simp only [List.length_cons, hlength, List.take_succ_cons, difference]
      split_ifs with hxy
      · simp [hxy, UInt8.lt_irrefl]
      · have hne : x.toNat ≠ y.toNat := fun heq => hxy (UInt8.toNat_inj.1 heq)
        rw [UInt8.lt_iff_toNat_lt]
        simp only [hxy, false_and, or_false]
        omega

end Difference

section Described

variable {order : ByteOrder} {a b : Address}

/-- The bytes that the reported length has from the start of the structure. -/
def sockaddr (order : ByteOrder) (a : Address) : List UInt8 :=
  (getAddr order a).take (getAddrLen a).toNat

/-- The constant accessor and the length belong to one structure. Nothing bounds the length that
`setAddrLen` is given. -/
def Described : Address → Prop
  | .ipv4 _ => True
  | .ipv6 _ => False
  | .unix _ length => length ≤ 110
  | .unknown _ => True

theorem Described.getAddrConst (h : Described a) : getAddrConst order a = getAddr order a := by
  cases a with
  | ipv6 addr => cases h
  | _ => rfl

theorem Described.getAddrLen_le (h : Described a) :
    (getAddrLen a).toNat ≤ (getAddr order a).length := by
  cases a with
  | ipv4 addr => simp [getAddrLen, getAddr, SockaddrIn.bytes, addr.zero.2]
  | ipv6 addr => cases h
  | unix addr length =>
    simp only [Described, UInt32.le_iff_toNat_le] at h
    simpa [getAddrLen, getAddr, SockaddrUn.bytes, addr.path.2] using h
  | unknown addr => simp [getAddrLen, getAddr, Sockaddr.bytes, addr.data.2]

theorem Described.length_sockaddr (h : Described a) (order : ByteOrder) :
    (sockaddr order a).length = (getAddrLen a).toNat := by
  rw [sockaddr, List.length_take, Nat.min_eq_left h.getAddrLen_le]

theorem memcmp_described (ha : Described a) (hb : Described b) {n : ℕ}
    (hna : n ≤ (getAddrLen a).toNat) (hnb : n ≤ (getAddrLen b).toNat) :
    memcmp (getAddrConst order a) (getAddrConst order b) n =
      .ok (difference ((sockaddr order a).take n) ((sockaddr order b).take n)) := by
  have hla : n ≤ (getAddr order a).length := hna.trans ha.getAddrLen_le
  have hlb : n ≤ (getAddr order b).length := hnb.trans hb.getAddrLen_le
  rw [ha.getAddrConst, hb.getAddrConst, memcmp, if_pos ⟨hla, hlb⟩, sockaddr, sockaddr,
    List.take_take, List.take_take, Nat.min_eq_left hna, Nat.min_eq_left hnb]

theorem equal_described (ha : Described a) (hb : Described b) :
    equal order a b = .ok (decide (sockaddr order a = sockaddr order b)) := by
  have hla := ha.length_sockaddr order
  have hlb := hb.length_sockaddr order
  unfold equal
  split_ifs with hlen
  · have hnb : (getAddrLen a).toNat ≤ (getAddrLen b).toNat := by rw [hlen]
    have hlength : (sockaddr order a).length = (sockaddr order b).length := by
      rw [hla, hlb, hlen]
    rw [memcmp_described ha hb le_rfl hnb, ← hla, List.take_length, hlength, List.take_length]
    simp only [bind, Except.bind, difference_eq_zero hlength]
  · have hne : sockaddr order a ≠ sockaddr order b := by
      intro heq
      apply hlen
      rw [← UInt32.toNat_inj, ← hla, ← hlb, heq]
    simp [hne]

/-- The three tests of the order are those of the sign and of the lengths. -/
theorem sign_cases (d : ℤ) (p : Prop) [Decidable p] :
    (if d < 0 then .ok true else if 0 < d then .ok false else if p then .ok true else .ok false :
      Except Fault Bool) = .ok (decide (d < 0 ∨ d = 0 ∧ p)) := by
  rcases lt_trichotomy d 0 with hneg | rfl | hpos
  · simp [hneg]
  · by_cases hp : p <;> simp [hp]
  · simp [hpos, hpos.not_gt, hpos.ne']

theorem less_described (ha : Described a) (hb : Described b) :
    less order a b = .ok (decide (sockaddr order a < sockaddr order b)) := by
  have hla := ha.length_sockaddr order
  have hlb := hb.length_sockaddr order
  have hmin : (min (getAddrLen a) (getAddrLen b)).toNat =
      min (sockaddr order a).length (sockaddr order b).length := by
    rw [hla, hlb]
    change (if getAddrLen a ≤ getAddrLen b then getAddrLen a else getAddrLen b).toNat = _
    split_ifs with hle
    · exact (Nat.min_eq_left (UInt32.le_iff_toNat_le.1 hle)).symm
    · exact (Nat.min_eq_right (Nat.le_of_not_le fun h => hle (UInt32.le_iff_toNat_le.2 h))).symm
  have hlen : getAddrLen a < getAddrLen b ↔
      (sockaddr order a).length < (sockaddr order b).length := by
    rw [UInt32.lt_iff_toNat_lt, hla, hlb]
  rw [less, memcmp_described ha hb (by omega) (by omega)]
  simp only [bind, Except.bind, sign_cases, hlen, hmin, ← lt_iff_difference]

end Described

section Comparison

variable {order : ByteOrder}

/-- What the two operators are for, over the addresses of a set. -/
structure ComparesRight (order : ByteOrder) (S : Set Address) : Prop where
  inside : ∀ a ∈ S, ∀ b ∈ S, (∃ v, less order a b = .ok v) ∧ ∃ v, equal order a b = .ok v
  equal_iff : ∀ a ∈ S, ∀ b ∈ S, equal order a b = .ok true ↔
    getAddrLen a = getAddrLen b ∧ sockaddr order a = sockaddr order b
  irrefl : ∀ a ∈ S, less order a a ≠ .ok true
  trans : ∀ a ∈ S, ∀ b ∈ S, ∀ c ∈ S, less order a b = .ok true → less order b c = .ok true →
    less order a c = .ok true
  total : ∀ a ∈ S, ∀ b ∈ S,
    less order a b = .ok true ∨ equal order a b = .ok true ∨ less order b a = .ok true
  compatible : ∀ a ∈ S, ∀ b ∈ S, ∀ c ∈ S, equal order a b = .ok true →
    less order a c = less order b c ∧ less order c a = less order c b

theorem getAddrLen_of_sockaddr {a b : Address} (ha : Described a) (hb : Described b)
    (h : sockaddr order a = sockaddr order b) : getAddrLen a = getAddrLen b := by
  rw [← UInt32.toNat_inj, ← ha.length_sockaddr order, h, hb.length_sockaddr order]

theorem comparesRight_of_described {S : Set Address} (h : ∀ a ∈ S, Described a) :
    ComparesRight order S := by
  have hless : ∀ a ∈ S, ∀ b ∈ S, less order a b = .ok true ↔
      sockaddr order a < sockaddr order b := by
    intro a ha b hb
    simp [less_described (h a ha) (h b hb)]
  have hequal : ∀ a ∈ S, ∀ b ∈ S, equal order a b = .ok true ↔
      sockaddr order a = sockaddr order b := by
    intro a ha b hb
    simp [equal_described (h a ha) (h b hb)]
  refine ⟨?_, ?_, ?_, ?_, ?_, ?_⟩
  · intro a ha b hb
    exact ⟨⟨_, less_described (h a ha) (h b hb)⟩, ⟨_, equal_described (h a ha) (h b hb)⟩⟩
  · intro a ha b hb
    rw [hequal a ha b hb]
    exact ⟨fun heq => ⟨getAddrLen_of_sockaddr (h a ha) (h b hb) heq, heq⟩, fun heq => heq.2⟩
  · intro a ha
    rw [Ne, hless a ha a ha]
    exact List.lt_irrefl _
  · intro a ha b hb c hc
    rw [hless a ha b hb, hless b hb c hc, hless a ha c hc]
    exact List.lt_trans
  · intro a ha b hb
    rw [hless a ha b hb, hless b hb a ha, hequal a ha b hb]
    rcases List.le_total (sockaddr order a) (sockaddr order b) with hle | hle
    · rcases List.le_iff_lt_or_eq.1 hle with hlt | heq
      · exact .inl hlt
      · exact .inr (.inl heq)
    · rcases List.le_iff_lt_or_eq.1 hle with hlt | heq
      · exact .inr (.inr hlt)
      · exact .inr (.inl heq.symm)
  · intro a ha b hb c hc hab
    rw [hequal a ha b hb] at hab
    simp [less_described (h _ ha) (h _ hc), less_described (h _ hb) (h _ hc),
      less_described (h _ hc) (h _ ha), less_described (h _ hc) (h _ hb), hab]

/-- Another address is not even equal to itself. -/
theorem equal_self_of_not_described {a : Address} (h : ¬ Described a) :
    equal order a a = .error .outOfBounds := by
  have hbeyond : ¬ (getAddrLen a).toNat ≤ (getAddrConst order a).length := by
    cases a with
    | ipv6 addr => simp [getAddrLen, getAddrConst, SockaddrIn6.bytes, addr.addr.2]
    | unix addr length =>
      simp only [Described, UInt32.le_iff_toNat_le] at h
      simpa [getAddrLen, getAddrConst, SockaddrUn.bytes, addr.path.2] using h
    | _ => exact absurd trivial h
  rw [equal, if_pos rfl, memcmp, if_neg fun hle => hbeyond hle.1]
  rfl

/-- The family of the object is that of the address. -/
def FamilyKept (o : Object order) (addrlen : UInt32) : Prop :=
  ∀ a, create (some o) addrlen = some a → getFamily order a = o.family

theorem load_readShort (o : Object order) :
    load order (store order 2 (readShort order o.bytes 0).toNat) = o.family := by
  have hlength : (o.bytes.take 2).length = 2 := by
    have := o.room_short
    rw [List.length_take]
    omega
  have hlt : o.family < 2 ^ 16 := by
    have h := load_lt order (o.bytes.take 2)
    rwa [hlength] at h
  have hshort : (readShort order o.bytes 0).toNat = o.family := by
    rw [readShort, List.drop_zero, UInt16.toNat_ofNat']
    exact Nat.mod_eq_of_lt hlt
  rw [hshort, load_store order hlt]

theorem drop_bytes (a : SockaddrIn6) :
    (a.bytes order).drop 8 = a.addr.1 ++ store order 4 a.scopeId.toNat := by
  rw [SockaddrIn6.bytes, List.append_assoc]
  apply List.drop_left'
  simp

/-- The family of an IPv6 address is read from the first two bytes of what it addresses. -/
theorem familyKept_iff (o : Object order) (addrlen : UInt32) : FamilyKept o addrlen ↔
    (o.family = AF_INET6.toNat → load order ((o.bytes.drop 8).take 2) = AF_INET6.toNat) := by
  have hshort : (store order 2 (readShort order o.bytes 0).toNat).length = 2 := by simp
  have hfront (rest : List UInt8) :
      (store order 2 (readShort order o.bytes 0).toNat ++ rest).take 2 =
        store order 2 (readShort order o.bytes 0).toNat := List.take_left' hshort
  simp only [FamilyKept, create]
  split_ifs with hin hin6
  · refine iff_of_true ?_ fun h => absurd (hin.symm.trans h) (by decide)
    rintro a ⟨⟩
    simp only [getFamily, getAddrConst, SockaddrIn.bytes, List.append_assoc, hfront,
      load_readShort]
  · have hlength : 2 ≤ (readBytes o.bytes 8 16 (by
        have := o.room_long hin6
        omega)).1.length := by simp only [(readBytes o.bytes 8 16 _).2, Nat.reduceLeDiff]
    simp only [Option.some.injEq, forall_eq', getFamily, getAddrConst, drop_bytes, hin6,
      forall_const, List.take_append_of_le_length hlength, Int.ofNat_inj]
    rw [readBytes, List.take_take, Nat.min_eq_left (by decide)]
  · refine iff_of_true ?_ fun h => absurd h hin6
    rintro a ⟨⟩
    simp only [getFamily, getAddrConst, Sockaddr.bytes, hfront, load_readShort]

/-- Both hold without an address of the sixth version, and where nothing reports a length behind
the end of its structure. -/
theorem address_comparison_iff (order : ByteOrder) (S : Set Address) (o : Object order)
    (addrlen : UInt32) :
    (ComparesRight order S ↔ ∀ a ∈ S, Described a) ∧
    (FamilyKept o addrlen ↔ (o.family = AF_INET6.toNat →
      load order ((o.bytes.drop 8).take 2) = AF_INET6.toNat)) := by
  refine ⟨⟨fun h a ha => ?_, comparesRight_of_described⟩, familyKept_iff o addrlen⟩
  by_contra hnot
  obtain ⟨-, v, hv⟩ := h.inside a ha a ha
  rw [equal_self_of_not_described hnot] at hv
  cases hv

/-- The family of the loopback address is zero. -/
theorem loopback_lost : ¬ ∀ order S (o : Object order) addrlen,
    ComparesRight order S ∧ FamilyKept o addrlen := by
  intro h
  have hkept := (h .little ∅ ⟨[10, 0] ++ List.replicate 21 0 ++ [1] ++ List.replicate 4 0,
    by decide⟩ 28).2 _ rfl
  exact absurd hkept (by decide)

end Comparison

end AddressOrder
