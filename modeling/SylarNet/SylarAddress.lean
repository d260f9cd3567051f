import SylarNet.SylarEndian

/-!
# Socket addresses

The structures of the system as their fields; a word of the network is kept as the host stores
it. The memory of an `Address` is its structure, and what has no defined meaning is a fault here.
-/
namespace SylarAddress

open HostWords SylarEndian

/-- An array of so many bytes. -/
abbrev Bytes (n : ℕ) := { l : List UInt8 // l.length = n }

inductive Fault where
  | shift
  | signedOverflow
  | outOfBounds
  deriving DecidableEq, Repr

namespace Bytes

variable {n : ℕ}

def zero (n : ℕ) : Bytes n := ⟨List.replicate n 0, by simp⟩

/-- `b[i] = f(b[i])` -/
def modify (b : Bytes n) (i : ℕ) (f : UInt8 → UInt8) : Except Fault (Bytes n) :=
  if i < n then .ok ⟨b.1.modify i f, by simp [b.2]⟩ else .error .outOfBounds

/-- The assignment of a loop to every byte it comes to. -/
def assign (b : Bytes n) (visited : ℕ → Bool) (v : UInt8) : Bytes n :=
  ⟨b.1.mapIdx fun i c => if visited i then v else c, by simp [b.2]⟩

end Bytes

def AF_INET : UInt16 := 2
def AF_INET6 : UInt16 := 10

structure Sockaddr where
  family : UInt16
  data : Bytes 14
  deriving DecidableEq, Repr

structure SockaddrIn where
  family : UInt16
  port : UInt16
  addr : UInt32
  zero : Bytes 8
  deriving DecidableEq, Repr

structure SockaddrIn6 where
  family : UInt16
  port : UInt16
  flowinfo : UInt32
  addr : Bytes 16
  scopeId : UInt32
  deriving DecidableEq, Repr

structure SockaddrUn where
  family : UInt16
  path : Bytes 108
  deriving DecidableEq, Repr

section Words

variable (order : ByteOrder)

def networkShort (v : UInt16) : UInt16 := UInt16.ofNat (byteswapOnLittleEndian order 2 v.toNat)

def networkLong (v : UInt32) : UInt32 := UInt32.ofNat (byteswapOnLittleEndian order 4 v.toNat)

variable {order}

theorem toNat_networkShort (v : UInt16) :
    (networkShort order v).toNat = byteswapOnLittleEndian order 2 v.toNat := by
  rw [networkShort, UInt16.toNat_ofNat']
  exact Nat.mod_eq_of_lt (byteswapOnLittleEndian_lt order v.toNat_lt)

theorem toNat_networkLong (v : UInt32) :
    (networkLong order v).toNat = byteswapOnLittleEndian order 4 v.toNat := by
  rw [networkLong, UInt32.toNat_ofNat']
  exact Nat.mod_eq_of_lt (byteswapOnLittleEndian_lt order v.toNat_lt)

theorem networkShort_injective {v w : UInt16} (h : networkShort order v = networkShort order w) :
    v = w := by
  have hbig : toBig 2 v.toNat = toBig 2 w.toNat := by
    rw [← store_byteswapOnLittleEndian order, ← store_byteswapOnLittleEndian order,
      ← toNat_networkShort, ← toNat_networkShort, h]
  have hv : v.toNat < 256 ^ 2 := v.toNat_lt
  have hw : w.toNat < 256 ^ 2 := w.toNat_lt
  apply UInt16.toNat_inj.1
  rw [← ofLittle_reverse_toBig hv, ← ofLittle_reverse_toBig hw, hbig]

variable (order)

def Sockaddr.bytes (a : Sockaddr) : List UInt8 := store order 2 a.family.toNat ++ a.data.1

def SockaddrIn.bytes (a : SockaddrIn) : List UInt8 :=
  store order 2 a.family.toNat ++ store order 2 a.port.toNat ++ store order 4 a.addr.toNat ++
    a.zero.1

def SockaddrIn6.bytes (a : SockaddrIn6) : List UInt8 :=
  store order 2 a.family.toNat ++ store order 2 a.port.toNat ++ store order 4 a.flowinfo.toNat ++
    a.addr.1 ++ store order 4 a.scopeId.toNat

def SockaddrUn.bytes (a : SockaddrUn) : List UInt8 := store order 2 a.family.toNat ++ a.path.1

end Words

/-- The word of the host at a place in memory. -/
def readShort (order : ByteOrder) (l : List UInt8) (i : ℕ) : UInt16 :=
  UInt16.ofNat (load order ((l.drop i).take 2))

/-- `CreateMask<uint32_t>`. The one that is shifted is an `int`, which has no room for the
thirty-second bit. -/
def createMask (bits : UInt32) : Except Fault UInt32 :=
  let shift := 32 - bits.toUInt64
  if 32 ≤ shift then .error .shift
  else if shift = 31 then .error .signedOverflow
  else .ok (UInt32.ofNat (2 ^ shift.toNat - 1))

end SylarAddress
