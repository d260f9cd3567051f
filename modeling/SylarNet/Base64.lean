import SylarNet.BitStrings
import SylarNet.SylarHttp

/-!
# Base64

`base64encode` and `base64decode` of `hash_util.cc`, compared with RFC 4648 on strings of bits.
The decoder writes through a pointer; a write behind the end of its buffer is a fault here.
-/
namespace Base64

open SylarHttp (bytes)
open BitStrings

def base64 : List UInt8 :=
  bytes "ABCDEFGHIJKLMNOPQRSTUVWXYZabcdefghijklmnopqrstuvwxyz0123456789+/"

/-- The indexing of the table; no index is out of its range. -/
def char (v : ℕ) : UInt8 := base64.getD v 0

/-- The body of the encoder's loop for the one to three bytes that it takes. -/
def encodeQuantum (taken : List UInt8) : List UInt8 :=
  let i := taken.length
  let packed := taken.foldl (fun packed c => packed <<< 8 ||| c.toNat) 0
  let padding := if i = 1 then 2 else if i = 2 then 1 else 0
  let packed := packed <<< (8 * (3 - i))
  [char (packed >>> 18), char (packed >>> 12 &&& 0x3f)] ++
    (if padding ≠ 2 then [char (packed >>> 6 &&& 0x3f)] else []) ++
    (if padding = 0 then [char (packed &&& 0x3f)] else []) ++
    List.replicate padding 61

def base64encode : List UInt8 → List UInt8
  | [] => []
  | [a] => encodeQuantum [a]
  | [a, b] => encodeQuantum [a, b]
  | a :: b :: c :: rest => encodeQuantum [a, b, c] ++ base64encode rest

/-- The value that the decoder finds for a character, if it is one of the alphabet. -/
def index (c : UInt8) : Option ℕ :=
  if 65 ≤ c ∧ c ≤ 90 then some (c.toNat - 65)
  else if 97 ≤ c ∧ c ≤ 122 then some (c.toNat - 97 + 26)
  else if 48 ≤ c ∧ c ≤ 57 then some (c.toNat - 48 + 52)
  else if c = 43 then some 62
  else if c = 47 then some 63
  else none

structure Quantum where
  padding : ℕ
  packed : ℕ
  deriving DecidableEq, Repr

/-- The inner loop over the characters it takes; `none` where it returns the empty string. -/
def readChars : List UInt8 → Quantum → Option Quantum
  | [], q => some q
  | c :: rest, q =>
    if c = 61 then readChars rest ⟨q.padding + 1, q.packed <<< 6⟩
    else if 0 < q.padding then none
    else
      match index c with
      | none => none
      | some val => readChars rest ⟨q.padding, q.packed <<< 6 ||| val⟩

/-- A write through `writeBuf`. -/
def write (capacity : ℕ) (out : List UInt8) (c : ℕ) : Option (List UInt8) :=
  if out.length < capacity then some (out ++ [UInt8.ofNat c]) else none

/-- The writes for one quantum. -/
def writeQuantum (capacity : ℕ) (out : List UInt8) (q : Quantum) : Option (List UInt8) := do
  let out ← write capacity out (q.packed >>> 16 &&& 0xff)
  let out ← if q.padding ≠ 2 then write capacity out (q.packed >>> 8 &&& 0xff) else some out
  if q.padding = 0 then write capacity out (q.packed &&& 0xff) else some out

/-- The outer loop; a quantum that is cut short is refused whatever it holds. -/
def decodeLoop (capacity : ℕ) : List UInt8 → List UInt8 → Option (List UInt8)
  | [], out => some out
  | a :: b :: c :: d :: rest, out =>
    match readChars [a, b, c, d] ⟨0, 0⟩ with
    | none => some []
    | some q =>
      if 0 < q.padding ∧ rest ≠ [] then some []
      else if 2 < q.padding then some []
      else
        match writeQuantum capacity out q with
        | none => none
        | some out => decodeLoop capacity rest out
  | _, _ => some []

/-- `none` stands for a write behind the end of the buffer. -/
def base64decode (src : List UInt8) : Option (List UInt8) :=
  decodeLoop (src.length * 3 / 4) src []

/-! RFC 4648 on strings of bits. -/

/-- Groups of six bits; zeros are added on the right of the last one. -/
def sextets : List Bool → List ℕ
  | a :: b :: c :: d :: e :: f :: rest => ofBits [a, b, c, d, e, f] :: sextets rest
  | [] => []
  | l => [ofBits (l ++ List.replicate (6 - l.length) false)]

/-- Groups of eight bits; what does not fill the last one is dropped. -/
def octets : List Bool → List UInt8
  | a :: b :: c :: d :: e :: f :: g :: h :: rest =>
    UInt8.ofNat (ofBits [a, b, c, d, e, f, g, h]) :: octets rest
  | _ => []

/-- Padded so that the length is a multiple of four. -/
def rfcEncode (data : List UInt8) : List UInt8 :=
  let chars := (sextets (data.flatMap fun c => bits 8 c.toNat)).map fun v => base64.getD v 0
  chars ++ List.replicate ((4 - chars.length % 4) % 4) 61

/-- The bits that the characters of an encoding stand for. -/
def bodyBits (body : List UInt8) : List Bool := body.flatMap fun c => bits 6 (base64.idxOf c)

/-- Whatever is in the unused bits. -/
def rfcDecode (body : List UInt8) : List UInt8 := octets (bodyBits body)

def unusedBits (body : List UInt8) : List Bool :=
  (bodyBits body).drop (8 * ((bodyBits body).length / 8))

/-- Characters of the alphabet, then at most two signs of equality, in whole quanta. -/
structure Encoding (s body : List UInt8) (padding : ℕ) : Prop where
  text : s = body ++ List.replicate padding 61
  alphabet : ∀ c ∈ body, c ∈ base64
  padding_le : padding ≤ 2
  quanta : s.length % 4 = 0

theorem sextets_append {l : List Bool} (hl : l.length = 6) (rest : List Bool) :
    sextets (l ++ rest) = ofBits l :: sextets rest := by
  match l, hl with
  | [_, _, _, _, _, _], _ => rfl

theorem octets_append {l : List Bool} (hl : l.length = 8) (rest : List Bool) :
    octets (l ++ rest) = UInt8.ofNat (ofBits l) :: octets rest := by
  match l, hl with
  | [_, _, _, _, _, _, _, _], _ => rfl

/-- Three bytes are four groups of six bits. -/
theorem sextets_three (a b c : ℕ) (rest : List Bool) (ha : a < 256) (hb : b < 256)
    (hc : c < 256) :
    sextets (bits 8 a ++ (bits 8 b ++ (bits 8 c ++ rest))) =
      a / 4 :: (a % 4 * 16 + b / 16) :: (b % 16 * 4 + c / 64) :: c % 64 :: sextets rest := by
  have hsplit : bits 8 a ++ (bits 8 b ++ (bits 8 c ++ rest)) =
      bits 6 (a / 4) ++ ((bits 2 a ++ bits 4 (b / 16)) ++ ((bits 4 b ++ bits 2 (c / 64)) ++
        (bits 6 c ++ rest))) := by
    rw [bits_add 6 2 a, bits_add 4 4 b, bits_add 2 6 c]
    simp only [List.append_assoc]
    rfl
  rw [hsplit, sextets_append (length_bits 6 _), sextets_append (by simp [length_bits]),
    sextets_append (by simp [length_bits]), sextets_append (length_bits 6 _)]
  simp only [ofBits_append, ofBits_bits, length_bits]
  congr 1
  · omega
  congr 1
  · omega
  congr 1
  omega

/-- The bits of one or two bytes at the end, with the zeros that fill the last group. -/
theorem sextets_one (a : ℕ) (ha : a < 256) : sextets (bits 8 a) = [a / 4, a % 4 * 16] := by
  have hlast : sextets (bits 2 a) = [ofBits (bits 2 a ++ List.replicate 4 false)] := rfl
  rw [bits_add 6 2 a, sextets_append (length_bits 6 _), hlast, ofBits_zeros, ofBits_bits,
    ofBits_bits]
  congr 1
  omega

theorem sextets_two (a b : ℕ) (ha : a < 256) (hb : b < 256) :
    sextets (bits 8 a ++ bits 8 b) = [a / 4, a % 4 * 16 + b / 16, b % 16 * 4] := by
  have hlast : sextets (bits 4 b) = [ofBits (bits 4 b ++ List.replicate 2 false)] := rfl
  have hsplit : bits 8 a ++ bits 8 b =
      bits 6 (a / 4) ++ ((bits 2 a ++ bits 4 (b / 16)) ++ bits 4 b) := by
    rw [bits_add 6 2 a, bits_add 4 4 b]
    simp only [List.append_assoc]
    rfl
  rw [hsplit, sextets_append (length_bits 6 _), sextets_append (by simp [length_bits]), hlast,
    ofBits_zeros]
  simp only [ofBits_append, ofBits_bits, length_bits]
  congr 1
  · omega
  congr 1
  omega

/-- Four groups of six bits are three bytes. -/
theorem octets_four (u v w x : ℕ) (rest : List Bool) (hu : u < 64) (hv : v < 64) (hw : w < 64)
    (hx : x < 64) :
    octets (bits 6 u ++ (bits 6 v ++ (bits 6 w ++ (bits 6 x ++ rest)))) =
      UInt8.ofNat (u * 4 + v / 16) :: UInt8.ofNat (v % 16 * 16 + w / 4) ::
        UInt8.ofNat (w % 4 * 64 + x) :: octets rest := by
  have hsplit : bits 6 u ++ (bits 6 v ++ (bits 6 w ++ (bits 6 x ++ rest))) =
      (bits 6 u ++ bits 2 (v / 16)) ++ ((bits 4 v ++ bits 4 (w / 4)) ++
        ((bits 2 w ++ bits 6 x) ++ rest)) := by
    rw [bits_add 2 4 v, bits_add 4 2 w]
    simp only [List.append_assoc]
    rfl
  rw [hsplit, octets_append (by simp [length_bits]), octets_append (by simp [length_bits]),
    octets_append (by simp [length_bits])]
  simp only [ofBits_append, ofBits_bits, length_bits]
  congr 2
  · omega
  congr 2
  · omega
  congr 2
  omega

theorem octets_three (u v w : ℕ) (hu : u < 64) (hv : v < 64) (hw : w < 64) :
    octets (bits 6 u ++ (bits 6 v ++ bits 6 w)) =
      [UInt8.ofNat (u * 4 + v / 16), UInt8.ofNat (v % 16 * 16 + w / 4)] := by
  have hlast : octets (bits 2 w) = [] := rfl
  have hsplit : bits 6 u ++ (bits 6 v ++ bits 6 w) =
      (bits 6 u ++ bits 2 (v / 16)) ++ ((bits 4 v ++ bits 4 (w / 4)) ++ bits 2 w) := by
    rw [bits_add 2 4 v, bits_add 4 2 w]
    simp only [List.append_assoc]
    rfl
  rw [hsplit, octets_append (by simp [length_bits]), octets_append (by simp [length_bits]), hlast]
  simp only [ofBits_append, ofBits_bits, length_bits]
  congr 2
  · omega
  congr 2
  omega

theorem octets_two (u v : ℕ) (hu : u < 64) (hv : v < 64) :
    octets (bits 6 u ++ bits 6 v) = [UInt8.ofNat (u * 4 + v / 16)] := by
  have hlast : octets (bits 4 v) = [] := rfl
  have hsplit : bits 6 u ++ bits 6 v = (bits 6 u ++ bits 2 (v / 16)) ++ bits 4 v := by
    rw [bits_add 2 4 v, List.append_assoc]
    rfl
  rw [hsplit, octets_append (by simp [length_bits]), hlast]
  simp only [ofBits_append, ofBits_bits, length_bits]
  congr 2
  omega

/-! The encoder against the standard. -/

/-- The four groups of a packed number. -/
theorem groups_packed (packed : ℕ) :
    packed >>> 18 = packed / 262144 ∧ packed >>> 12 &&& 0x3f = packed / 4096 % 64 ∧
      packed >>> 6 &&& 0x3f = packed / 64 % 64 ∧ packed &&& 0x3f = packed % 64 := by
  refine ⟨Nat.shiftRight_eq_div_pow _ _, ?_, ?_, and_mask packed 6⟩
  · rw [Nat.shiftRight_eq_div_pow]
    exact and_mask _ 6
  · rw [Nat.shiftRight_eq_div_pow]
    exact and_mask _ 6

theorem or_byte (packed : ℕ) (c : UInt8) : packed <<< 8 ||| c.toNat = packed * 256 + c.toNat :=
  shiftLeft_or c.toNat_lt packed

theorem encodeQuantum_three (a b c : UInt8) :
    encodeQuantum [a, b, c] =
      [char (a.toNat / 4), char (a.toNat % 4 * 16 + b.toNat / 16),
        char (b.toNat % 16 * 4 + c.toNat / 64), char (c.toNat % 64)] := by
  have hb := b.toNat_lt
  have hc := c.toNat_lt
  obtain ⟨h₁, h₂, h₃, h₄⟩ := groups_packed ((a.toNat * 256 + b.toNat) * 256 + c.toNat)
  simp only [encodeQuantum, or_byte, List.foldl_cons, List.foldl_nil, List.length_cons,
    List.length_nil, Nat.zero_mul, Nat.zero_add, Nat.reduceAdd, Nat.reduceSub, Nat.mul_zero,
    Nat.shiftLeft_zero, h₁, h₂, h₃, h₄]
  have e₁ : ((a.toNat * 256 + b.toNat) * 256 + c.toNat) / 262144 = a.toNat / 4 := by omega
  have e₂ : ((a.toNat * 256 + b.toNat) * 256 + c.toNat) / 4096 % 64 =
      a.toNat % 4 * 16 + b.toNat / 16 := by omega
  have e₃ : ((a.toNat * 256 + b.toNat) * 256 + c.toNat) / 64 % 64 =
      b.toNat % 16 * 4 + c.toNat / 64 := by omega
  have e₄ : ((a.toNat * 256 + b.toNat) * 256 + c.toNat) % 64 = c.toNat % 64 := by omega
  rw [e₁, e₂, e₃, e₄]
  rfl

theorem encodeQuantum_two (a b : UInt8) :
    encodeQuantum [a, b] =
      [char (a.toNat / 4), char (a.toNat % 4 * 16 + b.toNat / 16), char (b.toNat % 16 * 4),
        61] := by
  have hb := b.toNat_lt
  have hpacked : (a.toNat * 256 + b.toNat) <<< 8 = (a.toNat * 256 + b.toNat) * 256 :=
    Nat.shiftLeft_eq _ _
  obtain ⟨h₁, h₂, h₃, h₄⟩ := groups_packed ((a.toNat * 256 + b.toNat) <<< 8)
  simp only [encodeQuantum, or_byte, List.foldl_cons, List.foldl_nil, List.length_cons,
    List.length_nil, Nat.zero_mul, Nat.zero_add, Nat.reduceAdd, Nat.reduceSub, Nat.reduceMul,
    h₁, h₂, h₃, h₄]
  have e₁ : (a.toNat * 256 + b.toNat) <<< 8 / 262144 = a.toNat / 4 := by omega
  have e₂ : (a.toNat * 256 + b.toNat) <<< 8 / 4096 % 64 =
      a.toNat % 4 * 16 + b.toNat / 16 := by omega
  have e₃ : (a.toNat * 256 + b.toNat) <<< 8 / 64 % 64 = b.toNat % 16 * 4 := by omega
  rw [e₁, e₂, e₃]
  rfl

theorem encodeQuantum_one (a : UInt8) :
    encodeQuantum [a] = [char (a.toNat / 4), char (a.toNat % 4 * 16), 61, 61] := by
  have hpacked : a.toNat <<< 16 = a.toNat * 65536 := Nat.shiftLeft_eq _ _
  obtain ⟨h₁, h₂, h₃, h₄⟩ := groups_packed (a.toNat <<< 16)
  simp only [encodeQuantum, or_byte, List.foldl_cons, List.foldl_nil, List.length_cons,
    List.length_nil, Nat.zero_mul, Nat.zero_add, Nat.reduceSub, Nat.reduceMul, h₁, h₂, h₃, h₄]
  have e₁ : a.toNat <<< 16 / 262144 = a.toNat / 4 := by omega
  have e₂ : a.toNat <<< 16 / 4096 % 64 = a.toNat % 4 * 16 := by omega
  rw [e₁, e₂]
  rfl

theorem rfcEncode_three (a b c : UInt8) (rest : List UInt8) :
    rfcEncode (a :: b :: c :: rest) =
      [char (a.toNat / 4), char (a.toNat % 4 * 16 + b.toNat / 16),
        char (b.toNat % 16 * 4 + c.toNat / 64), char (c.toNat % 64)] ++ rfcEncode rest := by
  have hsextets := sextets_three a.toNat b.toNat c.toNat (rest.flatMap fun c => bits 8 c.toNat)
    a.toNat_lt b.toNat_lt c.toNat_lt
  have hpadding (n : ℕ) : (4 - (n + 1 + 1 + 1 + 1) % 4) % 4 = (4 - n % 4) % 4 := by omega
  simp only [rfcEncode, List.flatMap_cons, hsextets, List.map_cons, List.length_cons, hpadding]
  rfl

theorem base64encode_eq (data : List UInt8) : base64encode data = rfcEncode data := by
  induction data using base64encode.induct with
  | case1 => rfl
  | case2 a =>
    have hsextets := sextets_one a.toNat a.toNat_lt
    rw [base64encode, encodeQuantum_one, rfcEncode, List.flatMap_singleton, hsextets]
    rfl
  | case3 a b =>
    have hsextets := sextets_two a.toNat b.toNat a.toNat_lt b.toNat_lt
    rw [base64encode, encodeQuantum_two, rfcEncode, List.flatMap_cons, List.flatMap_singleton,
      hsextets]
    rfl
  | case4 a b c rest ih =>
    rw [base64encode, encodeQuantum_three, rfcEncode_three, ih]

end Base64
