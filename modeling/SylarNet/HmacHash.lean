import SylarNet.ListOverwrite

/-!
# Keyed hashes

`hmac` over any hash that takes its data piece by piece. A key that is too long is hashed into its
own buffer, and the buffer of the inner digest becomes that of the outer one.
-/
namespace HmacHash

open ListOverwrite (overwrite)

variable {CTX : Type*} {B L : ℕ}

/-- `Init`, `Update` and `Final` of a hash with blocks of `B` and digests of `L` bytes. What was in
the context before `Init`, and how the data was cut, is not in the digest. -/
structure IncrementalHash (CTX : Type*) (B L : ℕ) where
  init : CTX → CTX
  update : CTX → List UInt8 → CTX
  final : CTX → List UInt8 × CTX
  digest_le : L ≤ B
  final_length : ∀ ctx, (final ctx).1.length = L
  final_updates : ∀ ctx ctx' (datas : List (List UInt8)),
    (final (datas.foldl update (init ctx))).1 = (final (update (init ctx') datas.flatten)).1

def resize (s : List UInt8) (n : ℕ) : List UInt8 := s.take n ++ List.replicate (n - s.length) 0

/-- `md5sum` and `sha1sum` -/
def sum (h : IncrementalHash CTX B L) (ctx : CTX) (data : List UInt8) : List UInt8 :=
  overwrite (resize [] L) 0 (h.final (h.update (h.init ctx) data)).1

/-- `keyLocal`, and the context that is left. -/
def keyLocal (h : IncrementalHash CTX B L) (ctx : CTX) (key : List UInt8) : List UInt8 × CTX :=
  if key.length > B then
    let r := h.final (h.update (h.init ctx) key)
    (overwrite (resize key L) 0 r.1, r.2)
  else (key, ctx)

def xorStruct (value : UInt8) (s : List UInt8) : List UInt8 := s.map fun c => c ^^^ value

/-- `hmac`, with what is on the stack where the context is. -/
def hmac (h : IncrementalHash CTX B L) (ctx : CTX) (text key : List UInt8) : List UInt8 :=
  let k := keyLocal h ctx key
  let padded := k.1 ++ List.replicate (B - k.1.length) 0
  let ipad := xorStruct 0x36 padded
  let opad := xorStruct 0x5c padded
  let inner := h.final (h.update (h.update (h.init k.2) (ipad.take B)) text)
  let result := overwrite (resize [] L) 0 inner.1
  let outer := h.final (h.update (h.update (h.init inner.2) (opad.take B)) (result.take L))
  overwrite result 0 outer.1

def hmacMd5 (md5 : IncrementalHash CTX 64 16) : CTX → List UInt8 → List UInt8 → List UInt8 :=
  hmac md5

def hmacSha1 (sha1 : IncrementalHash CTX 64 20) : CTX → List UInt8 → List UInt8 → List UInt8 :=
  hmac sha1

def hmacSha256 (sha256 : IncrementalHash CTX 64 32) :
    CTX → List UInt8 → List UInt8 → List UInt8 :=
  hmac sha256

section Rfc2104

/-- The key of one block. -/
def blockKey (H : List UInt8 → List UInt8) (B : ℕ) (key : List UInt8) : List UInt8 :=
  let short := if key.length > B then H key else key
  short ++ List.replicate (B - short.length) 0

def rfc2104 (H : List UInt8 → List UInt8) (B : ℕ) (text key : List UInt8) : List UInt8 :=
  let K := blockKey H B key
  H (K.map (· ^^^ 0x5c) ++ H (K.map (· ^^^ 0x36) ++ text))

/-- A hash that keeps its data and knows the digest of all of it. -/
def ofFunction (H : List UInt8 → List UInt8) (hlength : ∀ data, (H data).length = L)
    (hle : L ≤ B) : IncrementalHash (List UInt8) B L where
  init _ := []
  update ctx data := ctx ++ data
  final ctx := (H ctx, ctx)
  digest_le := hle
  final_length := hlength
  final_updates ctx ctx' datas := by
    have hfold (front : List UInt8) :
        datas.foldl (fun ctx data => ctx ++ data) front = front ++ datas.flatten := by
      induction datas generalizing front with
      | nil => exact (List.append_nil front).symm
      | cons data datas ih => simp [ih]
    rw [hfold]

end Rfc2104

section Results

variable (h : IncrementalHash CTX B L) (ctx ctx' : CTX) (text key data : List UInt8)

theorem length_resize (s : List UInt8) (n : ℕ) : (resize s n).length = n := by
  simp only [resize, List.length_append, List.length_take, List.length_replicate]
  omega

/-- The digest takes the place of everything in a buffer of its size. -/
theorem overwrite_digest {buffer digest : List UInt8} (hlength : buffer.length = digest.length) :
    overwrite buffer 0 digest = digest := by
  simp [overwrite, ← hlength]

theorem sum_eq : sum h ctx data = (h.final (h.update (h.init ctx) data)).1 :=
  overwrite_digest (by rw [length_resize, h.final_length])

theorem length_sum : (sum h ctx data).length = L := by
  rw [sum_eq, h.final_length]

/-- Whatever is in the context. -/
theorem sum_ctx : sum h ctx data = sum h ctx' data := by
  have hone := h.final_updates ctx ctx' [data]
  rw [List.flatten_singleton] at hone
  rw [sum_eq, sum_eq, ← hone]
  rfl

theorem final_two (first second : List UInt8) :
    (h.final (h.update (h.update (h.init ctx) first) second)).1 = sum h ctx' (first ++ second) := by
  have htwo := h.final_updates ctx ctx' [first, second]
  rw [sum_eq]
  simpa using htwo

theorem keyLocal_eq : (keyLocal h ctx key).1 =
    if key.length > B then sum h ctx' key else key := by
  simp only [keyLocal]
  split_ifs
  · rw [overwrite_digest (by rw [length_resize, h.final_length]), ← sum_eq, sum_ctx h ctx ctx']
  · rfl

theorem length_blockKey : (blockKey (sum h ctx) B key).length = B := by
  have hle := h.digest_le
  have hshort : (if key.length > B then sum h ctx key else key).length ≤ B := by
    split_ifs with hlong
    · rwa [length_sum]
    · omega
  simp only [blockKey, List.length_append, List.length_replicate]
  omega

/-- The construction of RFC 2104 over the code's own sums. -/
theorem hmac_eq_rfc2104 : hmac h ctx text key = rfc2104 (sum h ctx') B text key := by
  have hkey : (keyLocal h ctx key).1 ++
      List.replicate (B - (keyLocal h ctx key).1.length) 0 = blockKey (sum h ctx') B key := by
    rw [keyLocal_eq h ctx ctx']
    rfl
  have hpad (value : UInt8) : (xorStruct value (blockKey (sum h ctx') B key)).take B =
      (blockKey (sum h ctx') B key).map (· ^^^ value) := by
    apply List.take_of_length_le
    exact Nat.le_of_eq (by rw [xorStruct, List.length_map, length_blockKey])
  have hresult (data : List UInt8) :
      overwrite (resize [] L) 0 (sum h ctx' data) = sum h ctx' data :=
    overwrite_digest (by rw [length_resize, length_sum])
  have htake (data : List UInt8) : (sum h ctx' data).take L = sum h ctx' data :=
    List.take_of_length_le (Nat.le_of_eq (length_sum h ctx' data))
  simp only [hmac, hkey, hpad, final_two h _ ctx', hresult, htake]
  -- the outer digest is written over the inner one
  rw [overwrite_digest (by rw [length_sum, length_sum])]
  rfl

theorem sum_ofFunction (H : List UInt8 → List UInt8) (hlength : ∀ data, (H data).length = L)
    (hle : L ≤ B) (ctx : List UInt8) : sum (ofFunction H hlength hle) ctx = H := by
  funext data
  rw [sum_eq]
  rfl

/-- The sum of the bytes, with blocks of two bytes and digests of one. -/
def checksum : IncrementalHash (List UInt8) 2 1 :=
  ofFunction (fun data => [data.foldl (· + ·) 1]) (fun _ => rfl) (by decide)

/-- A key of three bytes is longer than a block. -/
theorem hmac_checksum : hmac checksum [9] [7, 8] [1, 2, 3] =
    rfc2104 (fun data => [data.foldl (· + ·) 1]) 2 [7, 8] [1, 2, 3] := by
  have heq := hmac_eq_rfc2104 checksum [9] [] [7, 8] [1, 2, 3]
  rwa [show sum checksum [] = _ from sum_ofFunction _ _ _ _] at heq

end Results

end HmacHash
