import SylarNet.SylarHttp

/-!
# Data as hexadecimal text

`hexstring_from_data` writes two digits for every byte, `data_from_hexstring` takes two characters
in every round and is given up at the first that is no digit.
-/
namespace HexStrings

open SylarHttp (bytes tolower)

/-- The character for a `c` below 16. -/
def hexDigit (c : UInt8) : UInt8 := if c > 9 then c + 97 - 10 else c + 48

def hexstringFromData : List UInt8 → List UInt8
  | [] => []
  | b :: data => hexDigit (b >>> 4 &&& 0xf) :: hexDigit (b &&& 0xf) :: hexstringFromData data

/-- Both switches over a character. -/
def digitOf (c : UInt8) : Except (List UInt8) UInt8 :=
  if 97 ≤ c ∧ c ≤ 102 then .ok (c - 97 + 10)
  else if 65 ≤ c ∧ c ≤ 70 then .ok (c - 65 + 10)
  else if 48 ≤ c ∧ c ≤ 57 then .ok (c - 48)
  else .error (bytes "data_from_hexstring invalid hexstring")

/-- The loop. A single character has the null byte of the string behind it. -/
def decodeLoop : List UInt8 → Except (List UInt8) (List UInt8)
  | [] => .ok []
  | [c] => do
    let _ ← digitOf c
    digitOf 0 >>= fun _ => .ok []
  | c :: d :: rest => do
    let high ← digitOf c
    let low ← digitOf d
    let data ← decodeLoop rest
    .ok ((high <<< 4 ||| low) :: data)

def dataFromHexstring (hexstring : List UInt8) : Except (List UInt8) (List UInt8) :=
  if hexstring.length % 2 ≠ 0 then .error (bytes "data_from_hexstring length % 2 != 0")
  else decodeLoop hexstring

/-- The characters of `[0-9a-fA-F]`. -/
def isxdigit (c : UInt8) : Bool :=
  48 ≤ c && c ≤ 57 || 97 ≤ c && c ≤ 102 || 65 ≤ c && c ≤ 70

section Digits

variable {b c x high low : UInt8}

theorem digitOf_hexDigit (h : x.toNat < 16) : digitOf (hexDigit x) = .ok x := by
  have htable : ∀ n < 16, digitOf (hexDigit (UInt8.ofNat n)) = .ok (UInt8.ofNat n) := by decide
  simpa using htable x.toNat h

theorem exists_offset {lo hi : UInt8} (hlo : lo ≤ c) (hhi : c ≤ hi) :
    ∃ n < hi.toNat - lo.toNat + 1, c = UInt8.ofNat (lo.toNat + n) := by
  rw [UInt8.le_iff_toNat_le] at hlo hhi
  refine ⟨c.toNat - lo.toNat, by omega, ?_⟩
  rw [Nat.add_sub_cancel' hlo, UInt8.ofNat_toNat]

/-- A digit has a value below 16, whose character it is in lower case. -/
theorem digitOf_ok (h : isxdigit c = true) :
    ∃ x, digitOf c = .ok x ∧ x.toNat < 16 ∧ hexDigit x = tolower c := by
  simp only [isxdigit, Bool.or_eq_true, Bool.and_eq_true, decide_eq_true_eq] at h
  rcases h with (⟨hlo, hhi⟩ | ⟨hlo, hhi⟩) | ⟨hlo, hhi⟩
  · obtain ⟨n, hn, rfl⟩ := exists_offset hlo hhi
    refine ⟨UInt8.ofNat n, ?_⟩
    exact (by decide : ∀ n < 10, digitOf (UInt8.ofNat (48 + n)) = .ok (UInt8.ofNat n) ∧
      (UInt8.ofNat n).toNat < 16 ∧ hexDigit (UInt8.ofNat n) = tolower (UInt8.ofNat (48 + n))) n hn
  · obtain ⟨n, hn, rfl⟩ := exists_offset hlo hhi
    refine ⟨UInt8.ofNat (10 + n), ?_⟩
    exact (by decide : ∀ n < 6, digitOf (UInt8.ofNat (97 + n)) = .ok (UInt8.ofNat (10 + n)) ∧
      (UInt8.ofNat (10 + n)).toNat < 16 ∧
      hexDigit (UInt8.ofNat (10 + n)) = tolower (UInt8.ofNat (97 + n))) n hn
  · obtain ⟨n, hn, rfl⟩ := exists_offset hlo hhi
    refine ⟨UInt8.ofNat (10 + n), ?_⟩
    exact (by decide : ∀ n < 6, digitOf (UInt8.ofNat (65 + n)) = .ok (UInt8.ofNat (10 + n)) ∧
      (UInt8.ofNat (10 + n)).toNat < 16 ∧
      hexDigit (UInt8.ofNat (10 + n)) = tolower (UInt8.ofNat (65 + n))) n hn

theorem digitOf_error (h : isxdigit c = false) :
    digitOf c = .error (bytes "data_from_hexstring invalid hexstring") := by
  simp only [isxdigit, Bool.or_eq_false_iff, Bool.and_eq_false_iff, decide_eq_false_iff_not] at h
  obtain ⟨⟨hdigit, hlower⟩, hupper⟩ := h
  rw [digitOf, if_neg (by tauto), if_neg (by tauto), if_neg (by tauto)]

theorem toNat_low (b : UInt8) : (b &&& 0xf).toNat = b.toNat % 16 :=
  Nat.and_two_pow_sub_one_eq_mod b.toNat 4

theorem toNat_high (b : UInt8) : (b >>> 4 &&& 0xf).toNat = b.toNat / 16 := by
  have hb := b.toNat_lt
  have hshift : (b >>> 4).toNat = b.toNat / 16 := Nat.shiftRight_eq_div_pow b.toNat 4
  rw [toNat_low, hshift]
  omega

theorem high_lt (b : UInt8) : (b >>> 4 &&& 0xf).toNat < 16 := by
  have hb := b.toNat_lt
  rw [toNat_high]
  omega

theorem low_lt (b : UInt8) : (b &&& 0xf).toNat < 16 := by
  rw [toNat_low]
  exact Nat.mod_lt _ (by decide)

theorem toNat_byte (hhigh : high.toNat < 16) (hlow : low.toNat < 16) :
    (high <<< 4 ||| low).toNat = 16 * high.toNat + low.toNat := by
  have hshift : (high <<< 4).toNat = high.toNat <<< 4 := by
    rw [UInt8.toNat_shiftLeft]
    apply Nat.mod_eq_of_lt
    change high.toNat <<< 4 < 256
    rw [Nat.shiftLeft_eq]
    omega
  rw [UInt8.toNat_or, hshift, ← Nat.shiftLeft_add_eq_or_of_lt (i := 4) hlow, Nat.shiftLeft_eq]
  omega

theorem high_byte (hhigh : high.toNat < 16) (hlow : low.toNat < 16) :
    (high <<< 4 ||| low) >>> 4 &&& 0xf = high := by
  rw [← UInt8.toNat_inj, toNat_high, toNat_byte hhigh hlow]
  omega

theorem low_byte (hhigh : high.toNat < 16) (hlow : low.toNat < 16) :
    (high <<< 4 ||| low) &&& 0xf = low := by
  rw [← UInt8.toNat_inj, toNat_low, toNat_byte hhigh hlow]
  omega

/-- The halves of a byte make the byte. -/
theorem byte_halves (b : UInt8) : (b >>> 4 &&& 0xf) <<< 4 ||| (b &&& 0xf) = b := by
  rw [← UInt8.toNat_inj, toNat_byte (high_lt b) (low_lt b), toNat_high, toNat_low]
  exact Nat.div_add_mod b.toNat 16

end Digits

section Results

variable {data text rest : List UInt8} {c d high low : UInt8}

theorem decodeLoop_cons (hc : digitOf c = .ok high) (hd : digitOf d = .ok low) :
    decodeLoop (c :: d :: rest) = (decodeLoop rest).map fun data =>
      (high <<< 4 ||| low) :: data := by
  simp only [decodeLoop, hc, hd, bind, Except.bind, Except.map]

theorem length_hexstringFromData (data : List UInt8) :
    (hexstringFromData data).length = 2 * data.length := by
  induction data with
  | nil => rfl
  | cons b data ih =>
    rw [hexstringFromData, List.length_cons, List.length_cons, List.length_cons, ih]
    omega

theorem decodeLoop_hexstring (data : List UInt8) :
    decodeLoop (hexstringFromData data) = .ok data := by
  induction data with
  | nil => rfl
  | cons b data ih =>
    have hhigh := digitOf_hexDigit (high_lt b)
    have hlow := digitOf_hexDigit (low_lt b)
    rw [hexstringFromData, decodeLoop_cons hhigh hlow, ih, byte_halves]
    rfl

/-- Text of digits is decoded, and encoded again it is in lower case. -/
theorem decodeLoop_ok (h : ∀ c ∈ text, isxdigit c = true) (heven : text.length % 2 = 0) :
    ∃ data, decodeLoop text = .ok data ∧ hexstringFromData data = text.map tolower := by
  induction text using decodeLoop.induct with
  | case1 => exact ⟨[], rfl, rfl⟩
  | case2 c => exact absurd heven (by simp)
  | case3 c d rest ih =>
    simp only [List.forall_mem_cons] at h
    obtain ⟨hc, hd, hrest⟩ := h
    obtain ⟨high, hhigh, hhighlt, hhighchar⟩ := digitOf_ok hc
    obtain ⟨low, hlow, hlowlt, hlowchar⟩ := digitOf_ok hd
    have hlength : rest.length % 2 = 0 := by
      rw [List.length_cons, List.length_cons] at heven
      omega
    obtain ⟨data, hdata, htext⟩ := ih hrest hlength
    refine ⟨(high <<< 4 ||| low) :: data, ?_, ?_⟩
    · rw [decodeLoop_cons hhigh hlow, hdata]
      rfl
    · rw [hexstringFromData, high_byte hhighlt hlowlt, low_byte hhighlt hlowlt, hhighchar,
        hlowchar, htext]
      rfl

/-- A character that is no digit is found wherever it is. -/
theorem decodeLoop_error (h : ∃ c ∈ text, isxdigit c = false) :
    decodeLoop text = .error (bytes "data_from_hexstring invalid hexstring") := by
  induction text using decodeLoop.induct with
  | case1 => simp at h
  | case2 c =>
    have hc : isxdigit c = false := by simpa using h
    simp [decodeLoop, digitOf_error hc, bind, Except.bind]
  | case3 c d rest ih =>
    cases hc : isxdigit c with
    | false => simp [decodeLoop, digitOf_error hc, bind, Except.bind]
    | true =>
      obtain ⟨high, hhigh, -⟩ := digitOf_ok hc
      cases hd : isxdigit d with
      | false => simp [decodeLoop, hhigh, digitOf_error hd, bind, Except.bind]
      | true =>
        obtain ⟨low, hlow, -⟩ := digitOf_ok hd
        have hrest : ∃ c ∈ rest, isxdigit c = false := by simpa [hc, hd] using h
        rw [decodeLoop_cons hhigh hlow, ih hrest]
        rfl

theorem decode_odd (h : text.length % 2 = 1) : dataFromHexstring text =
    .error (bytes "data_from_hexstring length % 2 != 0") := by
  rw [dataFromHexstring, if_pos (by omega)]

theorem decode_even (h : text.length % 2 = 0) : dataFromHexstring text = decodeLoop text := by
  rw [dataFromHexstring, if_neg (by omega)]

/-- What is not rejected is text of whole bytes. -/
theorem decode_cases (text : List UInt8) :
    (∃ what, dataFromHexstring text = .error what) ∧
      (text.length % 2 = 1 ∨ ∃ c ∈ text, isxdigit c = false) ∨
    (∃ data, dataFromHexstring text = .ok data ∧ hexstringFromData data = text.map tolower) ∧
      text.length % 2 = 0 ∧ ∀ c ∈ text, isxdigit c = true := by
  by_cases heven : text.length % 2 = 0
  · by_cases hbad : ∃ c ∈ text, isxdigit c = false
    · exact Or.inl ⟨⟨_, (decode_even heven).trans (decodeLoop_error hbad)⟩, Or.inr hbad⟩
    · have hall : ∀ c ∈ text, isxdigit c = true := by simpa using hbad
      obtain ⟨data, hdata, htext⟩ := decodeLoop_ok hall heven
      exact Or.inr ⟨⟨data, (decode_even heven).trans hdata, htext⟩, heven, hall⟩
  · have hodd : text.length % 2 = 1 := by omega
    exact Or.inl ⟨⟨_, decode_odd hodd⟩, Or.inl hodd⟩

/-- Decoding is the inverse of encoding, rejects exactly what is no text of whole bytes, and loses
nothing but the case of the digits. -/
theorem hex_codec (data text : List UInt8) :
    dataFromHexstring (hexstringFromData data) = .ok data ∧
    ((∃ what, dataFromHexstring text = .error what) ↔
      text.length % 2 = 1 ∨ ∃ c ∈ text, isxdigit c = false) ∧
    ∀ decoded, dataFromHexstring text = .ok decoded →
      hexstringFromData decoded = text.map tolower := by
  refine ⟨?_, ?_⟩
  · rw [decode_even (by rw [length_hexstringFromData]; omega)]
    exact decodeLoop_hexstring data
  · rcases decode_cases text with ⟨⟨what, herror⟩, hbad⟩ | ⟨⟨data, hdata, htext⟩, heven, hall⟩
    · refine ⟨iff_of_true ⟨what, herror⟩ hbad, ?_⟩
      intro decoded hdecoded
      cases herror.symm.trans hdecoded
    · constructor
      · apply iff_of_false
        · rintro ⟨what, herror⟩
          cases hdata.symm.trans herror
        · rintro (hodd | ⟨c, hc, hbad⟩)
          · omega
          · exact absurd (hall c hc) (Bool.eq_false_iff.1 hbad)
      · intro decoded hdecoded
        cases hdata.symm.trans hdecoded
        exact htext

end Results

end HexStrings
