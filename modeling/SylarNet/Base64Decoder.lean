import Mathlib.Tactic.SplitIfs
import SylarNet.Base64

/-!
# The decoder of Base64

What `base64decode` accepts and what it makes of it, by quanta of four characters.
-/
namespace Base64

open BitStrings

/-! The alphabet. -/

theorem base64_eq : base64 =
    (List.range' 65 26 ++ List.range' 97 26 ++ List.range' 48 10 ++ [43, 47]).map UInt8.ofNat := by
  decide +kernel

theorem char_spec : ∀ v < 64, index (char v) = some v ∧ char v ≠ 61 ∧ char v ∈ base64 ∧
    base64.idxOf (char v) = v := by
  simp only [char, base64_eq]
  decide +kernel

theorem char_idxOf {c : UInt8} (h : c ∈ base64) :
    base64.idxOf c < 64 ∧ char (base64.idxOf c) = c := by
  have hlt := List.idxOf_lt_length_of_mem h
  refine ⟨hlt, ?_⟩
  rw [char, List.getD_eq_getElem _ _ hlt, List.getElem_idxOf]

/-- What the comparisons of the decoder let through is in the table. -/
theorem mem_of_index {c : UInt8} {v : ℕ} (h : index c = some v) : c ∈ base64 := by
  have hcode : c.toNat ∈
      List.range' 65 26 ++ List.range' 97 26 ++ List.range' 48 10 ++ [43, 47] := by
    simp only [List.mem_append, List.mem_range'_1, List.mem_cons, List.not_mem_nil]
    unfold index at h
    split_ifs at h with hupper hlower hdigit hplus hslash
    · simp only [UInt8.le_iff_toNat_le, UInt8.reduceToNat] at hupper
      omega
    · simp only [UInt8.le_iff_toNat_le, UInt8.reduceToNat] at hlower
      omega
    · simp only [UInt8.le_iff_toNat_le, UInt8.reduceToNat] at hdigit
      omega
    · rw [hplus]
      decide
    · rw [hslash]
      decide
  rw [base64_eq]
  exact List.mem_map.2 ⟨c.toNat, hcode, UInt8.ofNat_toNat⟩

/-- The comparisons of the decoder find the place in the table. -/
theorem index_eq (c : UInt8) : index c = if c ∈ base64 then some (base64.idxOf c) else none := by
  split
  · rename_i hmem
    obtain ⟨hlt, hchar⟩ := char_idxOf hmem
    rw [← (char_spec _ hlt).1, hchar]
  · rename_i hmem
    cases hindex : index c with
    | none => rfl
    | some v => exact absurd (mem_of_index hindex) hmem

theorem char_of_index {c : UInt8} {v : ℕ} (h : index c = some v) : v < 64 ∧ char v = c := by
  rw [index_eq] at h
  split at h
  · rename_i hmem
    rw [← Option.some.inj h]
    exact char_idxOf hmem
  · cases h

/-- The characters of a body are those of the values it stands for. -/
theorem body_eq_map {body : List UInt8} (h : ∀ c ∈ body, c ∈ base64) :
    (∀ v ∈ body.map base64.idxOf, v < 64) ∧ (body.map base64.idxOf).map char = body := by
  constructor
  · intro v hv
    obtain ⟨c, hc, rfl⟩ := List.mem_map.1 hv
    exact (char_idxOf (h c hc)).1
  · rw [List.map_map]
    have hid : ∀ c ∈ body, (char ∘ base64.idxOf) c = id c := fun c hc => (char_idxOf (h c hc)).2
    rw [List.map_congr_left hid, List.map_id]

/-! What the inner loop makes of the characters it takes. -/

def number (vs : List ℕ) (packed : ℕ) : ℕ := vs.foldl (fun packed v => packed * 64 + v) packed

theorem readChars_padding (n padding packed : ℕ) :
    readChars (List.replicate n 61) ⟨padding, packed⟩ = some ⟨padding + n, packed * 64 ^ n⟩ := by
  induction n generalizing padding packed with
  | zero => rw [Nat.pow_zero, Nat.mul_one]; rfl
  | succ n ih =>
    have hpacked : packed <<< 6 * 64 ^ n = packed * 64 ^ (n + 1) := by
      rw [Nat.shiftLeft_eq, Nat.mul_assoc, Nat.pow_succ' (m := 64)]
    rw [List.replicate_succ, readChars, if_pos rfl]
    change readChars _ ⟨padding + 1, packed <<< 6⟩ = _
    rw [ih, hpacked, Nat.add_assoc, Nat.add_comm 1]

theorem readChars_body (vs : List ℕ) (hvs : ∀ v ∈ vs, v < 64) (n packed : ℕ) :
    readChars (vs.map char ++ List.replicate n 61) ⟨0, packed⟩ =
      some ⟨n, number vs packed * 64 ^ n⟩ := by
  induction vs generalizing packed with
  | nil => rw [List.map_nil, List.nil_append, readChars_padding, Nat.zero_add]; rfl
  | cons v vs ih =>
    rw [List.forall_mem_cons] at hvs
    obtain ⟨hindex, hchar, -⟩ := char_spec v hvs.1
    rw [List.map_cons, List.cons_append, readChars, if_neg hchar, if_neg (Nat.lt_irrefl 0), hindex]
    change readChars _ ⟨0, packed <<< 6 ||| v⟩ = _
    rw [shiftLeft_or hvs.1, ih hvs.2]
    rfl

/-- After padding has begun only padding is taken. -/
theorem readChars_padded {taken : List UInt8} {q q' : Quantum} (hq : 0 < q.padding)
    (h : readChars taken q = some q') :
    taken = List.replicate taken.length 61 ∧ q'.padding = q.padding + taken.length := by
  induction taken generalizing q with
  | nil =>
    cases h
    exact ⟨rfl, rfl⟩
  | cons c taken ih =>
    rw [readChars] at h
    by_cases hc : c = 61
    · rw [if_pos hc] at h
      obtain ⟨htaken, hpadding⟩ := ih (Nat.succ_pos _) h
      refine ⟨?_, ?_⟩
      · rw [List.length_cons, List.replicate_succ, ← htaken, hc]
      · change q'.padding = q.padding + 1 + taken.length at hpadding
        rw [hpadding, List.length_cons, Nat.add_assoc, Nat.add_comm 1]
    · rw [if_neg hc, if_pos hq] at h
      cases h

theorem readChars_shape {taken : List UInt8} {packed : ℕ} {q : Quantum}
    (h : readChars taken ⟨0, packed⟩ = some q) : ∃ vs : List ℕ, (∀ v ∈ vs, v < 64) ∧
      taken = vs.map char ++ List.replicate q.padding 61 := by
  induction taken generalizing packed with
  | nil =>
    cases h
    exact ⟨[], by simp, rfl⟩
  | cons c taken ih =>
    rw [readChars] at h
    by_cases hc : c = 61
    · rw [if_pos hc] at h
      obtain ⟨htaken, hpadding⟩ := readChars_padded (Nat.succ_pos 0) h
      refine ⟨[], by simp, ?_⟩
      rw [hpadding, hc, htaken, List.length_replicate, Nat.add_comm]
      rfl
    · rw [if_neg hc, if_neg (Nat.lt_irrefl 0)] at h
      cases hindex : index c with
      | none => rw [hindex] at h; cases h
      | some v =>
        rw [hindex] at h
        obtain ⟨hv, hchar⟩ := char_of_index hindex
        obtain ⟨vs, hvs, htaken⟩ := ih h
        refine ⟨v :: vs, List.forall_mem_cons.2 ⟨hv, hvs⟩, ?_⟩
        rw [List.map_cons, hchar, List.cons_append, ← htaken]

/-! What the outer loop writes. -/

def quantumBytes (q : Quantum) : List UInt8 :=
  [UInt8.ofNat (q.packed / 65536 % 256), UInt8.ofNat (q.packed / 256 % 256),
    UInt8.ofNat (q.packed % 256)].take (3 - q.padding)

theorem length_quantumBytes (q : Quantum) : (quantumBytes q).length = 3 - q.padding := by
  rw [quantumBytes, List.length_take]
  exact Nat.min_eq_left (Nat.sub_le _ _)

theorem write_eq {capacity : ℕ} {out : List UInt8} (h : out.length < capacity) (c : ℕ) :
    write capacity out c = some (out ++ [UInt8.ofNat c]) := if_pos h

/-- With room for its bytes, a quantum is written. -/
theorem writeQuantum_eq {capacity : ℕ} {out : List UInt8} {q : Quantum} (hq : q.padding ≤ 2)
    (h : out.length + (3 - q.padding) ≤ capacity) :
    writeQuantum capacity out q = some (out ++ quantumBytes q) := by
  obtain ⟨padding, packed⟩ := q
  have h₁ : packed >>> 16 &&& 0xff = packed / 65536 % 256 := by
    rw [Nat.shiftRight_eq_div_pow]
    exact and_mask _ 8
  have h₂ : packed >>> 8 &&& 0xff = packed / 256 % 256 := by
    rw [Nat.shiftRight_eq_div_pow]
    exact and_mask _ 8
  have h₃ : packed &&& 0xff = packed % 256 := and_mask _ 8
  change padding ≤ 2 at hq
  change out.length + (3 - padding) ≤ capacity at h
  have hpadding : padding = 0 ∨ padding = 1 ∨ padding = 2 := by omega
  simp only [writeQuantum, h₁, h₂, h₃, quantumBytes]
  rw [write_eq (by omega)]
  rcases hpadding with rfl | rfl | rfl
  · simp only [Option.bind_eq_bind, Option.bind_some]
    rw [if_pos (by decide), write_eq (by simp; omega)]
    simp only [Option.bind_some]
    rw [if_pos trivial, write_eq (by simp; omega)]
    simp
  · simp only [Option.bind_eq_bind, Option.bind_some]
    rw [if_pos (by decide), write_eq (by simp; omega)]
    simp
  · simp

/-- A quantum that is not refused: the loop goes on behind it. -/
theorem decodeLoop_quantum {capacity : ℕ} {taken : List UInt8} {q : Quantum}
    (rest out : List UInt8) (htaken : taken.length = 4)
    (hread : readChars taken ⟨0, 0⟩ = some q) (hq : q.padding ≤ 2)
    (hlast : q.padding = 0 ∨ rest = []) (h : out.length + (3 - q.padding) ≤ capacity) :
    decodeLoop capacity (taken ++ rest) out =
      decodeLoop capacity rest (out ++ quantumBytes q) := by
  match taken, htaken with
  | [a, b, c, d], _ =>
    have hrest : ¬ (0 < q.padding ∧ rest ≠ []) := by
      rintro ⟨hpos, hne⟩
      rcases hlast with hzero | hnil
      · omega
      · exact hne hnil
    simp only [List.cons_append, List.nil_append, decodeLoop, hread]
    rw [if_neg hrest, if_neg (by omega), writeQuantum_eq hq h]

/-! The bytes of a quantum are the octets of its values. -/

theorem quantumBytes_four (u v w x : ℕ) (hu : u < 64) (hv : v < 64) (hw : w < 64) (hx : x < 64) :
    quantumBytes ⟨0, number [u, v, w, x] 0 * 64 ^ 0⟩ =
      [UInt8.ofNat (u * 4 + v / 16), UInt8.ofNat (v % 16 * 16 + w / 4),
        UInt8.ofNat (w % 4 * 64 + x)] := by
  have hnumber : number [u, v, w, x] 0 * 64 ^ 0 = ((u * 64 + v) * 64 + w) * 64 + x := by
    simp [number]
  have e₁ : (((u * 64 + v) * 64 + w) * 64 + x) / 65536 % 256 = u * 4 + v / 16 := by omega
  have e₂ : (((u * 64 + v) * 64 + w) * 64 + x) / 256 % 256 = v % 16 * 16 + w / 4 := by omega
  have e₃ : (((u * 64 + v) * 64 + w) * 64 + x) % 256 = w % 4 * 64 + x := by omega
  rw [hnumber, quantumBytes]
  simp only [e₁, e₂, e₃]
  rfl

theorem quantumBytes_three (u v w : ℕ) (hu : u < 64) (hv : v < 64) (hw : w < 64) :
    quantumBytes ⟨1, number [u, v, w] 0 * 64 ^ 1⟩ =
      [UInt8.ofNat (u * 4 + v / 16), UInt8.ofNat (v % 16 * 16 + w / 4)] := by
  have hnumber : number [u, v, w] 0 * 64 ^ 1 = ((u * 64 + v) * 64 + w) * 64 := by
    simp [number]
  have e₁ : ((u * 64 + v) * 64 + w) * 64 / 65536 % 256 = u * 4 + v / 16 := by omega
  have e₂ : ((u * 64 + v) * 64 + w) * 64 / 256 % 256 = v % 16 * 16 + w / 4 := by omega
  rw [hnumber, quantumBytes]
  simp only [e₁, e₂]
  rfl

theorem quantumBytes_two (u v : ℕ) (hu : u < 64) (hv : v < 64) :
    quantumBytes ⟨2, number [u, v] 0 * 64 ^ 2⟩ = [UInt8.ofNat (u * 4 + v / 16)] := by
  have hnumber : number [u, v] 0 * 64 ^ 2 = (u * 64 + v) * 4096 := by
    simp [number]
  have e₁ : (u * 64 + v) * 4096 / 65536 % 256 = u * 4 + v / 16 := by omega
  rw [hnumber, quantumBytes]
  simp only [e₁]
  rfl

/-! The decoder on an encoding, by quanta from the front. -/

theorem decodeLoop_encoding {capacity : ℕ} : ∀ (vs : List ℕ) (padding : ℕ) (out : List UInt8),
    (∀ v ∈ vs, v < 64) → padding ≤ 2 → (vs.length + padding) % 4 = 0 →
    out.length + (vs.length + padding) / 4 * 3 ≤ capacity →
    decodeLoop capacity (vs.map char ++ List.replicate padding 61) out =
      some (out ++ octets (vs.flatMap (bits 6)))
  | [], padding, out, _, hpadding, hquanta, _ => by
    rw [List.length_nil] at hquanta
    have hzero : padding = 0 := by omega
    rw [hzero]
    simp [decodeLoop, octets]
  | [v], padding, out, _, hpadding, hquanta, _ => by
    rw [List.length_singleton] at hquanta
    omega
  | [u, v], padding, out, hvs, hpadding, hquanta, hroom => by
    simp only [List.length_cons, List.length_nil] at hquanta hroom
    have htwo : padding = 2 := by omega
    subst htwo
    have hread := readChars_body [u, v] hvs 2 0
    simp only [List.forall_mem_cons] at hvs
    have hroom' : out.length + (3 - 2) ≤ capacity := by omega
    have hlast := decodeLoop_quantum [] out rfl hread (Nat.le_refl 2) (Or.inr rfl) hroom'
    rw [List.append_nil, quantumBytes_two u v hvs.1 hvs.2.1] at hlast
    rw [hlast]
    simp [decodeLoop, octets_two u v hvs.1 hvs.2.1]
  | [u, v, w], padding, out, hvs, hpadding, hquanta, hroom => by
    simp only [List.length_cons, List.length_nil] at hquanta hroom
    have hone : padding = 1 := by omega
    subst hone
    have hread := readChars_body [u, v, w] hvs 1 0
    simp only [List.forall_mem_cons] at hvs
    have hroom' : out.length + (3 - 1) ≤ capacity := by omega
    have hlast := decodeLoop_quantum [] out rfl hread hpadding (Or.inr rfl) hroom'
    rw [List.append_nil, quantumBytes_three u v w hvs.1 hvs.2.1 hvs.2.2.1] at hlast
    rw [hlast]
    simp [decodeLoop, octets_three u v w hvs.1 hvs.2.1 hvs.2.2.1]
  | u :: v :: w :: x :: vs, padding, out, hvs, hpadding, hquanta, hroom => by
    simp only [List.length_cons] at hquanta hroom
    simp only [List.forall_mem_cons] at hvs
    obtain ⟨hu, hv, hw, hx, hvs⟩ := hvs
    have hread := readChars_body [u, v, w, x] (by simp [hu, hv, hw, hx]) 0 0
    have hroom' : out.length + (3 - 0) ≤ capacity := by omega
    have hquantum := decodeLoop_quantum (vs.map char ++ List.replicate padding 61) out rfl hread
      (Nat.zero_le 2) (Or.inl rfl) hroom'
    rw [quantumBytes_four u v w x hu hv hw hx, decodeLoop_encoding vs padding _ hvs hpadding
      (by omega) (by simp only [List.length_append, List.length_cons, List.length_nil]; omega)]
      at hquantum
    simp only [List.flatMap_cons, octets_four u v w x _ hu hv hw hx]
    refine Eq.trans ?_ (hquantum.trans ?_)
    · rfl
    · simp

/-- A string is what the decoder accepts with these values and this much padding. -/
structure Shape (s : List UInt8) (vs : List ℕ) (padding : ℕ) : Prop where
  values : ∀ v ∈ vs, v < 64
  padding_le : padding ≤ 2
  quanta : s.length % 4 = 0
  text : s = vs.map char ++ List.replicate padding 61

/-- Whatever the string: the decoder stays inside its buffer, and what is not an encoding gives
the empty string. -/
theorem decodeLoop_total {capacity : ℕ} : ∀ s out : List UInt8,
    out.length + s.length / 4 * 3 ≤ capacity →
    ∃ r, decodeLoop capacity s out = some r ∧ (r = [] ∨ ∃ vs padding, Shape s vs padding)
  | [], out, _ => ⟨out, rfl, Or.inr ⟨[], 0, by simp, Nat.zero_le 2, rfl, rfl⟩⟩
  | [_], _, _ => ⟨[], rfl, Or.inl rfl⟩
  | [_, _], _, _ => ⟨[], rfl, Or.inl rfl⟩
  | [_, _, _], _, _ => ⟨[], rfl, Or.inl rfl⟩
  | a :: b :: c :: d :: rest, out, hroom => by
    simp only [List.length_cons] at hroom
    cases hread : readChars [a, b, c, d] ⟨0, 0⟩ with
    | none => exact ⟨[], by simp only [decodeLoop, hread], Or.inl rfl⟩
    | some q =>
      by_cases hrefused : (0 < q.padding ∧ rest ≠ []) ∨ 2 < q.padding
      · refine ⟨[], ?_, Or.inl rfl⟩
        simp only [decodeLoop, hread]
        by_cases hfirst : 0 < q.padding ∧ rest ≠ []
        · rw [if_pos hfirst]
        · rw [if_neg hfirst, if_pos (hrefused.resolve_left hfirst)]
      · obtain ⟨hlast, hpadding⟩ := not_or.1 hrefused
        have hq : q.padding ≤ 2 := Nat.le_of_not_lt hpadding
        have hlast : q.padding = 0 ∨ rest = [] := by
          by_contra h
          obtain ⟨hpos, hne⟩ := not_or.1 h
          exact hlast ⟨Nat.pos_of_ne_zero hpos, hne⟩
        obtain ⟨us, hus, htaken⟩ := readChars_shape hread
        have hquantum : decodeLoop capacity (a :: b :: c :: d :: rest) out =
            decodeLoop capacity rest (out ++ quantumBytes q) :=
          decodeLoop_quantum rest out rfl hread hq hlast (by omega)
        rw [hquantum]
        rcases hlast with hzero | rfl
        · have hroom' : (out ++ quantumBytes q).length + rest.length / 4 * 3 ≤ capacity := by
            rw [List.length_append, length_quantumBytes]
            omega
          obtain ⟨r, hr, hshape⟩ := decodeLoop_total rest _ hroom'
          refine ⟨r, hr, hshape.imp_right ?_⟩
          rintro ⟨vs, padding, hvs, hpadding, hquanta, htext⟩
          refine ⟨us ++ vs, padding, List.forall_mem_append.2 ⟨hus, hvs⟩, hpadding, ?_, ?_⟩
          · simp only [List.length_cons]
            omega
          · rw [hzero, List.replicate_zero, List.append_nil] at htaken
            rw [List.map_append, ← htaken, List.append_assoc, ← htext]
            rfl
        · exact ⟨_, rfl, Or.inr ⟨us, q.padding, hus, hq, Nat.mod_self 4, htaken⟩⟩

/-! Encoding what was decoded. -/

/-- The bits of a body that no octet takes. -/
def restBits (vs : List ℕ) : List Bool :=
  (vs.flatMap (bits 6)).drop (8 * ((vs.flatMap (bits 6)).length / 8))

theorem restBits_two (u v : ℕ) : restBits [u, v] = bits 4 v := by
  have hsplit : [u, v].flatMap (bits 6) = (bits 6 u ++ bits 2 (v / 16)) ++ bits 4 v := by
    simp only [List.flatMap_cons, List.flatMap_nil, List.append_nil, bits_add 2 4 v,
      List.append_assoc]
    rfl
  rw [restBits, hsplit]
  exact List.drop_left' (by simp [length_bits])

theorem restBits_three (u v w : ℕ) : restBits [u, v, w] = bits 2 w := by
  have hsplit : [u, v, w].flatMap (bits 6) =
      (bits 6 u ++ bits 6 v ++ bits 4 (w / 4)) ++ bits 2 w := by
    simp only [List.flatMap_cons, List.flatMap_nil, List.append_nil, bits_add 4 2 w,
      List.append_assoc]
    rfl
  rw [restBits, hsplit]
  exact List.drop_left' (by simp [length_bits])

theorem restBits_four (u v w x : ℕ) (vs : List ℕ) :
    restBits (u :: v :: w :: x :: vs) = restBits vs := by
  have hsplit : (u :: v :: w :: x :: vs).flatMap (bits 6) =
      (bits 6 u ++ bits 6 v ++ bits 6 w ++ bits 6 x) ++ vs.flatMap (bits 6) := by
    simp only [List.flatMap_cons, List.append_assoc]
  have hlength : (bits 6 u ++ bits 6 v ++ bits 6 w ++ bits 6 x).length = 24 := by
    simp [length_bits]
  have hdrop (n : ℕ) : 8 * ((24 + n) / 8) = 24 + 8 * (n / 8) := by omega
  rw [restBits, hsplit, List.length_append, hlength, hdrop, ← List.drop_drop,
    List.drop_left' hlength, restBits]

theorem toNat_ofNat {n : ℕ} (h : n < 256) : (UInt8.ofNat n).toNat = n := by
  rw [UInt8.toNat_ofNat']
  exact Nat.mod_eq_of_lt h

theorem base64encode_octets : ∀ (vs : List ℕ) (padding : ℕ), (∀ v ∈ vs, v < 64) → padding ≤ 2 →
    (vs.length + padding) % 4 = 0 → (∀ b ∈ restBits vs, b = false) →
    base64encode (octets (vs.flatMap (bits 6))) = vs.map char ++ List.replicate padding 61
  | [], padding, _, hpadding, hquanta, _ => by
    rw [List.length_nil] at hquanta
    have hzero : padding = 0 := by omega
    rw [hzero]
    rfl
  | [v], padding, _, hpadding, hquanta, _ => by
    rw [List.length_singleton] at hquanta
    omega
  | [u, v], padding, hvs, hpadding, hquanta, hunused => by
    simp only [List.length_cons, List.length_nil] at hquanta
    have htwo : padding = 2 := by omega
    subst htwo
    simp only [List.forall_mem_cons] at hvs
    obtain ⟨hu, hv, -⟩ := hvs
    have hzero : v % 16 = 0 := by
      have h := ofBits_unused hunused
      rwa [restBits_two, ofBits_bits] at h
    have hbytes : octets ([u, v].flatMap (bits 6)) = [UInt8.ofNat (u * 4 + v / 16)] := by
      simp [octets_two u v hu hv]
    have e₁ : (u * 4 + v / 16) / 4 = u := by omega
    have e₂ : (u * 4 + v / 16) % 4 * 16 = v := by omega
    rw [hbytes, base64encode, encodeQuantum_one, toNat_ofNat (by omega), e₁, e₂]
    rfl
  | [u, v, w], padding, hvs, hpadding, hquanta, hunused => by
    simp only [List.length_cons, List.length_nil] at hquanta
    have hone : padding = 1 := by omega
    subst hone
    simp only [List.forall_mem_cons] at hvs
    obtain ⟨hu, hv, hw, -⟩ := hvs
    have hzero : w % 4 = 0 := by
      have h := ofBits_unused hunused
      rwa [restBits_three, ofBits_bits] at h
    have hbytes : octets ([u, v, w].flatMap (bits 6)) =
        [UInt8.ofNat (u * 4 + v / 16), UInt8.ofNat (v % 16 * 16 + w / 4)] := by
      simp [octets_three u v w hu hv hw]
    have e₁ : (u * 4 + v / 16) / 4 = u := by omega
    have e₂ : (u * 4 + v / 16) % 4 * 16 + (v % 16 * 16 + w / 4) / 16 = v := by omega
    have e₃ : (v % 16 * 16 + w / 4) % 16 * 4 = w := by omega
    rw [hbytes, base64encode, encodeQuantum_two, toNat_ofNat (by omega), toNat_ofNat (by omega),
      e₁, e₂, e₃]
    rfl
  | u :: v :: w :: x :: vs, padding, hvs, hpadding, hquanta, hunused => by
    simp only [List.length_cons] at hquanta
    simp only [List.forall_mem_cons] at hvs
    obtain ⟨hu, hv, hw, hx, hvs⟩ := hvs
    rw [restBits_four] at hunused
    have hbytes : octets ((u :: v :: w :: x :: vs).flatMap (bits 6)) =
        UInt8.ofNat (u * 4 + v / 16) :: UInt8.ofNat (v % 16 * 16 + w / 4) ::
          UInt8.ofNat (w % 4 * 64 + x) :: octets (vs.flatMap (bits 6)) := by
      simp only [List.flatMap_cons, octets_four u v w x _ hu hv hw hx]
    have e₁ : (u * 4 + v / 16) / 4 = u := by omega
    have e₂ : (u * 4 + v / 16) % 4 * 16 + (v % 16 * 16 + w / 4) / 16 = v := by omega
    have e₃ : (v % 16 * 16 + w / 4) % 16 * 4 + (w % 4 * 64 + x) / 64 = w := by omega
    have e₄ : (w % 4 * 64 + x) % 64 = x := by omega
    rw [hbytes, base64encode, encodeQuantum_three, toNat_ofNat (by omega),
      toNat_ofNat (by omega), toNat_ofNat (by omega), e₁, e₂, e₃, e₄,
      base64encode_octets vs padding hvs hpadding (by omega) hunused]
    rfl

/-- What the encoder writes has the shape of an encoding, and its values are those of the data. -/
theorem base64encode_shape : ∀ data : List UInt8, ∃ (vs : List ℕ) (padding : ℕ),
    (∀ v ∈ vs, v < 64) ∧ padding ≤ 2 ∧ (vs.length + padding) % 4 = 0 ∧
      base64encode data = vs.map char ++ List.replicate padding 61 ∧
      octets (vs.flatMap (bits 6)) = data
  | [] => ⟨[], 0, by simp, Nat.zero_le 2, rfl, rfl, rfl⟩
  | [a] => by
    have ha := a.toNat_lt
    have hbytes := octets_two (a.toNat / 4) (a.toNat % 4 * 16) (by omega) (by omega)
    have e₁ : a.toNat / 4 * 4 + a.toNat % 4 * 16 / 16 = a.toNat := by omega
    rw [e₁, UInt8.ofNat_toNat] at hbytes
    refine ⟨[a.toNat / 4, a.toNat % 4 * 16], 2, ?_, Nat.le_refl 2, Nat.mod_self 4, ?_, ?_⟩
    · simp only [List.forall_mem_cons]
      exact ⟨by omega, by omega, by simp⟩
    · rw [base64encode, encodeQuantum_one]
      rfl
    · simpa using hbytes
  | [a, b] => by
    have ha := a.toNat_lt
    have hb := b.toNat_lt
    have hbytes := octets_three (a.toNat / 4) (a.toNat % 4 * 16 + b.toNat / 16)
      (b.toNat % 16 * 4) (by omega) (by omega) (by omega)
    have e₁ : a.toNat / 4 * 4 + (a.toNat % 4 * 16 + b.toNat / 16) / 16 = a.toNat := by omega
    have e₂ : (a.toNat % 4 * 16 + b.toNat / 16) % 16 * 16 + b.toNat % 16 * 4 / 4 = b.toNat := by
      omega
    rw [e₁, e₂, UInt8.ofNat_toNat, UInt8.ofNat_toNat] at hbytes
    refine ⟨[a.toNat / 4, a.toNat % 4 * 16 + b.toNat / 16, b.toNat % 16 * 4], 1, ?_,
      Nat.le_succ 1, Nat.mod_self 4, ?_, ?_⟩
    · simp only [List.forall_mem_cons]
      exact ⟨by omega, by omega, by omega, by simp⟩
    · rw [base64encode, encodeQuantum_two]
      rfl
    · simpa using hbytes
  | a :: b :: c :: rest => by
    have ha := a.toNat_lt
    have hb := b.toNat_lt
    have hc := c.toNat_lt
    obtain ⟨vs, padding, hvs, hpadding, hquanta, htext, hdata⟩ := base64encode_shape rest
    have hbytes := octets_four (a.toNat / 4) (a.toNat % 4 * 16 + b.toNat / 16)
      (b.toNat % 16 * 4 + c.toNat / 64) (c.toNat % 64) (vs.flatMap (bits 6)) (by omega) (by omega)
      (by omega) (by omega)
    have e₁ : a.toNat / 4 * 4 + (a.toNat % 4 * 16 + b.toNat / 16) / 16 = a.toNat := by omega
    have e₂ : (a.toNat % 4 * 16 + b.toNat / 16) % 16 * 16 +
        (b.toNat % 16 * 4 + c.toNat / 64) / 4 = b.toNat := by omega
    have e₃ : (b.toNat % 16 * 4 + c.toNat / 64) % 4 * 64 + c.toNat % 64 = c.toNat := by omega
    rw [e₁, e₂, e₃, UInt8.ofNat_toNat, UInt8.ofNat_toNat, UInt8.ofNat_toNat, hdata] at hbytes
    refine ⟨a.toNat / 4 :: (a.toNat % 4 * 16 + b.toNat / 16) :: (b.toNat % 16 * 4 + c.toNat / 64) ::
      c.toNat % 64 :: vs, padding, ?_, hpadding, ?_, ?_, ?_⟩
    · simp only [List.forall_mem_cons]
      exact ⟨by omega, by omega, by omega, by omega, hvs⟩
    · simp only [List.length_cons]
      omega
    · rw [base64encode, encodeQuantum_three, htext]
      rfl
    · simpa using hbytes

/-- The decoder on a string of the right shape. -/
theorem base64decode_shape {s : List UInt8} {vs : List ℕ} {padding : ℕ} (h : Shape s vs padding) :
    base64decode s = some (octets (vs.flatMap (bits 6))) := by
  have hlength : s.length = vs.length + padding := by
    rw [h.text, List.length_append, List.length_map, List.length_replicate]
  have hquanta := h.quanta
  have hroom : ([] : List UInt8).length + (vs.length + padding) / 4 * 3 ≤ s.length * 3 / 4 := by
    rw [List.length_nil]
    omega
  have hloop := decodeLoop_encoding vs padding [] h.values h.padding_le (by omega) hroom
  rwa [← h.text] at hloop

theorem bodyBits_map {vs : List ℕ} (hvs : ∀ v ∈ vs, v < 64) :
    bodyBits (vs.map char) = vs.flatMap (bits 6) := by
  rw [bodyBits, List.flatMap_map]
  apply List.flatMap_congr
  intro v hv
  rw [(char_spec v (hvs v hv)).2.2.2]

/-- The values of an encoding are the places of its characters in the alphabet. -/
theorem shape_of_encoding {s body : List UInt8} {padding : ℕ} (h : Encoding s body padding) :
    Shape s (body.map base64.idxOf) padding := by
  obtain ⟨hvs, hbody⟩ := body_eq_map h.alphabet
  exact ⟨hvs, h.padding_le, h.quanta, by rw [hbody, h.text]⟩

theorem encoding_of_shape {s : List UInt8} {vs : List ℕ} {padding : ℕ} (h : Shape s vs padding) :
    Encoding s (vs.map char) padding := by
  refine ⟨h.text, ?_, h.padding_le, h.quanta⟩
  intro c hc
  obtain ⟨v, hv, rfl⟩ := List.mem_map.1 hc
  exact (char_spec v (h.values v hv)).2.2.1

/-- Both directions against the standard, on every string. -/
theorem base64_rfc4648 :
    (∀ data, base64encode data = rfcEncode data ∧ base64decode (base64encode data) = some data) ∧
      ∀ s, ∃ r, base64decode s = some r ∧ (r ≠ [] → ∃ body padding, Encoding s body padding) ∧
        ∀ body padding, Encoding s body padding → r = rfcDecode body ∧
          ((∀ b ∈ unusedBits body, b = false) → base64encode r = s) := by
  constructor
  · intro data
    refine ⟨base64encode_eq data, ?_⟩
    obtain ⟨vs, padding, hvs, hpadding, hquanta, htext, hdata⟩ := base64encode_shape data
    have hshape : Shape (base64encode data) vs padding := by
      refine ⟨hvs, hpadding, ?_, htext⟩
      rw [htext, List.length_append, List.length_map, List.length_replicate, hquanta]
    rw [base64decode_shape hshape, hdata]
  · intro s
    obtain ⟨r, hr, hshape⟩ := decodeLoop_total s [] (by rw [List.length_nil]; omega :
      ([] : List UInt8).length + s.length / 4 * 3 ≤ s.length * 3 / 4)
    refine ⟨r, hr, ?_, ?_⟩
    · intro hne
      obtain ⟨vs, padding, h⟩ := hshape.resolve_left hne
      exact ⟨vs.map char, padding, encoding_of_shape h⟩
    · intro body padding h
      have hvs := shape_of_encoding h
      have hbits : bodyBits body = (body.map base64.idxOf).flatMap (bits 6) := by
        rw [← bodyBits_map hvs.values, (body_eq_map h.alphabet).2]
      have hdecoded : r = octets ((body.map base64.idxOf).flatMap (bits 6)) :=
        Option.some.inj (hr.symm.trans (base64decode_shape hvs))
      refine ⟨by rw [hdecoded, rfcDecode, hbits], ?_⟩
      intro hunused
      rw [unusedBits, hbits] at hunused
      have hquanta := hvs.quanta
      have hlength := congrArg List.length hvs.text
      rw [List.length_append, List.length_map, List.length_replicate] at hlength
      rw [hdecoded, base64encode_octets _ padding hvs.values hvs.padding_le (by omega) hunused,
        ← hvs.text]

end Base64
