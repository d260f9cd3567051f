import SylarNet.StringSearch
import SylarNet.SylarHttp

/-!
# Splitting a string

Two loops cut a string at its delimiters until only one piece is left to make. The number of pieces
is counted down before it is compared, so that with one piece to make the counter wraps around.
-/
namespace StringSplits

open StringSearch
open SylarHttp (bytes cStr)

/-- What the overloads search for. -/
inductive Delim where
  | char (delim : UInt8)
  | set (delims : List UInt8)
  deriving DecidableEq, Repr

/-- `find` of the character, `find_first_of` of the C string. -/
def Delim.test : Delim → UInt8 → Bool
  | .char delim => fun c => c = delim
  | .set delims => fun c => c ∈ cStr delims

/-- The loop of both overloads, with `max` as it is before the round. -/
def splitLoop (delim : Delim) (str : List UInt8) :
    ℕ → UInt64 → ℕ → Option ℕ → Option (List (List UInt8))
  | 0, _, _, _ => none
  | _ + 1, _, last, none => some [str.drop last]
  | fuel + 1, max, last, some pos =>
    let piece := substr str last (pos - last)
    let last := pos + 1
    if max - 1 = 1 then some [piece, str.drop last]
    else
      (splitLoop delim str fuel (max - 1) last (find (here delim.test) str last)).map fun result =>
        piece :: result

/-- Every round takes a character at least. -/
def split (str : List UInt8) (delim : Delim) (max : UInt64) : Option (List (List UInt8)) :=
  if str = [] then some []
  else splitLoop delim str (str.length + 1) max 0 (find (here delim.test) str 0)

section Pieces

/-- The pieces with delimiters between them. -/
inductive Joined (delim : Delim) : List (List UInt8) → List UInt8 → Prop
  | last (piece : List UInt8) : Joined delim [piece] piece
  | cons (piece : List UInt8) {d : UInt8} {pieces : List (List UInt8)} {s : List UInt8}
      (hd : delim.test d = true) (hs : Joined delim pieces s) :
      Joined delim (piece :: pieces) (piece ++ d :: s)

/-- The string cut at its delimiters, into `max` pieces at the most. -/
structure Right (delim : Delim) (s : List UInt8) (max : ℕ) (pieces : List (List UInt8)) :
    Prop where
  limit : pieces.length ≤ max
  clean : ∀ piece ∈ pieces.dropLast, ∀ c ∈ piece, delim.test c = false
  last : ∀ piece ∈ pieces.getLast?, (∃ c ∈ piece, delim.test c = true) → pieces.length = max
  joined : Joined delim pieces s

end Pieces

section Results

variable {delim : Delim} {piece rest s : List UInt8} {pieces : List (List UInt8)} {d : UInt8}
  {max : UInt64} {n : ℕ}

theorem Right.ne_nil (h : Right delim s n pieces) : pieces ≠ [] := by
  rintro rfl
  cases h.joined

theorem right_whole (hn : 1 ≤ n) (h : ∀ c ∈ s, delim.test c = false) : Right delim s n [s] := by
  refine ⟨hn, by simp, ?_, .last s⟩
  rintro piece hpiece ⟨c, hc, htest⟩
  cases hpiece
  rw [h c hc] at htest
  cases htest

theorem right_two (hd : delim.test d = true) (h : ∀ c ∈ piece, delim.test c = false) :
    Right delim (piece ++ d :: rest) 2 [piece, rest] := by
  refine ⟨Nat.le_refl 2, ?_, fun _ _ _ => rfl, .cons piece hd (.last rest)⟩
  simpa using h

theorem right_cons (hd : delim.test d = true) (h : ∀ c ∈ piece, delim.test c = false)
    (hrest : Right delim rest n pieces) :
    Right delim (piece ++ d :: rest) (n + 1) (piece :: pieces) := by
  obtain ⟨first, others, rfl⟩ := List.exists_cons_of_ne_nil hrest.ne_nil
  constructor
  · exact Nat.succ_le_succ hrest.limit
  · rw [List.dropLast_cons_cons, List.forall_mem_cons]
    exact ⟨h, hrest.clean⟩
  · intro last hlast hmem
    rw [List.getLast?_cons_cons] at hlast
    rw [List.length_cons, hrest.last last hlast hmem]
  · exact .cons piece hd hrest.joined

variable {front str : List UInt8} {fuel : ℕ}

theorem splitLoop_none (last : ℕ) :
    splitLoop delim str (fuel + 1) max last none = some [str.drop last] := rfl

theorem splitLoop_some (last pos : ℕ) : splitLoop delim str (fuel + 1) max last (some pos) =
    if max - 1 = 1 then some [substr str last (pos - last), str.drop (pos + 1)]
    else (splitLoop delim str fuel (max - 1) (pos + 1)
      (find (here delim.test) str (pos + 1))).map fun result =>
        substr str last (pos - last) :: result := rfl

/-- The loop on what follows a front that it is done with. -/
def remaining (delim : Delim) (front rest : List UInt8) (fuel : ℕ) (max : UInt64) :
    Option (List (List UInt8)) :=
  splitLoop delim (front ++ rest) fuel max front.length
    (find (here delim.test) (front ++ rest) front.length)

theorem remaining_clean (h : ∀ c ∈ rest, delim.test c = false) :
    remaining delim front rest (fuel + 1) max = some [rest] := by
  rw [remaining, find_append, search_here_none.2 h, Option.map_none, splitLoop_none,
    List.drop_left]

/-- One round cuts off the first piece. -/
theorem remaining_round (hd : delim.test d = true) (h : ∀ c ∈ piece, delim.test c = false) :
    remaining delim front (piece ++ d :: rest) (fuel + 1) max =
      if max - 1 = 1 then some [piece, rest]
      else (remaining delim (front ++ piece ++ [d]) rest fuel (max - 1)).map fun result =>
        piece :: result := by
  have hstr : front ++ (piece ++ d :: rest) = front ++ piece ++ [d] ++ rest := by simp
  have hplace : front.length + piece.length + 1 = (front ++ piece ++ [d]).length := by
    simp only [List.length_append, List.length_singleton]
  have hpiece : substr (front ++ (piece ++ d :: rest)) front.length
      (front.length + piece.length - front.length) = piece := by
    rw [substr, List.drop_left, Nat.add_sub_cancel_left, List.take_left]
  rw [remaining, find_append, search_here_append h hd, Option.map_some, splitLoop_some, hpiece,
    hstr, hplace, List.drop_left, remaining]

theorem toNat_pred (h : 2 ≤ max) : (max - 1).toNat = max.toNat - 1 := by
  rw [UInt64.le_iff_toNat_le] at h
  apply UInt64.toNat_sub_of_le
  rw [UInt64.le_iff_toNat_le]
  exact Nat.le_trans (by decide) h

/-- With two pieces to make or more, the rest of the string is cut as it should be. -/
theorem remaining_right (hfuel : rest.length < fuel) (hmax : 2 ≤ max) :
    ∃ pieces, remaining delim front rest fuel max = some pieces ∧
      Right delim rest max.toNat pieces := by
  induction fuel generalizing front rest max with
  | zero => exact absurd hfuel (Nat.not_lt_zero _)
  | succ fuel ih =>
    have hpred := toNat_pred hmax
    have hle : 2 ≤ max.toNat := UInt64.le_iff_toNat_le.1 hmax
    cases hsearch : search (here delim.test) rest with
    | none =>
      have hclean := search_here_none.1 hsearch
      exact ⟨[rest], remaining_clean hclean, right_whole (by omega) hclean⟩
    | some k =>
      obtain ⟨piece, d, tail, rfl, -, hd, hpiece⟩ := search_here_some hsearch
      rw [remaining_round hd hpiece]
      split_ifs with hlast
      · have htwo : max.toNat = 2 := by
          rw [hlast] at hpred
          have hone : (1 : UInt64).toNat = 1 := rfl
          omega
        rw [htwo]
        exact ⟨[piece, tail], rfl, right_two hd hpiece⟩
      · have hne : (max - 1).toNat ≠ 1 := fun heq => hlast (UInt64.toNat_inj.1 heq)
        have hmore : 2 ≤ max - 1 := by
          rw [UInt64.le_iff_toNat_le]
          change 2 ≤ (max - 1).toNat
          omega
        have hshort : tail.length < fuel := by
          simp only [List.length_append, List.length_cons] at hfuel
          omega
        obtain ⟨pieces, hpieces, hright⟩ := @ih tail (max - 1) (front ++ piece ++ [d]) hshort hmore
        refine ⟨piece :: pieces, by rw [hpieces]; rfl, ?_⟩
        have hnext : max.toNat = (max - 1).toNat + 1 := by omega
        rw [hnext]
        exact right_cons hd hpiece hright

theorem splitLoop_ne_nil {last : ℕ} {pos : Option ℕ}
    (h : splitLoop delim str fuel max last pos = some pieces) : pieces ≠ [] := by
  cases fuel with
  | zero => cases h
  | succ fuel =>
    cases pos with
    | none =>
      cases h
      exact List.cons_ne_nil _ _
    | some pos =>
      rw [splitLoop_some] at h
      split_ifs at h with hlast
      · cases h
        exact List.cons_ne_nil _ _
      · obtain ⟨result, -, rfl⟩ := Option.map_eq_some_iff.1 h
        exact List.cons_ne_nil _ _

theorem split_eq (hs : s ≠ []) :
    split s delim max = remaining delim [] s (s.length + 1) max := by
  rw [split, if_neg hs]
  rfl

/-- With one piece to make, a delimiter makes two of them at least. -/
theorem two_le_length (hmem : ∃ c ∈ s, delim.test c = true)
    (h : split s delim 1 = some pieces) : 2 ≤ pieces.length := by
  obtain ⟨c, hc, htest⟩ := hmem
  rw [split_eq (List.ne_nil_of_mem hc)] at h
  cases hsearch : search (here delim.test) s with
  | none => exact absurd htest (by simp [search_here_none.1 hsearch c hc])
  | some k =>
    obtain ⟨piece, d, tail, rfl, -, hd, hpiece⟩ := search_here_some hsearch
    rw [remaining_round hd hpiece, if_neg (by decide)] at h
    obtain ⟨result, hresult, rfl⟩ := Option.map_eq_some_iff.1 h
    obtain ⟨first, others, rfl⟩ := List.exists_cons_of_ne_nil (splitLoop_ne_nil hresult)
    simp

/-- The pieces are right unless one piece is asked for and there is a delimiter. -/
theorem split_right_iff (delim : Delim) (s : List UInt8) (max : UInt64) (hs : s ≠ [])
    (hmax : 1 ≤ max) : (∃ pieces, split s delim max = some pieces ∧
      Right delim s max.toNat pieces) ↔ 2 ≤ max ∨ ∀ c ∈ s, delim.test c = false := by
  constructor
  · rintro ⟨pieces, hpieces, hright⟩
    by_contra hnot
    rw [not_or] at hnot
    obtain ⟨hone, hmem⟩ := hnot
    have hmem : ∃ c ∈ s, delim.test c = true := by simpa using hmem
    have hmax : max = 1 := by
      rw [UInt64.le_iff_toNat_le] at hmax hone
      rw [← UInt64.toNat_inj]
      change 1 ≤ max.toNat at hmax
      change ¬ 2 ≤ max.toNat at hone
      change max.toNat = 1
      omega
    subst hmax
    exact absurd (two_le_length hmem hpieces) (Nat.not_le.2 (Nat.lt_succ_of_le hright.limit))
  · intro h
    rw [split_eq hs]
    by_cases htwo : 2 ≤ max
    · exact remaining_right (Nat.lt_succ_self _) htwo
    · have hclean := h.resolve_left htwo
      exact ⟨[s], remaining_clean hclean, right_whole (UInt64.le_iff_toNat_le.1 hmax) hclean⟩

theorem split_two_pieces : (∃ pieces, split (bytes "a,,b") (.char 44) 2 = some pieces ∧
    Right (.char 44) (bytes "a,,b") 2 pieces) ↔
      (2 : UInt64) ≤ 2 ∨ ∀ c ∈ bytes "a,,b", (Delim.char 44).test c = false :=
  split_right_iff (.char 44) (bytes "a,,b") 2 (by decide) (by decide)

/-- One piece is asked for, and two are made. -/
theorem one_piece_two : ¬ ∀ (delim : Delim) (s : List UInt8) (max : UInt64), s ≠ [] → 1 ≤ max →
    ∃ pieces, split s delim max = some pieces ∧ Right delim s max.toNat pieces := by
  intro h
  obtain ⟨pieces, hpieces, hright⟩ := h (.char 44) (bytes "a,b") 1 (by decide) (by decide)
  have htwo := two_le_length ⟨44, by decide, by decide⟩ hpieces
  exact absurd htwo (Nat.not_le.2 (Nat.lt_succ_of_le hright.limit))

end Results

end StringSplits
