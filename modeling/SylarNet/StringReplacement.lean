import SylarNet.StringSearch
import SylarNet.SylarHttp

/-!
# Replacing in a string

Three loops that search on behind what they have put in. For a character or a text there is less to
search in every round; the empty text is found again at every place.
-/
namespace StringReplacement

open StringSearch
open SylarHttp (bytes)

/-- The loop that overwrites a character. -/
def charLoop (c replaceWith : UInt8) : ℕ → List UInt8 → Option ℕ → Option (List UInt8)
  | 0, _, _ => none
  | _ + 1, str, none => some str
  | fuel + 1, str, some index =>
    let str := str.set index replaceWith
    charLoop c replaceWith fuel str (find (here fun x => x = c) str (index + 1))

/-- The loop that builds the string anew, for what has `size` characters where it is found. -/
def stringLoop (test : List UInt8 → Bool) (size : ℕ) (replaceWith : List UInt8) :
    ℕ → List UInt8 → Option ℕ → Option (List UInt8)
  | 0, _, _ => none
  | _ + 1, str, none => some str
  | fuel + 1, str, some index =>
    let str := substr str 0 index ++ replaceWith ++ str.drop (index + size)
    stringLoop test size replaceWith fuel str (find test str (index + replaceWith.length))

/-- `replace` of a character by a character. -/
def replaceChar (str : List UInt8) (c replaceWith : UInt8) (fuel : ℕ) : Option (List UInt8) :=
  charLoop c replaceWith fuel str (find (here fun x => x = c) str 0)

/-- `replace` of a character by a string. -/
def replaceString (str : List UInt8) (c : UInt8) (replaceWith : List UInt8) (fuel : ℕ) :
    Option (List UInt8) :=
  stringLoop (here fun x => x = c) 1 replaceWith fuel str (find (here fun x => x = c) str 0)

/-- `replace` of a string by a string. -/
def replaceSubstring (str pattern replaceWith : List UInt8) (fuel : ℕ) : Option (List UInt8) :=
  stringLoop pattern.isPrefixOf pattern.length replaceWith fuel str (find pattern.isPrefixOf str 0)

section Meaning

/-- A loop comes to its end with a result. -/
def Returns {β : Type*} (loop : ℕ → Option β) (result : β) : Prop :=
  ∃ n, ∀ fuel ≥ n, loop fuel = some result

/-- The leftmost occurrence is replaced, then those in what follows it. -/
inductive Replaced (pattern replaceWith : List UInt8) : List UInt8 → List UInt8 → Prop
  | absent (s : List UInt8) (h : ∀ j ≤ s.length, ¬ pattern <+: s.drop j) :
      Replaced pattern replaceWith s s
  | first (front : List UInt8) {rest out : List UInt8}
      (h : ∀ j < front.length, ¬ pattern <+: (front ++ (pattern ++ rest)).drop j)
      (hrest : Replaced pattern replaceWith rest out) :
      Replaced pattern replaceWith (front ++ (pattern ++ rest)) (front ++ (replaceWith ++ out))

/-- It terminates, and a text that is not empty is replaced where it was. -/
def Correct (str pattern replaceWith : List UInt8) : Prop :=
  ∃ result, Returns (replaceSubstring str pattern replaceWith) result ∧
    (pattern ≠ [] → Replaced pattern replaceWith str result)

end Meaning

section Leftmost

variable {pattern r s out out' : List UInt8}

theorem prefix_drop (front rest : List UInt8) :
    pattern <+: (front ++ (pattern ++ rest)).drop front.length := by
  rw [List.drop_left]
  exact List.prefix_append pattern rest

/-- The leftmost occurrences determine the result. -/
theorem Replaced.unique (h : Replaced pattern r s out) (h' : Replaced pattern r s out') :
    out = out' := by
  induction h generalizing out' with
  | absent s habsent =>
    cases h' with
    | absent => rfl
    | first front hbefore hrest => exact absurd (prefix_drop front _) (habsent _ (by simp))
  | @first front rest out hbefore hrest ih =>
    generalize hs : front ++ (pattern ++ rest) = s at h'
    cases h' with
    | absent s habsent =>
      subst hs
      exact absurd (prefix_drop front rest) (habsent _ (by simp))
    | @first front' rest' out' hbefore' hrest' =>
      have hlength : front.length = front'.length := by
        rcases Nat.lt_trichotomy front.length front'.length with hlt | heq | hlt
        · have hp := hbefore' front.length hlt
          rw [← hs] at hp
          exact absurd (prefix_drop front rest) hp
        · exact heq
        · have hp := hbefore front'.length hlt
          rw [hs] at hp
          exact absurd (prefix_drop front' rest') hp
      obtain ⟨rfl, htail⟩ := List.append_inj hs hlength
      obtain rfl := List.append_cancel_left htail
      rw [ih hrest']

end Leftmost

section Rounds

variable {test : List UInt8 → Bool} {size fuel k : ℕ} {front rest r : List UInt8}

theorem stringLoop_none (str : List UInt8) :
    stringLoop test size r (fuel + 1) str none = some str := rfl

theorem stringLoop_some (str : List UInt8) (index : ℕ) :
    stringLoop test size r (fuel + 1) str (some index) =
      stringLoop test size r fuel (substr str 0 index ++ r ++ str.drop (index + size))
        (find test (substr str 0 index ++ r ++ str.drop (index + size)) (index + r.length)) := rfl

/-- The loop on what follows a front that it is done with. -/
def remaining (test : List UInt8 → Bool) (size : ℕ) (r : List UInt8) (fuel : ℕ)
    (front rest : List UInt8) : Option (List UInt8) :=
  stringLoop test size r fuel (front ++ rest) (find test (front ++ rest) front.length)

theorem remaining_absent (h : search test rest = none) :
    remaining test size r (fuel + 1) front rest = some (front ++ rest) := by
  rw [remaining, find_append, h, Option.map_none, stringLoop_none]

/-- A round is done with what it has put in. -/
theorem remaining_round (h : search test rest = some k) :
    remaining test size r (fuel + 1) front rest =
      remaining test size r fuel (front ++ (rest.take k ++ r)) (rest.drop (k + size)) := by
  have hlength : (rest.take k).length = k := List.length_take_of_le (search_some h).1
  have hbuilt : substr (front ++ rest) 0 (front.length + k) ++ r ++
      (front ++ rest).drop (front.length + k + size) =
        front ++ (rest.take k ++ r) ++ rest.drop (k + size) := by
    rw [substr, List.drop_zero, List.take_length_add_append, Nat.add_assoc,
      List.drop_length_add_append]
    simp only [List.append_assoc]
  have hplace : front.length + k + r.length = (front ++ (rest.take k ++ r)).length := by
    simp only [List.length_append, hlength, Nat.add_assoc]
  rw [remaining, find_append, h, Option.map_some, stringLoop_some, hbuilt, hplace, remaining]

end Rounds

section Characters

variable {c d : UInt8} {fuel : ℕ} {front rest r piece tail : List UInt8}

theorem ne_of_here (h : ∀ x ∈ piece, decide (x = c) = false) : ∀ x ∈ piece, x ≠ c :=
  fun x hx => of_decide_eq_false (h x hx)

theorem flatMap_plain (h : ∀ x ∈ piece, x ≠ c) :
    (piece.flatMap fun x => if x = c then r else [x]) = piece := by
  induction piece with
  | nil => rfl
  | cons b piece ih =>
    rw [List.forall_mem_cons] at h
    rw [List.flatMap_cons, ih h.2, if_neg h.1, List.singleton_append]

theorem map_plain (h : ∀ x ∈ piece, x ≠ c) :
    (piece.map fun x => if x = c then d else x) = piece :=
  (List.map_congr_left fun x hx => if_neg (h x hx)).trans (List.map_id piece)

/-- Every occurrence in what follows is replaced, and none that was put in. -/
theorem remaining_char (hfuel : rest.length < fuel) :
    remaining (here fun x => x = c) 1 r fuel front rest =
      some (front ++ rest.flatMap fun x => if x = c then r else [x]) := by
  induction fuel generalizing front rest with
  | zero => exact absurd hfuel (Nat.not_lt_zero _)
  | succ fuel ih =>
    cases hsearch : search (here fun x => x = c) rest with
    | none => rw [remaining_absent hsearch, flatMap_plain (ne_of_here (search_here_none.1 hsearch))]
    | some k =>
      obtain ⟨piece, x, tail, rfl, rfl, hx, hpiece⟩ := search_here_some hsearch
      have htail : (piece ++ x :: tail).drop (piece.length + 1) = tail := by simp
      have hshort : tail.length < fuel := by
        simp only [List.length_append, List.length_cons] at hfuel
        omega
      rw [remaining_round hsearch, List.take_left, htail, ih hshort, List.flatMap_append,
        flatMap_plain (ne_of_here hpiece), List.flatMap_cons, if_pos (of_decide_eq_true hx)]
      simp only [List.append_assoc]

theorem charLoop_some (str : List UInt8) (index : ℕ) :
    charLoop c d (fuel + 1) str (some index) = charLoop c d fuel (str.set index d)
      (find (here fun x => x = c) (str.set index d) (index + 1)) := rfl

theorem charLoop_eq (hfuel : rest.length < fuel) :
    charLoop c d fuel (front ++ rest) (find (here fun x => x = c) (front ++ rest) front.length) =
      some (front ++ rest.map fun x => if x = c then d else x) := by
  induction fuel generalizing front rest with
  | zero => exact absurd hfuel (Nat.not_lt_zero _)
  | succ fuel ih =>
    rw [find_append]
    cases hsearch : search (here fun x => x = c) rest with
    | none =>
      rw [map_plain (ne_of_here (search_here_none.1 hsearch))]
      rfl
    | some k =>
      obtain ⟨piece, x, tail, rfl, rfl, hx, hpiece⟩ := search_here_some hsearch
      have hset : (front ++ (piece ++ x :: tail)).set (front.length + piece.length) d =
          front ++ (piece ++ [d]) ++ tail := by
        simp
      have hplace : front.length + piece.length + 1 = (front ++ (piece ++ [d])).length := by
        simp only [List.length_append, List.length_singleton, Nat.add_assoc]
      have hshort : tail.length < fuel := by
        simp only [List.length_append, List.length_cons] at hfuel
        omega
      rw [Option.map_some, charLoop_some, hset, hplace, ih hshort, List.map_append,
        map_plain (ne_of_here hpiece), List.map_cons, if_pos (of_decide_eq_true hx)]
      simp only [List.append_assoc, List.singleton_append]

/-- A character is replaced where it was, by a string or by a character. -/
theorem replace_char (str : List UInt8) (c : UInt8) (r : List UInt8) (d : UInt8) :
    Returns (replaceString str c r) (str.flatMap fun x => if x = c then r else [x]) ∧
      Returns (replaceChar str c d) (str.map fun x => if x = c then d else x) := by
  constructor
  · refine ⟨str.length + 1, ?_⟩
    intro fuel hfuel
    exact @remaining_char c fuel [] str r hfuel
  · refine ⟨str.length + 1, ?_⟩
    intro fuel hfuel
    exact @charLoop_eq c d fuel [] str hfuel

end Characters

section Substrings

variable {pattern r rest front : List UInt8} {fuel k : ℕ}

theorem search_pattern_some (h : search pattern.isPrefixOf rest = some k) :
    rest = rest.take k ++ (pattern ++ rest.drop (k + pattern.length)) ∧
      ∀ j < k, ¬ pattern <+: rest.drop j := by
  obtain ⟨-, hfound, hbefore⟩ := search_some h
  constructor
  · obtain ⟨tail, htail⟩ := List.isPrefixOf_iff_prefix.1 hfound
    rw [← List.drop_drop, ← htail, List.drop_left, htail, List.take_append_drop]
  · intro j hj hp
    exact absurd (hbefore j hj) (by simpa using hp)

theorem search_pattern_none (h : search pattern.isPrefixOf rest = none) :
    ∀ j ≤ rest.length, ¬ pattern <+: rest.drop j := by
  intro j hj hp
  exact absurd (search_none h j hj) (by simpa using hp)

/-- With a text that is not empty every round leaves less to search. -/
theorem remaining_pattern (hne : pattern ≠ []) {n : ℕ} (hn : rest.length < n) :
    ∃ out, Replaced pattern r rest out ∧ ∀ fuel ≥ n, ∀ front,
      remaining pattern.isPrefixOf pattern.length r fuel front rest = some (front ++ out) := by
  induction n generalizing rest with
  | zero => exact absurd hn (Nat.not_lt_zero _)
  | succ n ih =>
    cases hsearch : search pattern.isPrefixOf rest with
    | none =>
      refine ⟨rest, .absent rest (search_pattern_none hsearch), ?_⟩
      intro fuel hfuel front
      obtain ⟨fuel, rfl⟩ := Nat.exists_eq_add_of_lt hfuel
      exact remaining_absent hsearch
    | some k =>
      obtain ⟨hrest, hbefore⟩ := search_pattern_some hsearch
      have hk : (rest.take k).length = k := List.length_take_of_le (search_some hsearch).1
      have hshort : (rest.drop (k + pattern.length)).length < n := by
        have hpos := List.length_pos_of_ne_nil hne
        have hlength := congrArg List.length hrest
        simp only [List.length_append, hk] at hlength
        omega
      obtain ⟨out, hreplaced, hloop⟩ := ih hshort
      refine ⟨rest.take k ++ (r ++ out), ?_, ?_⟩
      · have hfirst := @Replaced.first pattern r (rest.take k) _ _
          (by rw [← hrest, hk]; exact hbefore) hreplaced
        rwa [← hrest] at hfirst
      · intro fuel hfuel front
        obtain ⟨fuel, rfl⟩ := Nat.exists_eq_add_of_lt hfuel
        rw [remaining_round hsearch, hloop _ (by omega)]
        simp only [List.append_assoc]

/-- The empty text is found where the last round ended, whatever was put in. -/
theorem remaining_empty (fuel : ℕ) (front rest : List UInt8) :
    remaining (List.isPrefixOf []) 0 r fuel front rest = none := by
  induction fuel generalizing front with
  | zero => rfl
  | succ fuel ih =>
    have hfound : search (List.isPrefixOf []) rest = some 0 := by
      cases rest <;> rfl
    rw [remaining_round hfound]
    exact ih _

theorem not_returns_empty (str r result : List UInt8) :
    ¬ Returns (replaceSubstring str [] r) result := by
  rintro ⟨n, h⟩
  exact absurd ((remaining_empty n [] str).symm.trans (h n (Nat.le_refl n))) nofun

/-- It is right for every text but the empty one, with which it never returns. -/
theorem replace_substring_iff (str pattern r : List UInt8) :
    Correct str pattern r ↔ pattern ≠ [] := by
  constructor
  · rintro ⟨result, hreturns, -⟩ rfl
    exact not_returns_empty str r result hreturns
  · intro hne
    obtain ⟨out, hreplaced, hloop⟩ := remaining_pattern (r := r) hne (Nat.lt_succ_self str.length)
    exact ⟨out, ⟨str.length + 1, fun fuel hfuel => hloop fuel hfuel []⟩, fun _ => hreplaced⟩

theorem empty_text_loops : ¬ ∀ str pattern r, Correct str pattern r := by
  intro h
  obtain ⟨result, hreturns, -⟩ := h (bytes "abc") [] []
  exact not_returns_empty (bytes "abc") [] result hreturns

end Substrings

end StringReplacement
