import Mathlib.Data.List.Basic
import Mathlib.Data.List.Infix

/-!
# Searching a list from a place on

The searches of a string class: for the first place from `pos` on whose suffix passes a test. The
end is a place too, a place behind it is not.
-/
namespace StringSearch

variable {α : Type*}

def search (test : List α → Bool) : List α → Option ℕ
  | [] => if test [] then some 0 else none
  | a :: l => if test (a :: l) then some 0 else (search test l).map fun k => k + 1

def find (test : List α → Bool) (s : List α) (pos : ℕ) : Option ℕ :=
  if pos ≤ s.length then (search test (s.drop pos)).map fun k => pos + k else none

def substr (s : List α) (pos len : ℕ) : List α := (s.drop pos).take len

/-- The test for an element. -/
def here (p : α → Bool) (l : List α) : Bool := l.head?.any p

variable {test : List α → Bool} {p : α → Bool} {l front rest : List α} {a : α} {k : ℕ}

theorem search_nil : search test [] = if test [] then some 0 else none := rfl

theorem search_cons : search test (a :: l) =
    if test (a :: l) then some 0 else (search test l).map fun k => k + 1 := rfl

/-- The place that is found is the first. -/
theorem search_some (h : search test l = some k) :
    k ≤ l.length ∧ test (l.drop k) = true ∧ ∀ j < k, test (l.drop j) = false := by
  induction l generalizing k with
  | nil =>
    rw [search_nil] at h
    split_ifs at h with htest
    cases h
    exact ⟨Nat.le_refl 0, htest, fun j hj => absurd hj (Nat.not_lt_zero j)⟩
  | cons a l ih =>
    rw [search_cons] at h
    split_ifs at h with htest
    · cases h
      exact ⟨Nat.zero_le _, htest, fun j hj => absurd hj (Nat.not_lt_zero j)⟩
    · obtain ⟨k, hk, rfl⟩ := Option.map_eq_some_iff.1 h
      obtain ⟨hle, hat, hbefore⟩ := ih hk
      refine ⟨Nat.succ_le_succ hle, hat, ?_⟩
      intro j hj
      cases j with
      | zero => exact Bool.eq_false_iff.2 htest
      | succ j => exact hbefore j (Nat.lt_of_succ_lt_succ hj)

theorem search_none (h : search test l = none) : ∀ j ≤ l.length, test (l.drop j) = false := by
  induction l with
  | nil =>
    intro j _
    rw [search_nil] at h
    split_ifs at h with htest
    rw [List.drop_nil]
    exact Bool.eq_false_iff.2 htest
  | cons a l ih =>
    intro j hj
    rw [search_cons] at h
    split_ifs at h with htest
    rw [Option.map_eq_none_iff] at h
    cases j with
    | zero => exact Bool.eq_false_iff.2 htest
    | succ j => exact ih h j (Nat.le_of_succ_le_succ hj)

/-- What is found from the end of a front on is found in what follows. -/
theorem find_append (test : List α → Bool) (front rest : List α) :
    find test (front ++ rest) front.length =
      (search test rest).map fun k => front.length + k := by
  rw [find, if_pos (by simp), List.drop_left]

theorem search_here_some (h : search (here p) l = some k) :
    ∃ front a rest, l = front ++ a :: rest ∧ front.length = k ∧ p a = true ∧
      ∀ x ∈ front, p x = false := by
  induction l generalizing k with
  | nil => cases h
  | cons a l ih =>
    rw [search_cons] at h
    split_ifs at h with ha
    · cases h
      exact ⟨[], a, l, rfl, rfl, by simpa [here] using ha, fun x hx => nomatch hx⟩
    · obtain ⟨k, hk, rfl⟩ := Option.map_eq_some_iff.1 h
      obtain ⟨front, b, rest, rfl, rfl, hb, hfront⟩ := ih hk
      refine ⟨a :: front, b, rest, rfl, rfl, hb, ?_⟩
      rw [List.forall_mem_cons]
      exact ⟨by simpa [here] using ha, hfront⟩

theorem search_here_none : search (here p) l = none ↔ ∀ x ∈ l, p x = false := by
  induction l with
  | nil => simp [search_nil, here]
  | cons a l ih =>
    rw [search_cons, List.forall_mem_cons, ← ih]
    cases ha : p a <;> simp [here, ha]

/-- A front without such an element is passed over. -/
theorem search_here_append (hfront : ∀ x ∈ front, p x = false) (ha : p a = true) :
    search (here p) (front ++ a :: rest) = some front.length := by
  induction front with
  | nil => simp [search_cons, here, ha]
  | cons b front ih =>
    rw [List.forall_mem_cons] at hfront
    rw [List.cons_append, search_cons, ih hfront.2]
    simp [here, hfront.1]

/-- The last place of such an element. -/
def rfind (p : α → Bool) : List α → Option ℕ
  | [] => none
  | a :: l =>
    match rfind p l with
    | some k => some (k + 1)
    | none => if p a then some 0 else none

theorem rfind_none (h : ∀ x ∈ l, p x = false) : rfind p l = none := by
  induction l with
  | nil => rfl
  | cons a l ih =>
    have hall := List.forall_mem_cons.1 h
    simp [rfind, ih hall.2, hall.1]

/-- What is in front of the last such element does not matter. -/
theorem rfind_append (front : List α) (ha : p a = true) (hrest : ∀ x ∈ rest, p x = false) :
    rfind p (front ++ a :: rest) = some front.length := by
  induction front with
  | nil => simp [rfind, rfind_none hrest, ha]
  | cons b front ih => simp [rfind, ih]

end StringSearch
