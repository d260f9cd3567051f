import Mathlib.Data.List.Basic
import Mathlib.Data.List.TakeWhile

/-!
# An ordered set under a comparator

The set is the list of its elements in iteration order. Searching walks to the first
element that does not come before the sought one, as the lower bound of a search tree is
documented; the lemmas say what this amounts to when the list is in fact ordered.
-/
namespace OrderedSet

variable {α : Type*}

structure StrictTotal (lt : α → α → Bool) : Prop where
  irrefl : ∀ a, lt a a = false
  trans : ∀ a b c, lt a b = true → lt b c = true → lt a c = true
  total : ∀ a b, lt a b = false → lt b a = false → a = b

def Sorted (lt : α → α → Bool) (xs : List α) : Prop := xs.Pairwise fun a b => lt a b = true

variable (lt : α → α → Bool)

/-- The element equivalent to `x`, or the end. -/
def find (x : α) : List α → Option α
  | [] => none
  | e :: es => if lt e x then find x es else if lt x e then none else some e

/-- Nothing is inserted when an equivalent element is there. -/
def insert (x : α) : List α → List α
  | [] => [x]
  | e :: es => if lt e x then e :: insert x es else if lt x e then x :: e :: es else e :: es

/-- Erases the element that `find` finds. -/
def erase (x : α) : List α → List α
  | [] => []
  | e :: es => if lt e x then e :: erase x es else es

variable {lt} {x y : α} {xs : List α}

theorem Sorted.tail {e : α} {es : List α} (h : Sorted lt (e :: es)) : Sorted lt es :=
  (List.pairwise_cons.mp h).2

theorem Sorted.head {e : α} {es : List α} (h : Sorted lt (e :: es)) :
    ∀ y ∈ es, lt e y = true := (List.pairwise_cons.mp h).1

theorem Sorted.nodup (ht : StrictTotal lt) (h : Sorted lt xs) : xs.Nodup := by
  apply h.imp
  intro a b hab he
  rw [he, ht.irrefl] at hab
  contradiction

theorem find_of_mem (ht : StrictTotal lt) (hs : Sorted lt xs) (hx : x ∈ xs) :
    find lt x xs = some x := by
  induction xs with
  | nil => simp at hx
  | cons e es ih =>
    rw [find]
    rcases List.mem_cons.mp hx with rfl | hx
    · simp [ht.irrefl]
    · simp only [hs.head x hx, if_true]
      exact ih hs.tail hx

theorem mem_insert (ht : StrictTotal lt) : y ∈ insert lt x xs ↔ y = x ∨ y ∈ xs := by
  induction xs with
  | nil => simp [insert]
  | cons e es ih =>
    rw [insert]
    split_ifs with h1 h2
    · rw [List.mem_cons, ih, List.mem_cons]
      constructor
      · rintro (h | h | h)
        · exact Or.inr (Or.inl h)
        · exact Or.inl h
        · exact Or.inr (Or.inr h)
      · rintro (h | h | h)
        · exact Or.inr (Or.inl h)
        · exact Or.inl h
        · exact Or.inr (Or.inr h)
    · rw [List.mem_cons]
    · -- neither comes before the other, so the element is already there
      have he : e = x := ht.total e x (by simpa using h1) (by simpa using h2)
      subst he
      simp

theorem insert_sorted (ht : StrictTotal lt) (hs : Sorted lt xs) : Sorted lt (insert lt x xs) := by
  induction xs with
  | nil => simp [insert, Sorted]
  | cons e es ih =>
    rw [insert]
    split_ifs with h1 h2
    · refine List.pairwise_cons.mpr ⟨?_, ih hs.tail⟩
      intro y hy
      rcases (mem_insert ht).mp hy with rfl | hy
      · exact h1
      · exact hs.head y hy
    · refine List.pairwise_cons.mpr ⟨?_, hs⟩
      intro y hy
      rcases List.mem_cons.mp hy with rfl | hy
      · exact h2
      · exact ht.trans x e y h2 (hs.head y hy)
    · exact hs

theorem erase_sublist : (erase lt x xs).Sublist xs := by
  induction xs with
  | nil => exact List.Sublist.refl _
  | cons e es ih =>
    rw [erase]
    split_ifs
    · exact ih.cons_cons e
    · exact List.sublist_cons_self e es

theorem erase_sorted (hs : Sorted lt xs) : Sorted lt (erase lt x xs) :=
  List.Pairwise.sublist erase_sublist hs

theorem mem_erase (ht : StrictTotal lt) (hs : Sorted lt xs) (hx : x ∈ xs) :
    y ∈ erase lt x xs ↔ y ∈ xs ∧ y ≠ x := by
  induction xs with
  | nil => simp at hx
  | cons e es ih =>
    rw [erase]
    rcases List.mem_cons.mp hx with rfl | hx
    · simp only [ht.irrefl, Bool.false_eq_true, if_false, List.mem_cons]
      constructor
      · intro hy
        refine ⟨Or.inr hy, ?_⟩
        rintro rfl
        have := hs.head y hy
        rw [ht.irrefl] at this
        contradiction
      · rintro ⟨hy | hy, hne⟩
        · exact absurd hy hne
        · exact hy
    · have hlt := hs.head x hx
      simp only [hlt, if_true, List.mem_cons, ih hs.tail hx]
      constructor
      · rintro (rfl | ⟨hy, hne⟩)
        · refine ⟨Or.inl rfl, ?_⟩
          rintro rfl
          rw [ht.irrefl] at hlt
          contradiction
        · exact ⟨Or.inr hy, hne⟩
      · rintro ⟨hy | hy, hne⟩
        · exact Or.inl hy
        · exact Or.inr ⟨hy, hne⟩

/-- Only the order of the stored elements matters. -/
theorem Sorted.congr {lt' : α → α → Bool} (hs : Sorted lt xs)
    (h : ∀ a ∈ xs, ∀ b ∈ xs, lt a b = lt' a b) : Sorted lt' xs := by
  refine List.Pairwise.imp_of_mem ?_ hs
  intro a b ha hb hab
  rw [← h a ha b hb]
  exact hab

/-- What holds of an element holds of those before it; then `p` splits the list in two. -/
theorem mem_takeWhile {p : α → Bool} (hs : Sorted lt xs)
    (hp : ∀ a ∈ xs, ∀ b ∈ xs, lt a b = true → p b = true → p a = true) :
    y ∈ xs.takeWhile p ↔ y ∈ xs ∧ p y = true := by
  induction xs with
  | nil => simp
  | cons e es ih =>
    have htail := ih hs.tail fun a ha b hb =>
      hp a (List.mem_cons_of_mem e ha) b (List.mem_cons_of_mem e hb)
    cases he : p e with
    | true =>
      rw [List.takeWhile_cons_of_pos he, List.mem_cons, List.mem_cons, htail]
      constructor
      · rintro (rfl | h)
        · exact ⟨.inl rfl, he⟩
        · exact ⟨.inr h.1, h.2⟩
      · rintro ⟨rfl | h, hy⟩
        · exact .inl rfl
        · exact .inr ⟨h, hy⟩
    | false =>
      rw [List.takeWhile_cons_of_neg (by simp [he]), List.mem_cons]
      simp only [List.not_mem_nil, false_iff, not_and]
      rintro (rfl | h) hy
      · rw [he] at hy
        cases hy
      · have hfirst := hp e (by simp) y (by simp [h]) (hs.head y h) hy
        rw [he] at hfirst
        cases hfirst

theorem mem_dropWhile {p : α → Bool} (ht : StrictTotal lt) (hs : Sorted lt xs)
    (hp : ∀ a ∈ xs, ∀ b ∈ xs, lt a b = true → p b = true → p a = true) :
    y ∈ xs.dropWhile p ↔ y ∈ xs ∧ p y = false := by
  have hsplit : y ∈ xs ↔ y ∈ xs.takeWhile p ∨ y ∈ xs.dropWhile p := by
    rw [← List.mem_append, List.takeWhile_append_dropWhile]
  have hnodup := hs.nodup ht
  rw [← List.takeWhile_append_dropWhile (p := p) (l := xs)] at hnodup
  have htake := mem_takeWhile (y := y) hs hp
  constructor
  · intro hy
    refine ⟨hsplit.2 (.inr hy), ?_⟩
    by_contra hpy
    have hin := htake.2 ⟨hsplit.2 (.inr hy), by simpa using hpy⟩
    exact (List.nodup_append.mp hnodup).2.2 y hin y hy rfl
  · rintro ⟨hy, hpy⟩
    apply (hsplit.1 hy).resolve_left
    intro hin
    rw [(htake.1 hin).2] at hpy
    cases hpy

end OrderedSet
