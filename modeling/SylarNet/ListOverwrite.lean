import Mathlib.Data.List.Basic
import Mathlib.Data.List.Flatten

/-! Overwriting a slice of a list, and what it does to a concatenation of blocks. -/
namespace ListOverwrite

variable {α : Type*}

/-- The list `l` with the elements from position `i` on replaced by `xs`, as far as `xs`
goes. It is only meant for `i ≤ l.length`; past the end it extends the list. -/
def overwrite (l : List α) (i : ℕ) (xs : List α) : List α :=
  l.take i ++ (xs ++ l.drop (i + xs.length))

@[simp] theorem overwrite_nil (l : List α) (i : ℕ) : overwrite l i [] = l := by
  simp [overwrite]

theorem length_overwrite {l xs : List α} {i : ℕ} (h : i + xs.length ≤ l.length) :
    (overwrite l i xs).length = l.length := by
  simp only [overwrite, List.length_append, List.length_take, List.length_drop]
  omega

theorem overwrite_append_left {l xs : List α} {i : ℕ} (m : List α)
    (h : i + xs.length ≤ l.length) : overwrite (l ++ m) i xs = overwrite l i xs ++ m := by
  have hi : i ≤ l.length := by omega
  simp [overwrite, List.take_append_of_le_length hi, List.drop_append_of_le_length h]

theorem overwrite_append_right {l xs : List α} {i : ℕ} (m : List α) (h : l.length ≤ i) :
    overwrite (l ++ m) i xs = l ++ overwrite m (i - l.length) xs := by
  have hd : i + xs.length - l.length = i - l.length + xs.length := by omega
  simp [overwrite, List.take_append, List.drop_append, List.take_of_length_le h,
    List.drop_eq_nil_of_le (show l.length ≤ i + xs.length by omega), hd]

/-- Overwriting across a block boundary: the part that fits goes to the first block. -/
theorem overwrite_append_split {l xs : List α} {i : ℕ} (m : List α) (hi : i ≤ l.length)
    (h : l.length - i ≤ xs.length) :
    overwrite (l ++ m) i xs =
      overwrite l i (xs.take (l.length - i)) ++ overwrite m 0 (xs.drop (l.length - i)) := by
  have hlen : i + (l.length - i) = l.length := by omega
  have hsub : i + xs.length - l.length = xs.length - (l.length - i) := by omega
  simp only [overwrite, List.take_append_of_le_length hi, List.length_take,
    Nat.min_eq_left h, hlen, List.drop_length, List.append_nil, List.take_zero,
    List.nil_append, Nat.zero_add, List.length_drop]
  rw [List.drop_append, List.drop_eq_nil_of_le (show l.length ≤ i + xs.length by omega), hsub]
  simp only [List.nil_append, List.append_assoc]
  rw [← List.append_assoc (xs.take _), List.take_append_drop]

theorem take_overwrite_of_le {l xs : List α} {i n : ℕ} (hi : i ≤ l.length)
    (h : i + xs.length ≤ n) : (overwrite l i xs).take n = overwrite (l.take n) i xs := by
  have hin : i ≤ n := by omega
  have hn : n - i - xs.length = n - (i + xs.length) := by omega
  simp only [overwrite, List.take_append, List.length_take, Nat.min_eq_left hi,
    List.take_take, Nat.min_eq_left hin, Nat.min_eq_right hin, List.drop_take, hn,
    List.take_of_length_le (show xs.length ≤ n - i by omega)]

theorem getElem?_overwrite_left {l xs : List α} {i j : ℕ} (h : j < i) (hi : i ≤ l.length) :
    (overwrite l i xs)[j]? = l[j]? := by
  rw [overwrite, List.getElem?_append_left (by simp; omega), List.getElem?_take_of_lt h]

theorem getElem?_overwrite_right {l xs : List α} {i j : ℕ} (h : i + xs.length ≤ j)
    (hi : i ≤ l.length) : (overwrite l i xs)[j]? = l[j]? := by
  have hl : (l.take i).length = i := by simp [hi]
  rw [overwrite, List.getElem?_append_right (by omega), hl,
    List.getElem?_append_right (by omega), List.getElem?_drop]
  congr 1
  omega

theorem drop_overwrite {l : List α} {i : ℕ} (hi : i ≤ l.length) (xs : List α) :
    (overwrite l i xs).drop i = xs ++ l.drop (i + xs.length) :=
  List.drop_left' (List.length_take_of_le hi)

/-- What is put right behind the last overwriting continues it. -/
theorem overwrite_behind {l : List α} {i : ℕ} (hi : i ≤ l.length) (xs ys : List α) :
    overwrite (overwrite l i xs) (i + xs.length) ys = overwrite l i (xs ++ ys) := by
  have hfront : (l.take i ++ xs).length = i + xs.length := by
    rw [List.length_append, List.length_take_of_le hi]
  have hsplit : overwrite l i xs = l.take i ++ xs ++ l.drop (i + xs.length) :=
    (List.append_assoc ..).symm
  rw [hsplit, overwrite, overwrite, List.take_left' hfront, ← List.drop_drop,
    List.drop_left' hfront, List.drop_drop, List.length_append, Nat.add_assoc]
  simp only [List.append_assoc]

theorem drop_take_overwrite {l xs : List α} {i : ℕ} (hi : i ≤ l.length) :
    ((overwrite l i xs).drop i).take xs.length = xs := by
  have hl : (l.take i).length = i := by simp [hi]
  rw [overwrite, List.drop_append, hl, List.drop_eq_nil_of_le (Nat.le_of_eq hl)]
  simp

/-- Dropping whole blocks of one size is dropping their elements. -/
theorem flatten_drop_blocks {b : ℕ} {bs : List (List α)} (h : ∀ x ∈ bs, x.length = b) (i : ℕ) :
    (bs.drop i).flatten = bs.flatten.drop (i * b) := by
  induction bs generalizing i with
  | nil => simp
  | cons x xs ih =>
    have hx : x.length = b := h x List.mem_cons_self
    cases i with
    | zero => simp
    | succ i =>
      rw [List.drop_succ_cons, ih (fun y hy => h y (List.mem_cons_of_mem x hy)),
        List.flatten_cons, List.drop_append, hx,
        List.drop_eq_nil_of_le (show x.length ≤ (i + 1) * b by rw [hx, Nat.succ_mul]; omega)]
      simp [Nat.succ_mul]

theorem flatten_take_blocks {b : ℕ} {bs : List (List α)} (h : ∀ x ∈ bs, x.length = b) (i : ℕ) :
    (bs.take i).flatten = bs.flatten.take (i * b) := by
  induction bs generalizing i with
  | nil => simp
  | cons x xs ih =>
    have hx : x.length = b := h x List.mem_cons_self
    cases i with
    | zero => simp
    | succ i =>
      rw [List.take_succ_cons, List.flatten_cons, ih (fun y hy => h y (List.mem_cons_of_mem x hy)),
        List.flatten_cons, List.take_append, hx,
        List.take_of_length_le (show x.length ≤ (i + 1) * b by rw [hx, Nat.succ_mul]; omega)]
      simp [Nat.succ_mul]

/-- Overwriting inside one block of a list of blocks of one size. -/
theorem flatten_set_overwrite {b i off : ℕ} {bs : List (List α)} {block xs : List α}
    (h : ∀ x ∈ bs, x.length = b) (hi : bs[i]? = some block) (hoff : off + xs.length ≤ b) :
    (bs.set i (overwrite block off xs)).flatten = overwrite bs.flatten (i * b + off) xs := by
  induction bs generalizing i with
  | nil => simp at hi
  | cons x rest ih =>
    have hx : x.length = b := h x List.mem_cons_self
    cases i with
    | zero =>
      simp only [List.getElem?_cons_zero, Option.some.injEq] at hi
      subst hi
      simp only [List.set_cons_zero, List.flatten_cons, Nat.zero_mul, Nat.zero_add]
      rw [overwrite_append_left _ (by omega)]
    | succ i =>
      simp only [List.getElem?_cons_succ] at hi
      have hsub : (i + 1) * b + off - x.length = i * b + off := by rw [hx, Nat.succ_mul]; omega
      simp only [List.set_cons_succ, List.flatten_cons]
      rw [ih (fun y hy => h y (List.mem_cons_of_mem x hy)) hi,
        overwrite_append_right _ (by rw [hx, Nat.succ_mul]; omega), hsub]

theorem length_flatten_blocks {b : ℕ} {bs : List (List α)} (h : ∀ x ∈ bs, x.length = b) :
    bs.flatten.length = bs.length * b := by
  induction bs with
  | nil => simp
  | cons x xs ih =>
    have hx : x.length = b := h x List.mem_cons_self
    simp only [List.flatten_cons, List.length_append, List.length_cons, hx, Nat.succ_mul,
      ih (fun y hy => h y (List.mem_cons_of_mem x hy))]
    omega

end ListOverwrite
