import Mathlib.Data.List.Basic
import Mathlib.Data.List.Induction
import Mathlib.Data.List.Nodup

/-!
# Histories of keyed writes

An event writes a value for a key, deletes a key or does neither. What a history leaves behind
is read off the history itself: the writes whose key no later event names, in their order.
-/
namespace LastWrites

variable {ε κ ν : Type*} [DecidableEq κ]

/-- An event touches at most one key; `none` in the second place deletes it. -/
def touches (touch : ε → Option (κ × Option ν)) (key : κ) (e : ε) : Bool :=
  (touch e).any fun t => t.1 = key

/-- The writes that no later event overwrites or deletes, oldest first. -/
def survivors (touch : ε → Option (κ × Option ν)) : List ε → List (κ × ν)
  | [] => []
  | e :: later =>
    match touch e with
    | some (key, some value) =>
      if later.any (touches touch key) then survivors touch later
      else (key, value) :: survivors touch later
    | _ => survivors touch later

/-- The value last written for a key, if it was not deleted since. -/
def lastWrite (touch : ε → Option (κ × Option ν)) (key : κ) : List ε → Option ν
  | [] => none
  | e :: later =>
    if later.any (touches touch key) then lastWrite touch key later
    else (touch e).bind fun t => if t.1 = key then t.2 else none

variable {touch : ε → Option (κ × Option ν)} {key : κ} {value : ν} {e : ε} {es : List ε}

theorem touches_of_eq {w : Option ν} (h : touch e = some (key, w)) (k : κ) :
    touches touch k e = decide (key = k) := by
  rw [touches, h]
  rfl

theorem touches_of_none (h : touch e = none) (k : κ) : touches touch k e = false := by
  rw [touches, h]
  rfl

/-- A key of a surviving write is a key that some event touches. -/
theorem any_touches_of_mem {w : κ × ν} (h : w ∈ survivors touch es) :
    es.any (touches touch w.1) = true := by
  induction es with
  | nil => cases h
  | cons e later ih =>
    rw [List.any_cons, Bool.or_eq_true]
    rw [survivors] at h
    split at h
    · rename_i k v he
      split at h
      · exact Or.inr (ih h)
      · rcases List.mem_cons.1 h with rfl | h
        · exact Or.inl (by rw [touches_of_eq he]; exact decide_eq_true rfl)
        · exact Or.inr (ih h)
    · exact Or.inr (ih h)

theorem survivors_keys_nodup (es : List ε) : ((survivors touch es).map Prod.fst).Nodup := by
  induction es with
  | nil => exact List.nodup_nil
  | cons e later ih =>
    rw [survivors]
    split
    · rename_i k v he
      split
      · exact ih
      · rename_i hlater
        rw [List.map_cons, List.nodup_cons]
        refine ⟨?_, ih⟩
        intro hmem
        obtain ⟨w, hw, rfl⟩ := List.mem_map.1 hmem
        exact hlater (any_touches_of_mem hw)
    · exact ih

/-- What one more event makes of the value of a key. -/
def overwrite (touch : ε → Option (κ × Option ν)) (e : ε) (k : κ) (old : Option ν) : Option ν :=
  match touch e with
  | some (key, w) => if key = k then w else old
  | none => old

/-- What one more event makes of the entries: a write comes last. -/
def supersede (touch : ε → Option (κ × Option ν)) (e : ε) (old : List (κ × ν)) : List (κ × ν) :=
  match touch e with
  | some (key, w) => old.filter (fun s => s.1 ≠ key) ++ (w.map (key, ·)).toList
  | none => old

theorem lastWrite_concat (k : κ) (es : List ε) (e : ε) :
    lastWrite touch k (es ++ [e]) = overwrite touch e k (lastWrite touch k es) := by
  induction es with
  | nil =>
    cases h : touch e with
    | none => simp [lastWrite, overwrite, h]
    | some t => simp [lastWrite, overwrite, h]
  | cons a later ih =>
    simp only [List.cons_append, lastWrite, List.any_append, List.any_cons, List.any_nil,
      Bool.or_false, ih]
    cases h : touch e with
    | none => simp [overwrite, h, touches_of_none h]
    | some t =>
      by_cases hk : t.1 = k <;> simp [overwrite, h, touches_of_eq h, hk]

theorem survivors_concat (es : List ε) (e : ε) :
    survivors touch (es ++ [e]) = supersede touch e (survivors touch es) := by
  cases h : touch e with
  | none =>
    simp only [supersede, h]
    induction es with
    | nil => simp [survivors, h]
    | cons a later ih =>
      simp only [List.cons_append, survivors, List.any_append, List.any_cons, List.any_nil,
        touches_of_none h, Bool.or_false, ih]
  | some t =>
    obtain ⟨key, w⟩ := t
    simp only [supersede, h]
    induction es with
    | nil => cases w <;> simp [survivors, h]
    | cons a later ih =>
      simp only [List.cons_append, survivors, List.any_append, List.any_cons, List.any_nil,
        touches_of_eq h, Bool.or_false, ih]
      cases ha : touch a with
      | none => rfl
      | some t =>
        obtain ⟨k, _ | v⟩ := t
        · rfl
        · by_cases hk : key = k
          · subst hk
            by_cases hlater : later.any (touches touch key) = true <;> simp [hlater]
          · have hk' : k ≠ key := fun heq => hk heq.symm
            by_cases hlater : later.any (touches touch k) = true <;> simp [hlater, hk, hk']

/-- With distinct keys, erasing the first entry of a key leaves none of that key. -/
theorem eraseP_eq_filter {entries : List (κ × ν)} (h : (entries.map Prod.fst).Nodup) (k : κ) :
    entries.eraseP (fun s => s.1 = k) = entries.filter (fun s => s.1 ≠ k) := by
  induction entries with
  | nil => rfl
  | cons s rest ih =>
    rw [List.map_cons, List.nodup_cons] at h
    by_cases hs : s.1 = k
    · rw [List.eraseP_cons_of_pos (by simpa using hs), List.filter_cons_of_neg (by simpa using hs)]
      refine (List.filter_eq_self.2 ?_).symm
      intro t ht
      apply decide_eq_true
      rintro rfl
      exact h.1 (hs ▸ List.mem_map.2 ⟨t, ht, rfl⟩)
    · rw [List.eraseP_cons_of_neg (by simpa using hs), List.filter_cons_of_pos (by simpa using hs),
        ih h.2]

section Stores

variable {σ : Type*} {step : σ → ε → σ} {s₀ : σ}

/-- A store that every event overwrites holds the last writes of its whole history. -/
theorem foldl_eq_lastWrite (value : σ → Option ν) (h₀ : value s₀ = none)
    (h : ∀ s e, value (step s e) = overwrite touch e key (value s)) (es : List ε) :
    value (es.foldl step s₀) = lastWrite touch key es := by
  induction es using List.reverseRecOn with
  | nil => exact h₀
  | append_singleton es e ih => rw [List.foldl_append, lastWrite_concat, ← ih]; exact h _ e

/-- A list that every event supersedes holds the surviving writes of its whole history; the
step may rely on the keys being distinct. -/
theorem foldl_eq_survivors (entries : σ → List (κ × ν)) (h₀ : entries s₀ = [])
    (h : ∀ s e, ((entries s).map Prod.fst).Nodup → entries (step s e) =
      supersede touch e (entries s)) (es : List ε) :
    entries (es.foldl step s₀) = survivors touch es := by
  induction es using List.reverseRecOn with
  | nil => exact h₀
  | append_singleton es e ih =>
    rw [List.foldl_append, survivors_concat, ← ih]
    apply h _ e
    rw [ih]
    exact survivors_keys_nodup es

end Stores

end LastWrites
