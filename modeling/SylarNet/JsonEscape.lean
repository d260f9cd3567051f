import Mathlib.Algebra.Ring.Nat
import SylarNet.SylarHttp

/-!
# Escaping a string for JSON

`JsonUtil::Escape` makes its result as long as the escaped text and then appends that text, so that
there are as many null bytes in front of it.
-/
namespace JsonEscape

open SylarHttp (bytes)

/-- `JsonUtil::NeedEscape` -/
def needEscape (v : List UInt8) : Bool := v.any fun c => c ∈ [12, 9, 13, 10, 8, 34, 92]

/-- The loop that adds up `size`. -/
def escapedSize (v : List UInt8) : ℕ :=
  (v.map fun c => if c ∈ [12, 9, 13, 10, 8, 34, 92] then 2 else 1).sum

/-- The cases of the last loop. -/
def escapes : List (UInt8 × List UInt8) :=
  [(12, bytes "\\f"), (9, bytes "\\t"), (13, bytes "\\r"), (10, bytes "\\n"), (8, bytes "\\b"),
   (34, bytes "\\\""), (92, bytes "\\\\")]

def escapeChar (c : UInt8) : List UInt8 := (escapes.lookup c).getD [c]

/-- What the last loop appends. -/
def appended (v : List UInt8) : List UInt8 := v.flatMap escapeChar

/-- `JsonUtil::Escape` -/
def escape (v : List UInt8) : List UInt8 :=
  if escapedSize v = v.length then v else List.replicate (escapedSize v) 0 ++ appended v

section Json

/-- The characters that JSON writes behind a backslash, and what they stand for. A `u` is not among
those that are written. -/
def jsonEscapes : List (UInt8 × UInt8) :=
  [(34, 34), (92, 92), (47, 47), (98, 8), (102, 12), (110, 10), (114, 13), (116, 9)]

def unescape : List UInt8 → Option (List UInt8)
  | [] => some []
  | [c] => if c = 92 then none else some [c]
  | c :: d :: l =>
    if c = 92 then (jsonEscapes.lookup d).bind fun x => (unescape l).map (x :: ·)
    else (unescape (d :: l)).map (c :: ·)

/-- The characters that no backslash escapes. -/
def unescaped : List UInt8 → List UInt8
  | [] => []
  | [c] => [c]
  | c :: d :: l => if c = 92 then unescaped l else c :: unescaped (d :: l)

/-- Quote, backslash and the control characters with a letter of their own. -/
def special (c : UInt8) : Bool := c = 34 || c = 92 || c = 8 || c = 12 || c = 10 || c = 13 || c = 9

/-- `text` is the string `v` escaped. -/
structure Escapes (v text : List UInt8) : Prop where
  size : text.length = v.length + v.countP special
  clean : ∀ c ∈ unescaped text, special c = false
  inverse : unescape text = some v

/-- `Escape` and `NeedEscape` agree on `v`, and the result is `v` escaped. -/
structure Correct (v : List UInt8) : Prop extends Escapes v (escape v) where
  same : escape v = v ↔ needEscape v = false

end Json

section Table

variable {c d : UInt8} {l v : List UInt8}

theorem mem_labels : c ∈ [12, 9, 13, 10, 8, 34, 92] ↔ special c = true := by
  simp only [List.mem_cons, List.not_mem_nil, or_false, special, Bool.or_eq_true, decide_eq_true_eq]
  tauto

theorem needEscape_eq (v : List UInt8) : needEscape v = v.any special := by
  simp only [needEscape, mem_labels, Bool.decide_eq_true]

theorem needEscape_cons : needEscape (c :: v) = false ↔
    special c = false ∧ needEscape v = false := by
  simp [needEscape_eq]

theorem escapedSize_eq (v : List UInt8) : escapedSize v = v.length + v.countP special := by
  induction v with
  | nil => rfl
  | cons c v ih =>
    have hcons : escapedSize (c :: v) =
        (if c ∈ [12, 9, 13, 10, 8, 34, 92] then 2 else 1) + escapedSize v := rfl
    rw [hcons, ih, List.length_cons, List.countP_cons]
    by_cases hc : special c = true
    · rw [if_pos (mem_labels.2 hc), if_pos hc]
      omega
    · rw [if_neg (mem_labels.not.2 hc), if_neg hc]
      omega

/-- A special character becomes a backslash and what stands for it behind one. -/
theorem escapeChar_special (h : special c = true) :
    ∃ d, escapeChar c = [92, d] ∧ jsonEscapes.lookup d = some c := by
  simp only [← mem_labels, List.mem_cons, List.not_mem_nil, or_false] at h
  rcases h with rfl | rfl | rfl | rfl | rfl | rfl | rfl
  · exact ⟨102, by decide⟩
  · exact ⟨116, by decide⟩
  · exact ⟨114, by decide⟩
  · exact ⟨110, by decide⟩
  · exact ⟨98, by decide⟩
  · exact ⟨34, by decide⟩
  · exact ⟨92, by decide⟩

theorem escapeChar_plain (h : special c = false) : escapeChar c = [c] := by
  have hkeys : ∀ e ∈ escapes, special e.1 = true := by decide
  have hnone : escapes.lookup c = none := by
    rw [List.lookup_eq_none_iff]
    intro e he
    rw [bne_iff_ne]
    rintro rfl
    exact absurd (hkeys e he) (Bool.eq_false_iff.1 h)
  rw [escapeChar, hnone]
  rfl

theorem ne_backslash (h : special c = false) : c ≠ 92 := by
  rintro rfl
  exact absurd h (by decide)

theorem unescape_plain (h : c ≠ 92) : unescape (c :: l) = (unescape l).map (c :: ·) := by
  cases l with
  | nil => simp [unescape, h]
  | cons d l => simp [unescape, h]

theorem unescaped_plain (h : c ≠ 92) : unescaped (c :: l) = c :: unescaped l := by
  cases l with
  | nil => rfl
  | cons d l => simp [unescaped, h]

theorem unescape_escape : unescape (92 :: d :: l) =
    (jsonEscapes.lookup d).bind fun x => (unescape l).map (x :: ·) := rfl

theorem unescaped_escape : unescaped (92 :: d :: l) = unescaped l := rfl

end Table

section Results

variable {v : List UInt8}

theorem appended_cons (c : UInt8) (v : List UInt8) :
    appended (c :: v) = escapeChar c ++ appended v := rfl

/-- What is appended is right for every string. -/
theorem appended_escapes (v : List UInt8) : Escapes v (appended v) := by
  induction v with
  | nil =>
    refine ⟨rfl, ?_, rfl⟩
    intro c hmem
    cases hmem
  | cons c v ih =>
    rw [appended_cons]
    cases hc : special c with
    | true =>
      obtain ⟨d, hescape, hlookup⟩ := escapeChar_special hc
      rw [hescape]
      constructor
      · simp only [List.cons_append, List.nil_append, List.length_cons, ih.size,
          List.countP_cons_of_pos hc]
        omega
      · simpa only [List.cons_append, List.nil_append, unescaped_escape] using ih.clean
      · simp [unescape_escape, hlookup, ih.inverse]
    | false =>
      rw [escapeChar_plain hc]
      constructor
      · simp only [List.cons_append, List.nil_append, List.length_cons, ih.size,
          List.countP_cons_of_neg (Bool.eq_false_iff.1 hc)]
        omega
      · rw [List.singleton_append, unescaped_plain (ne_backslash hc), List.forall_mem_cons]
        exact ⟨hc, ih.clean⟩
      · rw [List.singleton_append, unescape_plain (ne_backslash hc), ih.inverse]
        rfl

theorem appended_plain (h : needEscape v = false) : appended v = v := by
  induction v with
  | nil => rfl
  | cons c v ih =>
    obtain ⟨hc, hv⟩ := needEscape_cons.1 h
    rw [appended_cons, escapeChar_plain hc, ih hv]
    rfl

theorem needEscape_iff : needEscape v = true ↔ 0 < v.countP special := by
  rw [needEscape_eq, List.any_eq_true, List.countP_pos_iff]

theorem escape_plain (h : needEscape v = false) : escape v = v := by
  have hcount : v.countP special = 0 := by
    have hnot := needEscape_iff.not.1 (Bool.eq_false_iff.1 h)
    omega
  rw [escape, if_pos (by rw [escapedSize_eq, hcount, Nat.add_zero])]

theorem escape_special (h : needEscape v = true) :
    escape v = List.replicate (escapedSize v) 0 ++ appended v := by
  have hcount := needEscape_iff.1 h
  rw [escape, if_neg (by rw [escapedSize_eq]; omega)]

/-- The result is right exactly for the strings that are returned as they are. -/
theorem escape_correct_iff (v : List UInt8) : Correct v ↔ needEscape v = false := by
  constructor
  · intro h
    by_contra hneed
    rw [Bool.not_eq_false] at hneed
    have hsize := h.size
    have hcount := needEscape_iff.1 hneed
    rw [escape_special hneed, List.length_append, List.length_replicate, escapedSize_eq,
      (appended_escapes v).size] at hsize
    omega
  · intro h
    refine ⟨?_, iff_of_true (escape_plain h) h⟩
    rw [escape_plain h]
    simpa only [appended_plain h] using appended_escapes v

/-- A line feed becomes `\n` behind two null bytes. -/
theorem line_feed_nulls : ¬ ∀ v, Correct v := by
  intro h
  exact absurd (h [10]).size (by decide)

end Results

end JsonEscape
