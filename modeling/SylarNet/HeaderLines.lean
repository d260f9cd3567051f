import Mathlib.Data.List.TakeWhile
import Mathlib.Data.Nat.Notation
import Mathlib.Tactic.Common

/-!
# Lines of fields up to a blank line

A field is a name and a value; its line has a colon and a blank between them. The lines end
with a blank one, and what is behind it is the body. Reading a text back gives the fields, the
values without the blanks in front of them.
-/
namespace HeaderLines

abbrev Field := List UInt8 × List UInt8

def fieldLine (f : Field) : List UInt8 := f.1 ++ 58 :: 32 :: (f.2 ++ [13, 10])

/-- Up to the first carriage return with a line feed behind it, and what is behind both. -/
def takeLine : List UInt8 → Option (List UInt8 × List UInt8)
  | [] => none
  | [_] => none
  | a :: b :: rest =>
    if a = 13 ∧ b = 10 then some ([], rest)
    else (takeLine (b :: rest)).map fun r => (a :: r.1, r.2)

def trim (value : List UInt8) : List UInt8 := value.dropWhile (· == 32)

def fieldOf (line : List UInt8) : Field :=
  (line.takeWhile (· != 58), trim ((line.dropWhile (· != 58)).drop 1))

/-- The fields up to the blank line, of which there are fewer than `fuel`. -/
def readFields : ℕ → List UInt8 → Option (List Field × List UInt8)
  | 0, _ => none
  | fuel + 1, text =>
    (takeLine text).bind fun r =>
      if r.1 = [] then some ([], r.2)
      else (readFields fuel r.2).map fun t => (fieldOf r.1 :: t.1, t.2)

/-- No line of a text is shorter than two bytes. -/
def split (text : List UInt8) : Option (List Field × List UInt8) := readFields text.length text

/-- The line of such a field is read back. -/
def Plain (f : Field) : Prop := 58 ∉ f.1 ∧ 13 ∉ f.1 ∧ 13 ∉ f.2

instance (f : Field) : Decidable (Plain f) := inferInstanceAs (Decidable (_ ∧ _ ∧ _))

theorem takeLine_append {line : List UInt8} (h : 13 ∉ line) (rest : List UInt8) :
    takeLine (line ++ 13 :: 10 :: rest) = some (line, rest) := by
  induction line with
  | nil => rw [List.nil_append, takeLine, if_pos ⟨rfl, rfl⟩]
  | cons a line ih =>
    rw [List.mem_cons, not_or] at h
    have hne : a ≠ 13 := Ne.symm h.1
    obtain ⟨b, more, hmore⟩ : ∃ b more, line ++ 13 :: 10 :: rest = b :: more := by
      cases line with
      | nil => exact ⟨13, 10 :: rest, rfl⟩
      | cons b line => exact ⟨b, line ++ 13 :: 10 :: rest, rfl⟩
    have hrest := ih h.2
    rw [hmore] at hrest
    rw [List.cons_append, hmore, takeLine, if_neg fun hcr => hne hcr.1, hrest]
    rfl

theorem fieldOf_line {f : Field} (h : 58 ∉ f.1) :
    fieldOf (f.1 ++ 58 :: 32 :: f.2) = (f.1, trim f.2) := by
  have hname : ∀ c ∈ f.1, (c != 58) = true := by
    intro c hc
    rw [bne_iff_ne]
    rintro rfl
    exact h hc
  unfold fieldOf
  rw [List.takeWhile_append_of_pos hname, List.dropWhile_append_of_pos hname]
  simp [trim]

theorem readFields_fieldLines {fs : List Field} (h : ∀ f ∈ fs, Plain f) (body : List UInt8)
    {fuel : ℕ} (hfuel : fs.length < fuel) :
    readFields fuel (fs.flatMap fieldLine ++ 13 :: 10 :: body) =
      some (fs.map fun f => (f.1, trim f.2), body) := by
  induction fs generalizing fuel with
  | nil =>
    obtain ⟨n, rfl⟩ : ∃ n, fuel = n + 1 := ⟨fuel - 1, by simp at hfuel; omega⟩
    rfl
  | cons f fs ih =>
    obtain ⟨n, rfl⟩ : ∃ n, fuel = n + 1 := ⟨fuel - 1, by omega⟩
    rw [List.forall_mem_cons] at h
    obtain ⟨hcolon, hname, hvalue⟩ := h.1
    have hline : 13 ∉ f.1 ++ 58 :: 32 :: f.2 := by
      simp [hname, hvalue]
    have hne : f.1 ++ 58 :: 32 :: f.2 ≠ [] := by simp
    have htext : (f :: fs).flatMap fieldLine ++ 13 :: 10 :: body =
        (f.1 ++ 58 :: 32 :: f.2) ++ 13 :: 10 :: (fs.flatMap fieldLine ++ 13 :: 10 :: body) := by
      simp [fieldLine]
    rw [readFields, htext, takeLine_append hline, Option.bind_some, if_neg hne,
      ih h.2 (by simpa using hfuel), fieldOf_line hcolon]
    rfl

theorem length_le_fieldLines (fs : List Field) : fs.length ≤ (fs.flatMap fieldLine).length := by
  induction fs with
  | nil => exact Nat.le_refl 0
  | cons f fs ih =>
    rw [List.flatMap_cons, List.length_append, List.length_cons]
    have hline : 0 < (fieldLine f).length := by
      rw [fieldLine, List.length_append, List.length_cons]
      omega
    omega

/-- What was written as lines of fields is read back. -/
theorem split_fieldLines {fs : List Field} (h : ∀ f ∈ fs, Plain f) (body : List UInt8) :
    split (fs.flatMap fieldLine ++ 13 :: 10 :: body) =
      some (fs.map fun f => (f.1, trim f.2), body) := by
  apply readFields_fieldLines h
  have hlen := length_le_fieldLines fs
  rw [List.length_append, List.length_cons]
  omega

end HeaderLines
