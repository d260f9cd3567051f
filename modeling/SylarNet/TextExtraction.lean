import SylarNet.DecimalText
import Mathlib.Data.Int.Notation

/-!
# Extraction from a text stream

Characters and decimal numbers, as the input streams of a standard library take them. Blanks in
front are passed over; a stream that failed or came to its end gives nothing more.
-/
namespace TextExtraction

open DecimalText

structure TextStream where
  text : List UInt8
  /-- Neither failed nor at the end. -/
  good : Bool
  deriving DecidableEq, Repr

def isSpace (c : UInt8) : Bool := c = 32 || (9 ≤ c && c ≤ 13)

/-- What an extraction starts with, unless the stream has nothing more to give. -/
def sentry (s : TextStream) : Option (UInt8 × List UInt8) :=
  if s.good then
    match s.text.dropWhile isSpace with
    | [] => none
    | c :: rest => some (c, rest)
  else none

/-- A variable keeps its value where nothing is extracted. -/
def getChar (old : UInt8) : StateM TextStream UInt8 := fun s =>
  match sentry s with
  | none => (old, ⟨s.text, false⟩)
  | some (c, rest) => (c, ⟨rest, true⟩)

def sign (c : UInt8) (rest : List UInt8) : Bool × List UInt8 :=
  if c = 45 then (true, rest) else if c = 43 then (false, rest) else (false, c :: rest)

/-- A number outside of `lo .. hi` fails, and leaves the nearer of the two. -/
def getNumber (lo hi old : ℤ) : StateM TextStream ℤ := fun s =>
  match sentry s with
  | none => (old, ⟨s.text, false⟩)
  | some (c, rest) =>
    let (negative, text) := sign c rest
    let digits := text.takeWhile isDigit
    let rest := text.dropWhile isDigit
    if digits = [] then (0, ⟨rest, false⟩)
    else
      let v : ℤ := if negative then -value digits else value digits
      if v < lo then (lo, ⟨rest, false⟩)
      else if hi < v then (hi, ⟨rest, false⟩)
      else (v, ⟨rest, !rest.isEmpty⟩)

/-- A number has nothing behind it that could be one of its digits. -/
def Boundary (rest : List UInt8) : Prop := ∀ c ∈ rest.head?, isDigit c = false

instance (rest : List UInt8) : Decidable (Boundary rest) :=
  match rest with
  | [] => isTrue fun _ h => by cases h
  | c :: _ =>
    if h : isDigit c = false then isTrue fun _ hb => Option.some.inj hb ▸ h
    else isFalse fun hall => h (hall c rfl)

section Numbers

variable {rest : List UInt8}

theorem takeWhile_decimal (n : ℕ) (h : Boundary rest) :
    (decimal n ++ rest).takeWhile isDigit = decimal n ∧
      (decimal n ++ rest).dropWhile isDigit = rest := by
  have hdigits : ∀ c ∈ decimal n, isDigit c = true := fun c hc => isDigit_of_mem_decimal hc
  simp only [List.takeWhile_append_of_pos hdigits, List.dropWhile_append_of_pos hdigits]
  cases rest with
  | nil => simp
  | cons c rest =>
    have hc : isDigit c = false := h c rfl
    simp [hc]

theorem ne_of_isDigit {c d : UInt8} (hc : isDigit c = true) (hd : isDigit d = false) : c ≠ d := by
  rintro rfl
  exact Bool.false_ne_true (hd.symm.trans hc)

theorem isSpace_of_isDigit {c : UInt8} (h : isDigit c = true) : isSpace c = false := by
  have hrange := (isDigit_iff c).1 h
  have hblank : c ≠ 32 := ne_of_isDigit h rfl
  have hcontrol : ¬c ≤ 13 := by
    apply Nat.not_le.2
    change 13 < c.toNat
    omega
  simp only [isSpace, hblank, hcontrol, decide_false, Bool.and_false, Bool.or_false]

theorem not_sign_of_isDigit {c : UInt8} (h : isDigit c = true) (rest : List UInt8) :
    sign c rest = (false, c :: rest) := by
  have hminus : c ≠ 45 := ne_of_isDigit h rfl
  have hplus : c ≠ 43 := ne_of_isDigit h rfl
  simp only [sign, hminus, hplus, if_false]

theorem sentry_space (s : List UInt8) : sentry ⟨32 :: s, true⟩ = sentry ⟨s, true⟩ := rfl

theorem sentry_cons {c : UInt8} (h : isSpace c = false) (rest : List UInt8) :
    sentry ⟨c :: rest, true⟩ = some (c, rest) := by
  simp [sentry, h]

/-- The sign and the digits of a number are found again. -/
theorem sentry_ofInt (v : ℤ) (rest : List UInt8) : ∃ c text,
    sentry ⟨ofInt v ++ rest, true⟩ = some (c, text) ∧
      sign c text = (decide (v < 0), decimal v.natAbs ++ rest) := by
  obtain ⟨c, digits, hdecimal⟩ := List.exists_cons_of_ne_nil (decimal_ne_nil v.natAbs)
  have hc : isDigit c = true := isDigit_of_mem_decimal (hdecimal ▸ List.mem_cons_self)
  by_cases hneg : v < 0
  · refine ⟨45, decimal v.natAbs ++ rest, ?_, ?_⟩
    · simp only [ofInt, hneg, if_true]
      rfl
    · simp [sign, hneg]
  · refine ⟨c, digits ++ rest, ?_, ?_⟩
    · simp only [ofInt, hneg, if_false, hdecimal, List.cons_append]
      exact sentry_cons (isSpace_of_isDigit hc) _
    · simp only [not_sign_of_isDigit hc, hneg, decide_false, hdecimal, List.cons_append]

/-- A number behind a blank is extracted whole, and the stream is where the number ends. -/
theorem getNumber_text {lo hi v : ℤ} (hlo : lo ≤ v) (hhi : v ≤ hi) (h : Boundary rest) (old : ℤ) :
    getNumber lo hi old ⟨32 :: (ofInt v ++ rest), true⟩ = (v, ⟨rest, !rest.isEmpty⟩) := by
  obtain ⟨c, text, hsentry, hsign⟩ := sentry_ofInt v rest
  obtain ⟨htake, hdrop⟩ := takeWhile_decimal v.natAbs h
  have hvalue : (if decide (v < 0) = true then -(v.natAbs : ℤ) else v.natAbs) = v := by
    split_ifs with hneg <;> simp only [decide_eq_true_eq] at hneg <;> omega
  simp only [getNumber, sentry_space, hsentry, hsign, htake, hdrop, decimal_ne_nil, if_false,
    value_decimal, hvalue, Int.not_lt.2 hlo, Int.not_lt.2 hhi]

theorem getChar_text {c : UInt8} (h : isSpace c = false) (old : UInt8) :
    getChar old ⟨32 :: c :: rest, true⟩ = (c, ⟨rest, true⟩) := by
  simp only [getChar, sentry_space, sentry_cons h]

end Numbers

end TextExtraction
