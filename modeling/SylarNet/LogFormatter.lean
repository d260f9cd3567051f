import SylarNet.SylarHttp

/-!
# The pattern of a formatter

`LogFormatter::init` goes through a pattern once and turns what it found into items. Behind the
first sign of an escaped percent it does not skip the second, which then begins a directive.
-/
namespace LogFormatter

open SylarHttp (bytes)

def isalpha (c : UInt8) : Bool := 65 ≤ c && c ≤ 90 || 97 ≤ c && c ≤ 122

/-- The classes of items, and what an object of a class keeps. -/
inductive FormatterItem where
  | string (m_string : List UInt8)
  | message
  | level
  | elapse
  | name
  | threadId
  | threadName
  | fiberId
  | dateTime (m_formatter : List UInt8)
  | filename
  | line
  | newLine
  | tab
  deriving DecidableEq, Repr

def dateTimeFormatterItem (format : List UInt8) : FormatterItem :=
  .dateTime (if format = [] then bytes "%Y-%m-%d %H:%M:%S" else format)

/-- `s_format_items` -/
def formatItems : List (UInt8 × (List UInt8 → FormatterItem)) :=
  [(109, fun _ => .message), (112, fun _ => .level), (114, fun _ => .elapse),
   (99, fun _ => .name), (116, fun _ => .threadId), (78, fun _ => .threadName),
   (110, fun _ => .newLine), (100, dateTimeFormatterItem), (102, fun _ => .filename),
   (108, fun _ => .line), (84, fun _ => .tab), (70, fun _ => .fiberId)]

/-- `s_format_items.find`, whose keys have one letter. -/
def findItem (str : List UInt8) : Option (List UInt8 → FormatterItem) :=
  match str with
  | [x] => formatItems.lookup x
  | _ => none

/-- The entries of `vec` by their last member. -/
inductive Entry where
  | text (str : List UInt8)
  | directive (str fmt : List UInt8)
  deriving DecidableEq, Repr

/-- The inner loop, on the pattern from `n` on with what is behind the percent or the brace. There
is a `str` as soon as `fmt_status` is 1. `none`: the status is still 1 at the end. -/
def scan : Option (List UInt8) → List UInt8 → List UInt8 →
    Option (List UInt8 × List UInt8 × List UInt8)
  | none, seen, [] => some (seen, [], [])
  | none, seen, c :: l =>
    if !isalpha c && c ≠ 123 && c ≠ 125 then some (seen, [], c :: l)
    else if c = 123 then scan (some seen) [] l
    else scan none (seen ++ [c]) l
  | some _, _, [] => none
  | some str, seen, c :: l =>
    if c = 125 then some (str, seen, l) else scan (some str) (seen ++ [c]) l

def flush (nstr : List UInt8) : List Entry := if nstr = [] then [] else [.text nstr]

/-- The outer loop with `m_error`. An assignment to `i` is the number of bytes to skip. -/
def initLoop : ℕ → List UInt8 → List UInt8 → List Entry × Bool
  | _, nstr, [] => (flush nstr, false)
  | skip + 1, nstr, _ :: l => initLoop skip nstr l
  | 0, nstr, c :: l =>
    if c ≠ 37 then initLoop 0 (nstr ++ [c]) l
    else if l.head? = some 37 then initLoop 0 (nstr ++ [37]) l
    else
      match scan none [] l with
      | some (str, fmt, rest) =>
        let r := initLoop (l.length - rest.length) [] l
        (flush nstr ++ .directive str fmt :: r.1, r.2)
      | none => (.text (bytes "<<pattern_error>>") :: (initLoop 0 nstr l).1, true)

/-- The item of an entry, and whether it is an error. -/
def itemOf : Entry → FormatterItem × Bool
  | .text str => (.string str, false)
  | .directive str fmt =>
    match findItem str with
    | none => (.string (bytes "<<error_format %" ++ str ++ bytes ">>"), true)
    | some make => (make fmt, false)

/-- The loop over `vec`, with what `m_error` is before it. -/
def makeItems (r : List Entry × Bool) : List FormatterItem × Bool :=
  (r.1.map fun e => (itemOf e).1, r.2 || r.1.any fun e => (itemOf e).2)

/-- `m_items` and `m_error`. -/
def init (m_pattern : List UInt8) : List FormatterItem × Bool :=
  makeItems (initLoop 0 [] m_pattern)

section Grammar

/-- A letter of the table. -/
abbrev Letter := { x : UInt8 // (formatItems.lookup x).isSome }

/-- Something that a pattern is written with. -/
inductive Piece where
  | literal (c : { c : UInt8 // c ≠ 37 })
  | percent
  | directive (x : Letter) (fmt : Option { t : List UInt8 // 125 ∉ t })

namespace Piece

def text : Piece → List UInt8
  | .literal c => [c.1]
  | .percent => [37, 37]
  | .directive x none => [37, x.1]
  | .directive x (some t) => [37, x.1, 123] ++ t.1 ++ [125]

end Piece

def textOf (pieces : List Piece) : List UInt8 := pieces.flatMap Piece.text

/-- Neither a letter nor a brace. -/
def endsName (c : UInt8) : Bool := !isalpha c && c ≠ 123 && c ≠ 125

/-- Behind a directive without a format the name is at its end, in front of a text too. -/
def Spaced (behind : List UInt8) : List Piece → Prop
  | [] => True
  | .directive _ none :: ps =>
    (∀ c ∈ (textOf ps ++ behind).head?, endsName c = true) ∧ Spaced behind ps
  | _ :: ps => Spaced behind ps

structure Pattern where
  pieces : List Piece
  spaced : Spaced [] pieces

/-- The items of the pieces, with the text in front of them. -/
def expected : List UInt8 → List Piece → List FormatterItem
  | nstr, [] => (flush nstr).map fun e => (itemOf e).1
  | nstr, .literal c :: ps => expected (nstr ++ [c.1]) ps
  | nstr, .percent :: ps => expected (nstr ++ [37]) ps
  | nstr, .directive x fmt :: ps =>
    (flush nstr).map (fun e => (itemOf e).1) ++
      (formatItems.lookup x.1).get x.2 (fmt.elim [] Subtype.val) :: expected [] ps

/-- A byte that the scanner takes for one of a name. -/
def inName (c : UInt8) : Bool := isalpha c || c = 125

/-- A directive with a name that is not in the table, or with a brace that is not closed. -/
inductive Malformed : List UInt8 → Prop
  | unknown (name rest : List UInt8) (hname : ∀ c ∈ name, inName c = true)
      (hend : ∀ c ∈ rest.head?, inName c = false) (hfind : findItem name = none)
      (hpercent : (name ++ rest).head? ≠ some 37) : Malformed (37 :: (name ++ rest))
  | unterminated (name rest : List UInt8) (hname : ∀ c ∈ name, inName c = true)
      (hopen : 125 ∉ rest) : Malformed (37 :: (name ++ 123 :: rest))

/-- The pattern has the items of its pieces, and what is malformed behind it is an error. -/
structure Right (p : Pattern) : Prop where
  items : init (textOf p.pieces) = (expected [] p.pieces, false)
  errors : ∀ t, Malformed t → (init (textOf p.pieces ++ t)).2 = true

end Grammar

section Scanner

variable {seen str fmt rest l nstr : List UInt8} {c : UInt8}

theorem scan_cons : scan none seen (c :: l) =
    if !isalpha c && c ≠ 123 && c ≠ 125 then some (seen, [], c :: l)
    else if c = 123 then scan (some seen) [] l
    else scan none (seen ++ [c]) l := rfl

theorem scan_braced : scan (some str) seen (c :: l) =
    if c = 125 then some (str, seen, l) else scan (some str) (seen ++ [c]) l := rfl

theorem scan_end (h : ∀ c ∈ l.head?, endsName c = true) :
    scan none seen l = some (seen, [], l) := by
  cases l with
  | nil => rfl
  | cons c l =>
    have hc := h c rfl
    simp only [endsName] at hc
    rw [scan_cons, if_pos hc]

theorem scan_name {name : List UInt8} (h : ∀ c ∈ name, inName c = true) :
    scan none seen (name ++ l) = scan none (seen ++ name) l := by
  induction name generalizing seen with
  | nil => simp
  | cons c name ih =>
    rw [List.forall_mem_cons] at h
    obtain ⟨hc, hname⟩ := h
    have hstay : ¬ (!isalpha c && c ≠ 123 && c ≠ 125) = true := by
      simp [inName] at hc
      rcases hc with hc | hc <;> simp [hc]
    have hopen : c ≠ 123 := by
      rintro rfl
      exact absurd hc (by decide)
    rw [List.cons_append, scan_cons, if_neg hstay, if_neg hopen, ih hname, List.append_assoc]
    rfl

theorem scan_open : scan none seen (123 :: l) = scan (some seen) [] l := rfl

theorem scan_fmt (h : 125 ∉ fmt) :
    scan (some str) seen (fmt ++ 125 :: rest) = some (str, seen ++ fmt, rest) := by
  induction fmt generalizing seen with
  | nil => simp [scan_braced]
  | cons c fmt ih =>
    rw [List.mem_cons, not_or] at h
    rw [List.cons_append, scan_braced, if_neg (Ne.symm h.1), ih h.2, List.append_assoc]
    rfl

theorem scan_unterminated (h : 125 ∉ l) : scan (some str) seen l = none := by
  induction l generalizing seen with
  | nil => rfl
  | cons c l ih =>
    rw [List.mem_cons, not_or] at h
    rw [scan_braced, if_neg (Ne.symm h.1), ih h.2]

theorem scan_str {name : List UInt8} (h : scan (some name) seen l = some (str, fmt, rest)) :
    str = name := by
  induction l generalizing seen with
  | nil => cases h
  | cons c l ih =>
    rw [scan_braced] at h
    split_ifs at h with hclose
    · cases h
      rfl
    · exact ih h

theorem scan_rest {status : Option (List UInt8)} (h : scan status seen l = some (str, fmt, rest)) :
    rest <:+ l := by
  induction l generalizing status seen with
  | nil =>
    cases status with
    | none =>
      cases h
      exact List.suffix_refl []
    | some name => cases h
  | cons c l ih =>
    cases status with
    | none =>
      rw [scan_cons] at h
      split_ifs at h with hend hopen
      · cases h
        exact List.suffix_refl _
      · exact (ih h).trans (List.suffix_cons c l)
      · exact (ih h).trans (List.suffix_cons c l)
    | some name =>
      rw [scan_braced] at h
      split_ifs at h with hclose
      · cases h
        exact List.suffix_cons _ _
      · exact (ih h).trans (List.suffix_cons c l)

theorem initLoop_cons : initLoop 0 nstr (c :: l) =
    if c ≠ 37 then initLoop 0 (nstr ++ [c]) l
    else if l.head? = some 37 then initLoop 0 (nstr ++ [37]) l
    else
      match scan none [] l with
      | some (str, fmt, rest) =>
        let r := initLoop (l.length - rest.length) [] l
        (flush nstr ++ .directive str fmt :: r.1, r.2)
      | none => (.text (bytes "<<pattern_error>>") :: (initLoop 0 nstr l).1, true) := rfl

theorem initLoop_skip (k : ℕ) (nstr l : List UInt8) :
    initLoop k nstr l = initLoop 0 nstr (l.drop k) := by
  induction k generalizing l with
  | zero => rfl
  | succ k ih =>
    cases l with
    | nil => rw [List.drop_nil]; rfl
    | cons c l => exact ih l

theorem initLoop_literal (h : c ≠ 37) : initLoop 0 nstr (c :: l) = initLoop 0 (nstr ++ [c]) l := by
  rw [initLoop_cons, if_pos h]

theorem initLoop_percent :
    initLoop 0 nstr (37 :: 37 :: l) = initLoop 0 (nstr ++ [37]) (37 :: l) := rfl

theorem initLoop_directive (hhead : l.head? ≠ some 37)
    (h : scan none [] l = some (str, fmt, rest)) : initLoop 0 nstr (37 :: l) =
      (flush nstr ++ .directive str fmt :: (initLoop 0 [] rest).1, (initLoop 0 [] rest).2) := by
  have hdrop : l.drop (l.length - rest.length) = rest :=
    (List.suffix_iff_eq_drop.1 (scan_rest h)).symm
  simp only [initLoop_cons, ne_eq, not_true, if_false, hhead, h]
  rw [initLoop_skip, hdrop]

theorem initLoop_unterminated (hhead : l.head? ≠ some 37) (h : scan none [] l = none) :
    (initLoop 0 nstr (37 :: l)).2 = true := by
  simp [initLoop_cons, hhead, h]

end Scanner

section Pieces

variable {ps qs : List Piece} {t nstr : List UInt8}

/-- The entries of the pieces with the text in front of them, and the text that is left. -/
def entries : List UInt8 → List Piece → List Entry × List UInt8
  | nstr, [] => ([], nstr)
  | nstr, .literal c :: ps => entries (nstr ++ [c.1]) ps
  | nstr, .percent :: ps => entries (nstr ++ [37]) ps
  | nstr, .directive x fmt :: ps =>
    (flush nstr ++ .directive [x.1] (fmt.elim [] Subtype.val) :: (entries [] ps).1,
      (entries [] ps).2)

theorem spaced_append (h : Spaced t (ps ++ qs)) : Spaced (textOf qs ++ t) ps := by
  induction ps with
  | nil => trivial
  | cons p ps ih =>
    cases p with
    | literal c => exact ih h
    | percent => exact ih h
    | directive x fmt =>
      cases fmt with
      | none =>
        obtain ⟨hhead, hrest⟩ := h
        refine ⟨?_, ih hrest⟩
        rwa [← List.append_assoc, textOf, textOf, ← List.flatMap_append]
      | some fmt => exact ih h

theorem Spaced.before (h : Spaced [] ps) (ht : ∀ c ∈ t.head?, endsName c = true) : Spaced t ps := by
  induction ps with
  | nil => trivial
  | cons p ps ih =>
    cases p with
    | literal c => exact ih h
    | percent => exact ih h
    | directive x fmt =>
      cases fmt with
      | none =>
        obtain ⟨hhead, hrest⟩ := h
        refine ⟨?_, ih hrest⟩
        rw [List.append_nil] at hhead
        cases htext : textOf ps with
        | nil => exact ht
        | cons c l =>
          rw [htext] at hhead
          exact hhead
      | some fmt => exact ih h

theorem letter_alpha (x : Letter) : isalpha x.1 = true := by
  have hkeys : ∀ p ∈ formatItems, isalpha p.1 = true := by decide
  obtain ⟨p, hp, heq⟩ := List.lookup_isSome_iff.1 x.2
  rw [beq_iff_eq.1 heq]
  exact hkeys p hp

theorem letter_inName (x : Letter) : ∀ c ∈ [x.1], inName c = true := by
  simp [inName, letter_alpha x]

theorem letter_ne (x : Letter) : x.1 ≠ 37 := by
  intro h
  have halpha := letter_alpha x
  rw [h] at halpha
  exact absurd halpha (by decide)

/-- What is scanned behind the percent of a directive. -/
theorem scan_directive {x : Letter} {fmt : Option { t : List UInt8 // 125 ∉ t }}
    (h : Spaced t (.directive x fmt :: ps)) : ∃ l, textOf (.directive x fmt :: ps) ++ t = 37 :: l ∧
      l.head? ≠ some 37 ∧
      scan none [] l = some ([x.1], fmt.elim [] Subtype.val, textOf ps ++ t) := by
  cases fmt with
  | none =>
    refine ⟨[x.1] ++ (textOf ps ++ t), by simp [textOf, Piece.text], ?_, ?_⟩
    · simpa using letter_ne x
    · rw [scan_name (letter_inName x)]
      exact scan_end h.1
  | some fmt =>
    refine ⟨[x.1] ++ 123 :: (fmt.1 ++ 125 :: (textOf ps ++ t)), ?_, ?_, ?_⟩
    · simp [textOf, Piece.text]
    · simpa using letter_ne x
    · rw [scan_name (letter_inName x), scan_open, scan_fmt fmt.2]
      rfl

theorem Spaced.tail {p : Piece} (h : Spaced t (p :: ps)) : Spaced t ps := by
  match p, h with
  | .literal _, h => exact h
  | .percent, h => exact h
  | .directive _ none, h => exact h.2
  | .directive _ (some _), h => exact h

/-- Without an escaped percent the pieces are found. -/
theorem initLoop_pieces (hps : .percent ∉ ps) (h : Spaced t ps) :
    initLoop 0 nstr (textOf ps ++ t) =
      ((entries nstr ps).1 ++ (initLoop 0 (entries nstr ps).2 t).1,
        (initLoop 0 (entries nstr ps).2 t).2) := by
  induction ps generalizing nstr with
  | nil => rfl
  | cons p ps ih =>
    rw [List.mem_cons, not_or] at hps
    cases p with
    | literal c =>
      rw [textOf, List.flatMap_cons, Piece.text, List.append_assoc, List.singleton_append,
        initLoop_literal c.2]
      exact ih hps.2 h
    | percent => exact absurd rfl hps.1
    | directive x fmt =>
      obtain ⟨l, htext, hhead, hscan⟩ := scan_directive h
      rw [htext, initLoop_directive hhead hscan, ih hps.2 h.tail, entries]
      simp

theorem itemOf_letter (x : Letter) (fmt : List UInt8) :
    itemOf (.directive [x.1] fmt) = ((formatItems.lookup x.1).get x.2 fmt, false) := by
  have hfind : findItem [x.1] = some ((formatItems.lookup x.1).get x.2) := by simp [findItem]
  simp only [itemOf, hfind]

theorem expected_append (ps qs : List Piece) (nstr : List UInt8) :
    expected nstr (ps ++ qs) =
      (entries nstr ps).1.map (fun e => (itemOf e).1) ++ expected (entries nstr ps).2 qs := by
  induction ps generalizing nstr with
  | nil => rfl
  | cons p ps ih =>
    cases p with
    | literal c => exact ih (nstr ++ [c.1])
    | percent => exact ih (nstr ++ [37])
    | directive x fmt =>
      rw [List.cons_append, expected, ih, entries]
      simp [itemOf_letter]

theorem entries_ok (ps : List Piece) (nstr : List UInt8) :
    ∀ e ∈ (entries nstr ps).1, (itemOf e).2 = false := by
  induction ps generalizing nstr with
  | nil => exact nofun
  | cons p ps ih =>
    cases p with
    | literal c => exact ih (nstr ++ [c.1])
    | percent => exact ih (nstr ++ [37])
    | directive x fmt =>
      intro e he
      rw [entries] at he
      simp only [flush, List.mem_append, List.mem_cons] at he
      rcases he with he | rfl | he
      · split at he
        · cases he
        · rw [List.mem_singleton.1 he]
          rfl
      · rw [itemOf_letter]
      · exact ih [] e he

end Pieces

section Results

variable {ps : List Piece} {t nstr : List UInt8}

/-- What is made of a pattern behind pieces without an escaped percent. -/
theorem init_pieces (hps : .percent ∉ ps) (h : Spaced t ps) : init (textOf ps ++ t) =
    ((entries [] ps).1.map (fun e => (itemOf e).1) ++
      (makeItems (initLoop 0 (entries [] ps).2 t)).1,
      (makeItems (initLoop 0 (entries [] ps).2 t)).2) := by
  have hok : ((entries [] ps).1.any fun e => (itemOf e).2) = false := by
    rw [List.any_eq_false]
    intro e he
    simp [entries_ok ps [] e he]
  rw [init, initLoop_pieces hps h, makeItems, makeItems]
  simp [hok]

/-- An unknown name is an error, and so is a brace that is not closed. -/
theorem scan_error {l : List UInt8} (hhead : l.head? ≠ some 37)
    (h : ∀ str fmt rest, scan none [] l = some (str, fmt, rest) → findItem str = none) :
    (makeItems (initLoop 0 nstr (37 :: l))).2 = true := by
  cases hscan : scan none [] l with
  | none => simp [makeItems, initLoop_unterminated hhead hscan]
  | some r =>
    obtain ⟨str, fmt, rest⟩ := r
    have hfind := h str fmt rest hscan
    rw [initLoop_directive hhead hscan, makeItems]
    simp [itemOf, hfind]

theorem malformed_error (h : Malformed t) : (makeItems (initLoop 0 nstr t)).2 = true := by
  cases h with
  | unknown name rest hname hend hfind hpercent =>
    apply scan_error hpercent
    intro str fmt behind hscan
    rw [scan_name hname, List.nil_append] at hscan
    cases rest with
    | nil =>
      cases hscan
      exact hfind
    | cons c rest =>
      have hc := hend c rfl
      simp only [inName, Bool.or_eq_false_iff, decide_eq_false_iff_not] at hc
      by_cases hopen : c = 123
      · rw [hopen, scan_open] at hscan
        rw [scan_str hscan]
        exact hfind
      · rw [scan_end (by simp [endsName, hc.1, hc.2, hopen])] at hscan
        cases hscan
        exact hfind
  | unterminated name rest hname hopen =>
    apply scan_error
    · cases name with
      | nil => simp
      | cons c name =>
        have hc := hname c List.mem_cons_self
        simp only [List.cons_append, List.head?_cons, ne_eq, Option.some.injEq]
        rintro rfl
        exact absurd hc (by decide)
    · intro str fmt behind hscan
      rw [scan_name hname, scan_open, scan_unterminated hopen] at hscan
      cases hscan

/-- The text in front of a directive is an item. -/
theorem first_text {l : List UInt8} (hhead : l.head? ≠ some 37) (hne : nstr ≠ [])
    (hok : (makeItems (initLoop 0 nstr (37 :: l))).2 = false) :
    ∃ items, (makeItems (initLoop 0 nstr (37 :: l))).1 = .string nstr :: items := by
  cases hscan : scan none [] l with
  | none => simp [makeItems, initLoop_unterminated hhead hscan] at hok
  | some r =>
    obtain ⟨str, fmt, rest⟩ := r
    rw [initLoop_directive hhead hscan, makeItems, flush, if_neg hne]
    exact ⟨_, rfl⟩

theorem expected_text (hne : nstr ≠ []) (ps : List Piece) :
    ∃ more items, expected nstr ps = .string (nstr ++ more) :: items := by
  induction ps generalizing nstr with
  | nil => exact ⟨[], [], by simp [expected, flush, hne, itemOf]⟩
  | cons p ps ih =>
    cases p with
    | literal c =>
      obtain ⟨more, items, heq⟩ := @ih (nstr ++ [c.1]) (by simp)
      exact ⟨c.1 :: more, items, by rw [expected, heq, List.append_assoc]; rfl⟩
    | percent =>
      obtain ⟨more, items, heq⟩ := @ih (nstr ++ [37]) (by simp)
      exact ⟨37 :: more, items, by rw [expected, heq, List.append_assoc]; rfl⟩
    | directive x fmt => exact ⟨[], _, by simp [expected, flush, hne, itemOf]; rfl⟩

/-- Behind the first sign of an escaped percent no items are those of the pieces. -/
theorem percent_lost {lost : List UInt8} (hne : lost ≠ []) (k : ℕ) (ps : List Piece) :
    makeItems (initLoop 0 (lost ++ List.replicate k 37) (37 :: textOf ps)) ≠
      (expected lost ps, false) := by
  induction ps generalizing lost k with
  | nil =>
    intro heq
    have herror := @scan_error (lost ++ List.replicate k 37) [] (by simp) (by
      intro str fmt rest hscan
      cases hscan
      rfl)
    rw [show textOf [] = [] from rfl] at heq
    rw [heq] at herror
    cases herror
  | cons p ps ih =>
    cases p with
    | literal c =>
      intro heq
      have hhead : (textOf (.literal c :: ps)).head? ≠ some 37 := by
        simpa [textOf, Piece.text] using c.2
      obtain ⟨items, hitems⟩ := @first_text (lost ++ List.replicate k 37) _ hhead (by simp [hne])
        (by rw [heq])
      obtain ⟨more, items', hexpected⟩ := @expected_text (lost ++ [c.1]) (by simp) ps
      rw [heq, expected, hexpected] at hitems
      simp only [List.cons.injEq, FormatterItem.string.injEq, List.append_assoc,
        List.append_cancel_left_eq] at hitems
      cases k with
      | zero => simp at hitems
      | succ k => exact c.2 (List.cons.inj hitems.1).1
    | percent =>
      have htext : textOf (.percent :: ps) = 37 :: 37 :: textOf ps := rfl
      have hmore : lost ++ List.replicate k 37 ++ [37] ++ [37] =
          lost ++ [37] ++ List.replicate (k + 1) 37 := by
        have hswap : List.replicate k (37 : UInt8) ++ List.replicate 2 37 =
            List.replicate 2 37 ++ List.replicate k 37 := by
          rw [List.replicate_append_replicate, List.replicate_append_replicate, Nat.add_comm]
        simp only [List.append_assoc]
        exact congrArg (lost ++ ·) hswap
      rw [htext, initLoop_percent, initLoop_percent, hmore]
      exact ih (by simp) (k + 1)
    | directive x fmt =>
      intro heq
      obtain ⟨l, htext, hhead⟩ : ∃ l, textOf (.directive x fmt :: ps) = 37 :: l ∧
          l.head? ≠ some 37 := by
        cases fmt <;> exact ⟨_, rfl, by simpa using letter_ne x⟩
      rw [htext, initLoop_percent] at heq
      obtain ⟨items, hitems⟩ := @first_text (lost ++ List.replicate k 37 ++ [37]) _ hhead (by simp)
        (by rw [heq])
      rw [heq, expected, flush, if_neg hne] at hitems
      simp [itemOf] at hitems

/-- A pattern is right exactly without an escaped percent. -/
theorem pattern_right_iff (p : Pattern) : Right p ↔ .percent ∉ p.pieces := by
  constructor
  · intro h hmem
    obtain ⟨front, rest, hpieces, hfront⟩ := List.eq_append_cons_of_mem hmem
    have hspaced := p.spaced
    have hitems := h.items
    have htext : textOf p.pieces = textOf front ++ textOf (.percent :: rest) := by
      rw [hpieces, textOf, textOf, textOf, List.flatMap_append]
    rw [hpieces] at hspaced
    have hbefore := spaced_append hspaced
    rw [List.append_nil] at hbefore
    rw [htext, init_pieces hfront hbefore, hpieces, expected_append, Prod.mk.injEq] at hitems
    apply @percent_lost ((entries [] front).2 ++ [37]) (by simp) 0 rest
    apply Prod.ext
    · rw [List.replicate_zero, List.append_nil, ← initLoop_percent]
      exact List.append_cancel_left hitems.1
    · rw [List.replicate_zero, List.append_nil, ← initLoop_percent]
      exact hitems.2
  · intro h
    constructor
    · have hpieces := init_pieces h p.spaced
      have hexpected := expected_append p.pieces [] []
      rw [List.append_nil] at hpieces hexpected
      have hflush (nstr : List UInt8) :
          makeItems (initLoop 0 nstr []) = (expected nstr [], false) := by
        by_cases hne : nstr = [] <;> simp [initLoop, makeItems, expected, flush, hne, itemOf]
      rw [hpieces, hexpected, hflush]
    · intro t ht
      have hspaced : Spaced t p.pieces := p.spaced.before (by
        cases ht <;> simp [endsName] <;> decide)
      rw [init_pieces h hspaced]
      exact malformed_error ht

/-- `%%d` becomes a percent sign and the time. -/
theorem escaped_letter : ¬ ∀ p, Right p := by
  intro h
  have hitems := (h ⟨[.percent, .literal ⟨100, by decide⟩], trivial⟩).items
  exact absurd hitems (by decide)

end Results

end LogFormatter
