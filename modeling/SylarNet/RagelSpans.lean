import SylarNet.RagelLanguages

/-!
# Steps inside an expression

Where only one part of an expression has places, a symbol that nothing behind it starts with
moves this part alone, and one that this part cannot read leaves it for the next. Most parts have
no actions but a span's: one marks where the part starts, the other uses the mark where it is
left.
-/
namespace RagelMachine

variable {α A : Type} {m x y : Machine α A} {c : α}

@[simp] theorem under_nil (k : ℕ) : under k ([] : List (Embedded A)) = [] := rfl

@[simp] theorem under_cons (k : ℕ) (e : Embedded A) (l : List (Embedded A)) :
    under k (e :: l) = (k :: e.1, e.2) :: under k l := rfl

/-- The expression around a part does not change the order in it. -/
theorem inOrder_under [DecidableEq A] (k : ℕ) (l : List (Embedded A)) :
    inOrder (under k l) = inOrder l := by
  have hsort : (under k l).insertionSort (fun x y => embeddedBefore x.1 y.1 = true) =
      under k (l.insertionSort fun x y => embeddedBefore x.1 y.1 = true) := by
    apply (List.map_insertionSort (fun x y => embeddedBefore x.1 y.1 = true)
      (fun x y => embeddedBefore x.1 y.1 = true) (fun e : Embedded A => (k :: e.1, e.2)) l ?_).symm
    intro a _ b _
    simp [embeddedBefore]
  rw [inOrder, inOrder, hsort, under, List.map_map]
  rfl

/-!
## The places of a composed machine
-/

theorem final_alt_mk (l k : Live) :
    (Machine.alt x y).final (.mk l k) = (x.final l || y.final k) := by
  cases l <;> cases k <;> simp [Live.mk, Machine.final]

theorem final_seq_mk (g : Guard) (l k : Live) :
    (Machine.seq g x y).final (.mk l k) = (y.final k || (y.nullable && x.final l)) := by
  cases l <;> cases k <;> simp [Live.mk, Machine.final]

@[simp] theorem pending_none : m.pending .none = [] := by
  induction m with
  | star x ih => rw [Machine.pending, ih, under_nil]
  | embed e x a ih => cases e <;> simp [Machine.pending, ih]
  | _ => rfl

theorem pending_alt_mk (l k : Live) :
    (Machine.alt x y).pending (.mk l k) = under 1 (x.pending l) ++ under 2 (y.pending k) := by
  cases l <;> cases k <;> simp [Live.mk, Machine.pending]

theorem pending_seq_mk (g : Guard) (l k : Live) :
    (Machine.seq g x y).pending (.mk l k) =
      (if y.nullable && x.final l then under 1 (x.pending l) ++ under 2 y.skipped else []) ++
        under 2 (y.pending k) := by
  cases l <;> cases k <;> simp [Live.mk, Machine.pending]

/-- A symbol that the machine reads nowhere. -/
theorem step_of_rejects (h : m.rejects c = true) (enter : Bool) (l : Live) :
    m.step c enter l = (.none, []) := by
  induction m generalizing enter l with
  | chr accepts =>
    rw [Machine.rejects, Bool.not_eq_true'] at h
    simp [Machine.step, h]
  | eps => rfl
  | alt x y ihx ihy =>
    rw [Machine.rejects, Bool.and_eq_true] at h
    rw [step_alt, ihx h.1, ihy h.2]
    rfl
  | seq g x y ihx ihy =>
    rw [Machine.rejects, Bool.and_eq_true] at h
    simp only [Machine.step, advance_step, ihx h.1, ihy h.2, starts_of_rejects h.2, ite_self]
    simp [Live.mk]
  | star x ih =>
    have hx : x.rejects c = true := h
    simp [Machine.step, ih hx, starts_of_rejects hx]
  | embed e x a ih =>
    have hx : x.rejects c = true := h
    cases e <;> simp [Machine.step, ih hx, starts_of_rejects hx]

theorem step_alt_left (l : Live) :
    (Machine.alt x y).step c false (.mk l .none) =
      (.mk (x.step c false l).1 .none, under 1 (x.step c false l).2) := by
  simp [step_alt, step_none]

theorem step_seq_left (hy : y.plain = true) (hc : y.starts c = false) (enter : Bool) (l : Live) :
    (Machine.seq .plain x y).step c enter (.mk l .none) =
      (.mk (x.step c enter l).1 .none, under 1 (x.step c enter l).2) := by
  simp [step_seq, step_of_not_starts hy hc, hc]

theorem step_seq_right (k : Live) :
    (Machine.seq .plain x y).step c false (.mk .none k) =
      (.mk .none (y.step c false k).1, under 2 (y.step c false k).2) := by
  simp [step_seq, step_none, Machine.crosses]

/-- Where the left machine cannot end yet. -/
theorem step_seq_inside {l : Live} (hl : x.final l = false) (k : Live) :
    (Machine.seq .plain x y).step c false (.mk l k) =
      (.mk (x.step c false l).1 (y.step c false k).1,
        under 1 (x.step c false l).2 ++ under 2 (y.step c false k).2) := by
  simp [step_seq, Machine.crosses, hl]

/-- From an end of the left machine into the right one. -/
theorem step_seq_cross {l : Live} (hl : x.final l = true) (hc : y.starts c = true) :
    (Machine.seq .plain x y).step c false (.mk l .none) =
      (.mk (x.step c false l).1 (y.step c true .none).1,
        under 1 (x.step c false l).2 ++ under 1 (x.pending l) ++
          under 2 (y.step c true .none).2) := by
  simp [step_seq, Machine.crosses, hl, hc, Machine.departing]

/-!
## Where a symbol leads and what it executes
-/

section Moves

variable [DecidableEq A]

namespace Machine

/-- A symbol inside the machine. -/
def move (m : Machine α A) (c : α) (l : Live) : Live × List A :=
  ((m.step c false l).1, inOrder (m.step c false l).2)

/-- The symbol that enters the machine. -/
def start (m : Machine α A) (c : α) : Live × List A :=
  ((m.step c true .none).1, inOrder (m.step c true .none).2)

/-- What is executed on leaving the machine. -/
def leave (m : Machine α A) (l : Live) : List A := inOrder (m.pending l)

end Machine

theorem move_of_step {l k : Live} {acts : List (Embedded A)} (h : m.step c false l = (k, acts)) :
    m.move c l = (k, inOrder acts) := by
  rw [Machine.move, h]

theorem move_alt_left (l : Live) :
    (Machine.alt x y).move c (.mk l .none) = (.mk (x.move c l).1 .none, (x.move c l).2) := by
  rw [Machine.move, step_alt_left, inOrder_under]
  rfl

theorem move_seq_left (hy : y.plain = true) (hc : y.starts c = false) (l : Live) :
    (Machine.seq .plain x y).move c (.mk l .none) =
      (.mk (x.move c l).1 .none, (x.move c l).2) := by
  rw [Machine.move, step_seq_left hy hc, inOrder_under]
  rfl

theorem move_seq_right (k : Live) :
    (Machine.seq .plain x y).move c (.mk .none k) =
      (.mk .none (y.move c k).1, (y.move c k).2) := by
  rw [Machine.move, step_seq_right, inOrder_under]
  rfl

/-- Into a machine that executes nothing on its first symbol. -/
theorem move_seq_cross (hx : x.rejects c = true) {l : Live} (hl : x.final l = true)
    (hc : y.starts c = true) (hy : (y.step c true .none).2 = []) :
    (Machine.seq .plain x y).move c (.mk l .none) =
      (.mk .none (y.step c true .none).1, x.leave l) := by
  rw [Machine.move, step_seq_cross hl hc, step_of_rejects hx, hy, under_nil, under_nil,
    List.nil_append, List.append_nil, inOrder_under]
  rfl

/-- From a machine that executes nothing on being left. -/
theorem move_seq_start (hx : x.rejects c = true) {l : Live} (hl : x.final l = true)
    (hc : y.starts c = true) (hpending : x.pending l = []) :
    (Machine.seq .plain x y).move c (.mk l .none) =
      (.mk .none (y.start c).1, (y.start c).2) := by
  rw [Machine.move, step_seq_cross hl hc, step_of_rejects hx, hpending, under_nil,
    List.nil_append, List.nil_append, inOrder_under]
  rfl

theorem leave_alt_left (l : Live) : (Machine.alt x y).leave (.mk l .none) = x.leave l := by
  rw [Machine.leave, pending_alt_mk, pending_none, under_nil, List.append_nil, inOrder_under]
  rfl

theorem leave_seq_left (hy : y.nullable = true) (hskip : y.skipped = []) {l : Live}
    (hl : x.final l = true) : (Machine.seq .plain x y).leave (.mk l .none) = x.leave l := by
  rw [Machine.leave, pending_seq_mk, hy, hl, pending_none, hskip]
  simp [inOrder_under, Machine.leave]

theorem leave_seq_right (k : Live) :
    (Machine.seq .plain x y).leave (.mk .none k) = y.leave k := by
  rw [Machine.leave, pending_seq_mk, final_none, Bool.and_false]
  simp [inOrder_under, Machine.leave]

end Moves

/-!
## Spans
-/

namespace Machine

/-- `x >mark %save` -/
def span (x : Machine α A) (mark save : A) : Machine α A :=
  .embed .leaving (.embed .entering x mark) save

/-- `(lead x >mark %save)?` -/
def led (lead : α → Bool) (x : Machine α A) (mark save : A) : Machine α A :=
  .opt (.seq .plain (.chr lead) (x.span mark save))

end Machine

/-- In a `led` machine, after its lead. -/
def Live.led : Live := .mk (.mk .here .none) .none

/-- In a `led` machine, after a part of its span. -/
def Live.inside (l : Live) : Live := .mk (.mk .none l) .none

variable {mark save : A} {lead : α → Bool}

theorem step_span (hx : x.silent = true) (enter : Bool) (l : Live) :
    (x.span mark save).step c enter l =
      ((x.step c enter l).1, if enter && x.starts c then [([1, 0], mark)] else []) := by
  simp only [Machine.span, Machine.step, snd_step_of_silent hx, under_nil, List.append_nil]
  split <;> simp

theorem pending_span (hx : x.silent = true) (l : Live) :
    (x.span mark save).pending l = if x.final l then [([3], save)] else [] := by
  rw [Machine.span, Machine.pending, Machine.pending, pending_of_silent hx]
  rfl

theorem skipped_span (hx : x.silent = true) :
    (x.span mark save).skipped = [([1, 0], mark), ([3], save)] := by
  simp [Machine.span, Machine.skipped, skipped_of_silent hx]

theorem skipped_led : (x.led lead mark save).skipped = [] := by
  simp [Machine.led, Machine.opt, Machine.skipped, Machine.nullable]

theorem led_not_starts (h : lead c = false) : (x.led lead mark save).starts c = false := by
  simp [Machine.led, Machine.opt, Machine.starts, Machine.nullable, h]

theorem step_chr (accepts : α → Bool) (enter : Bool) (l : Live) :
    (Machine.chr accepts : Machine α A).step c enter l =
      (if enter && accepts c then .here else .none, []) := rfl

theorem step_eps (enter : Bool) (l : Live) :
    (Machine.eps : Machine α A).step c enter l = (.none, []) := rfl

/-- Only the lead enters. -/
theorem step_led_enter (h : lead c = true) :
    (x.led lead mark save).step c true .none = (.led, []) := by
  rw [Machine.led, Machine.opt, step_alt, step_eps, step_seq]
  simp [Live.fst, Live.snd, step_chr, h, Machine.crosses, Machine.nullable, step_none]
  rfl

/-- The symbol after the lead enters the span. -/
theorem step_led (hx : x.silent = true) :
    (x.led lead mark save).step c false .led =
      (.inside (x.step c true .none).1,
        under 1 (under 2 (if x.starts c then [([1, 0], mark)] else []))) := by
  rw [Machine.led, Machine.opt, Live.led, step_alt_left, step_seq, step_span hx]
  simp [step_chr, Machine.crosses, Machine.final, Machine.departing, Machine.pending,
    Machine.nullable]
  rfl

theorem step_inside (hx : x.silent = true) (l : Live) :
    (x.led lead mark save).step c false (.inside l) = (.inside (x.step c false l).1, []) := by
  rw [Machine.led, Machine.opt, Live.inside, step_alt_left, step_seq_right, step_span hx]
  rfl

theorem final_led : (x.led lead mark save).final .led = x.nullable := by
  rw [Machine.led, Machine.opt, Live.led, final_alt_mk, final_seq_mk]
  simp [Machine.final, Machine.nullable, Machine.span]

theorem final_inside (l : Live) : (x.led lead mark save).final (.inside l) = x.final l := by
  rw [Machine.led, Machine.opt, Live.inside, final_alt_mk, final_seq_mk]
  simp [Machine.final, Machine.span]

theorem pending_led (hx : x.silent = true) :
    (x.led lead mark save).pending .led =
      if x.nullable then under 1 (under 2 [([1, 0], mark), ([3], save)]) else [] := by
  rw [Machine.led, Machine.opt, Live.led, pending_alt_mk, pending_seq_mk, skipped_span hx]
  simp only [Machine.pending, Machine.nullable, Machine.final, Machine.span, Bool.and_true]
  split <;> simp

theorem pending_inside (hx : x.silent = true) (l : Live) :
    (x.led lead mark save).pending (.inside l) =
      under 1 (under 2 (if x.final l then [([3], save)] else [])) := by
  rw [Machine.led, Machine.opt, Live.inside, pending_alt_mk, pending_seq_mk, pending_span hx]
  simp

section Moves

variable [DecidableEq A]

theorem inOrder_singleton (e : Embedded A) : inOrder [e] = [e.2] := rfl

theorem inOrder_span (h : mark ≠ save) : inOrder [([1, 0], mark), ([3], save)] = [mark, save] := by
  have hne : (save == mark) = false := beq_eq_false_iff_ne.2 h.symm
  simp [inOrder, List.insertionSort, embeddedBefore, List.eraseDups_cons, hne]

theorem move_led (hx : x.silent = true) (hc : x.starts c = true) :
    (x.led lead mark save).move c .led = (.inside (x.step c true .none).1, [mark]) := by
  rw [Machine.move, step_led hx, if_pos hc, inOrder_under, inOrder_under]
  rfl

theorem move_inside (hx : x.silent = true) (l : Live) :
    (x.led lead mark save).move c (.inside l) = (.inside (x.step c false l).1, []) := by
  rw [Machine.move, step_inside hx]
  rfl

theorem leave_led (hx : x.silent = true) (hnull : x.nullable = true) (h : mark ≠ save) :
    (x.led lead mark save).leave .led = [mark, save] := by
  rw [Machine.leave, pending_led hx, if_pos hnull, inOrder_under, inOrder_under, inOrder_span h]

theorem leave_inside (hx : x.silent = true) {l : Live} (hl : x.final l = true) :
    (x.led lead mark save).leave (.inside l) = [save] := by
  rw [Machine.leave, pending_inside hx, if_pos hl, inOrder_under, inOrder_under,
    inOrder_singleton]

end Moves

end RagelMachine
