import Mathlib.Data.Fintype.Defs
import Mathlib.Data.List.Sort

/-!
# Machines with embedded actions

The operators of Ragel 6 over any alphabet and any actions. A state of the machine is the set
of the places of its expression that the input can have reached, written as a tree along the
expression, which is the state that determinisation gives. One input symbol moves all places
at once, and the actions of all transitions it takes are executed: ordered as they are embedded
in the expression, and each of them once.
-/
namespace RagelMachine

/-- `.`, `:>` and `:>>`. The last two drop the left machine: as soon as the right one is
entered, or as soon as it ends. -/
inductive Guard where
  | plain
  | entry
  | finish
  deriving DecidableEq

def Guard.drops (crosses ends : Bool) : Guard → Bool
  | .plain => false
  | .entry => crosses
  | .finish => ends

/-- `>`, `%` and `@`. -/
inductive Embedding where
  | entering
  | leaving
  | finishing
  deriving DecidableEq

inductive Machine (α A : Type) where
  | chr (accepts : α → Bool)
  | eps
  | alt (x y : Machine α A)
  | seq (g : Guard) (x y : Machine α A)
  | star (x : Machine α A)
  | embed (w : Embedding) (x : Machine α A) (a : A)

namespace Machine

def word [BEq α] : List α → Machine α A
  | [] => .eps
  | [c] => .chr (· == c)
  | c :: cs => .seq .plain (.chr (· == c)) (word cs)

/-- `x?` -/
def opt (x : Machine α A) : Machine α A := .alt x .eps

/-- `x+` -/
def plus (x : Machine α A) : Machine α A := .seq .plain x (.star x)

/-- `x{0,n}` -/
def upTo : ℕ → Machine α A → Machine α A
  | 0, _ => .eps
  | n + 1, x => opt (.seq .plain x (upTo n x))

/-- `x{n}` followed by `y`. -/
def times : ℕ → Machine α A → Machine α A → Machine α A
  | 0, _, y => y
  | n + 1, x, y => .seq .plain x (times n x y)

end Machine

/-- The places reached, none of them below `none`. -/
inductive Live where
  | none
  | here
  | pair (x y : Live)
  deriving DecidableEq, Repr

namespace Live

def mk : Live → Live → Live
  | .none, .none => .none
  | x, y => .pair x y

def fst : Live → Live
  | .pair x _ => x
  | _ => .none

def snd : Live → Live
  | .pair _ y => y
  | _ => .none

end Live

/-- An action and where it is embedded in the expression. -/
abbrev Embedded (A : Type) := List ℕ × A

/-- Seen from the expression around it. -/
def under (k : ℕ) (l : List (Embedded A)) : List (Embedded A) := l.map fun x => (k :: x.1, x.2)

/-- Entering actions come before those inside the expression, the others behind them. -/
def embeddedBefore : List ℕ → List ℕ → Bool
  | [], _ => true
  | _ :: _, [] => false
  | i :: is, j :: js => i < j || (i == j && embeddedBefore is js)

/-- The actions of a transition in the order of their execution. -/
def inOrder [DecidableEq A] (l : List (Embedded A)) : List A :=
  ((l.insertionSort fun x y => embeddedBefore x.1 y.1 = true).map (·.2)).eraseDups

theorem mem_under {k : ℕ} {l : List (Embedded A)} {p : List ℕ} {a : A} (h : (p, a) ∈ under k l) :
    ∃ q, (q, a) ∈ l := by
  obtain ⟨x, hx, heq⟩ := List.mem_map.1 h
  cases heq
  exact ⟨x.1, hx⟩

theorem mem_inOrder [DecidableEq A] {l : List (Embedded A)} {a : A} :
    a ∈ inOrder l ↔ ∃ p, (p, a) ∈ l := by
  simp only [inOrder, List.mem_eraseDups, List.mem_map, List.mem_insertionSort]
  constructor
  · rintro ⟨x, hx, rfl⟩
    exact ⟨x.1, hx⟩
  · rintro ⟨p, hp⟩
    exact ⟨(p, a), hp, rfl⟩

namespace Machine

def nullable : Machine α A → Bool
  | .chr _ => false
  | .eps => true
  | .alt x y => x.nullable || y.nullable
  | .seq _ x y => x.nullable && y.nullable
  | .star _ => true
  | .embed _ x _ => x.nullable

def starts (c : α) : Machine α A → Bool
  | .chr accepts => accepts c
  | .eps => false
  | .alt x y => x.starts c || y.starts c
  | .seq _ x y => x.starts c || (x.nullable && y.starts c)
  | .star x => x.starts c
  | .embed _ x _ => x.starts c

/-- A place at which the machine may end. -/
def final : Machine α A → Live → Bool
  | .chr _, .here => true
  | .alt x y, .pair l k => x.final l || y.final k
  | .seq _ x y, .pair l k => y.final k || (y.nullable && x.final l)
  | .star x, l => x.final l
  | .embed _ x _, l => x.final l
  | _, _ => false

/-- The actions to execute on leaving the machine without any input for it: the leaving actions,
and also the entering ones. -/
def skipped : Machine α A → List (Embedded A)
  | .chr _ => []
  | .eps => []
  | .alt x y =>
    (if x.nullable then under 1 x.skipped else []) ++ (if y.nullable then under 2 y.skipped else [])
  | .seq _ x y => under 1 x.skipped ++ under 2 y.skipped
  | .star x => if x.nullable then under 1 x.skipped else []
  | .embed .entering x a => ([0], a) :: under 1 x.skipped
  | .embed .leaving x a => under 1 x.skipped ++ [([3], a)]
  | .embed .finishing x _ => under 1 x.skipped

/-- The actions to execute on leaving the machine from where it is. -/
def pending : Machine α A → Live → List (Embedded A)
  | .alt x y, .pair l k => under 1 (x.pending l) ++ under 2 (y.pending k)
  | .seq _ x y, .pair l k =>
    (if y.nullable && x.final l then under 1 (x.pending l) ++ under 2 y.skipped else []) ++
      under 2 (y.pending k)
  | .star x, l => under 1 (x.pending l)
  | .embed .entering x _, l => under 1 (x.pending l)
  | .embed .leaving x a, l => under 1 (x.pending l) ++ (if x.final l then [([3], a)] else [])
  | .embed .finishing x _, l => under 1 (x.pending l)
  | _, _ => []

/-- Leaves the machine for one that starts; `enter` if it was to be entered at this symbol. -/
def departing (m : Machine α A) (enter : Bool) (l : Live) : List (Embedded A) :=
  (if m.final l then m.pending l else []) ++ (if enter && m.nullable then m.skipped else [])

/-- Nothing moves where no place is reached and none is entered. -/
def advance (f : Bool → Live → Live × List (Embedded A)) (enter : Bool) (l : Live) :
    Live × List (Embedded A) :=
  if enter || l ≠ .none then f enter l else (.none, [])

/-- One input symbol: the places reached and the actions on the way. -/
def step (c : α) : Machine α A → Bool → Live → Live × List (Embedded A)
  | .chr accepts, enter, _ => (if enter && accepts c then .here else .none, [])
  | .eps, _, _ => (.none, [])
  | .alt x y, enter, l =>
    let r := advance (x.step c) enter l.fst
    let t := advance (y.step c) enter l.snd
    (.mk r.1 t.1, under 1 r.2 ++ under 2 t.2)
  | .seq g x y, enter, l =>
    let enterRight := x.final l.fst || (enter && x.nullable)
    let r := advance (x.step c) enter l.fst
    let t := advance (y.step c) enterRight l.snd
    let crosses := enterRight && y.starts c
    let crossing := if crosses then under 1 (x.departing enter l.fst) else []
    let r := if g.drops crosses (y.final t.1) then (.none, []) else r
    (.mk r.1 t.1, under 1 r.2 ++ crossing ++ under 2 t.2)
  | .star x, enter, l =>
    let again := x.final l
    let r := x.step c (enter || again) l
    let crossing := if again && x.starts c then under 1 (x.pending l) else []
    (r.1, crossing ++ under 1 r.2)
  | .embed .entering x a, enter, l =>
    let r := x.step c enter l
    (r.1, (if enter && x.starts c then [([0], a)] else []) ++ under 1 r.2)
  | .embed .leaving x _, enter, l =>
    let r := x.step c enter l
    (r.1, under 1 r.2)
  | .embed .finishing x a, enter, l =>
    let r := x.step c enter l
    (r.1, under 1 r.2 ++ (if x.final r.1 then [([3], a)] else []))

end Machine

/-- `fresh` before the first symbol. -/
structure State where
  fresh : Bool
  live : Live
  deriving DecidableEq, Repr

def State.initial : State := ⟨true, .none⟩

section Runs

variable [DecidableEq A]

/-- Without a place to be at the machine is in its error state. -/
def Machine.next (m : Machine α A) (s : State) (c : α) : Option (State × List A) :=
  let r := m.step c s.fresh s.live
  if r.1 = .none then none else some (⟨false, r.1⟩, inOrder r.2)

def Machine.accepting (m : Machine α A) (s : State) : Bool :=
  (s.fresh && m.nullable) || m.final s.live

theorem next_eq {m : Machine α A} {s s' : State} {c : α} {acts : List A}
    (h : m.next s c = some (s', acts)) :
    s' = ⟨false, (m.step c s.fresh s.live).1⟩ ∧ acts = inOrder (m.step c s.fresh s.live).2 := by
  by_cases hnone : (m.step c s.fresh s.live).1 = .none
  · simp [Machine.next, hnone] at h
  · simp only [Machine.next, hnone, if_false, Option.some.injEq, Prod.mk.injEq] at h
    exact ⟨h.1.symm, h.2.symm⟩

/-- Where a machine with a finishing action gets to its end, the action is executed. -/
theorem finishing_executed {x : Machine α A} {a : A} {s s' : State} {c : α} {acts : List A}
    (h : (Machine.embed .finishing x a).next s c = some (s', acts))
    (hs : (Machine.embed .finishing x a).accepting s' = true) : a ∈ acts := by
  obtain ⟨rfl, rfl⟩ := next_eq h
  have hfinal : x.final (x.step c s.fresh s.live).1 = true := by
    simpa [Machine.accepting, Machine.final, Machine.step] using hs
  apply mem_inOrder.2
  exact ⟨[3], by simp [Machine.step, hfinal]⟩

end Runs

/-!
## Actions that are executed on certain symbols only
-/

section Confined

variable [DecidableEq A] [Fintype α]

/-- Whether the machine may be left with the action to execute. -/
def Machine.mayLeaveWith (a : A) : Machine α A → Bool
  | .chr _ => false
  | .eps => false
  | .alt x y => x.mayLeaveWith a || y.mayLeaveWith a
  | .seq _ x y => y.mayLeaveWith a || (y.nullable && x.mayLeaveWith a)
  | .star x => x.mayLeaveWith a
  | .embed .entering x b => (x.nullable && b = a) || x.mayLeaveWith a
  | .embed .leaving x b => b = a || x.mayLeaveWith a
  | .embed .finishing x _ => x.mayLeaveWith a

def Machine.startsOnlyOn (ok : α → Bool) (m : Machine α A) : Bool :=
  decide (∀ c, m.starts c = true → ok c = true)

/-- Whatever is entered with the action to execute starts on such symbols only. -/
def Machine.confined (ok : α → Bool) (a : A) : Machine α A → Bool
  | .chr _ => true
  | .eps => true
  | .alt x y => x.confined ok a && y.confined ok a
  | .seq _ x y =>
    x.confined ok a && y.confined ok a && (!x.mayLeaveWith a || y.startsOnlyOn ok)
  | .star x => x.confined ok a && (!x.mayLeaveWith a || x.startsOnlyOn ok)
  | .embed .entering x b => x.confined ok a && (b ≠ a || x.startsOnlyOn ok)
  | .embed .leaving x _ => x.confined ok a
  | .embed .finishing x b => x.confined ok a && b ≠ a

omit [Fintype α] in
theorem mayLeaveWith_of_skipped {m : Machine α A} {a : A} (hn : m.nullable = true) {p : List ℕ}
    (h : (p, a) ∈ m.skipped) : m.mayLeaveWith a = true := by
  induction m generalizing p with
  | chr accepts => simp [Machine.skipped] at h
  | eps => simp [Machine.skipped] at h
  | alt x y ihx ihy =>
    simp only [Machine.skipped, List.mem_append, List.mem_ite_nil_right] at h
    simp only [Machine.mayLeaveWith, Bool.or_eq_true]
    rcases h with ⟨hx, h⟩ | ⟨hy, h⟩
    · obtain ⟨q, hq⟩ := mem_under h
      exact .inl (ihx hx hq)
    · obtain ⟨q, hq⟩ := mem_under h
      exact .inr (ihy hy hq)
  | seq g x y ihx ihy =>
    obtain ⟨hx, hy⟩ : x.nullable = true ∧ y.nullable = true := by
      simpa [Machine.nullable] using hn
    simp only [Machine.skipped, List.mem_append] at h
    simp only [Machine.mayLeaveWith, hy, Bool.true_and, Bool.or_eq_true]
    rcases h with h | h
    · obtain ⟨q, hq⟩ := mem_under h
      exact .inr (ihx hx hq)
    · obtain ⟨q, hq⟩ := mem_under h
      exact .inl (ihy hy hq)
  | star x ih =>
    simp only [Machine.skipped, List.mem_ite_nil_right] at h
    obtain ⟨q, hq⟩ := mem_under h.2
    exact ih h.1 hq
  | embed w x b ih =>
    have hx : x.nullable = true := hn
    cases w with
    | entering =>
      simp only [Machine.skipped, List.mem_cons, Prod.mk.injEq] at h
      simp only [Machine.mayLeaveWith, hx, Bool.true_and, Bool.or_eq_true, decide_eq_true_eq]
      rcases h with ⟨-, rfl⟩ | h
      · exact .inl rfl
      · obtain ⟨q, hq⟩ := mem_under h
        exact .inr (ih hx hq)
    | leaving =>
      simp only [Machine.skipped, List.mem_append, List.mem_singleton, Prod.mk.injEq] at h
      simp only [Machine.mayLeaveWith, Bool.or_eq_true, decide_eq_true_eq]
      rcases h with h | ⟨-, rfl⟩
      · obtain ⟨q, hq⟩ := mem_under h
        exact .inr (ih hx hq)
      · exact .inl rfl
    | finishing =>
      obtain ⟨q, hq⟩ := mem_under h
      exact ih hx hq

omit [DecidableEq A] [Fintype α] in
theorem mem_pending_alt {x y : Machine α A} {a : A} {l : Live} {p : List ℕ}
    (h : (p, a) ∈ (Machine.alt x y).pending l) : ∃ i k, l = .pair i k ∧
      ((∃ q, (q, a) ∈ x.pending i) ∨ ∃ q, (q, a) ∈ y.pending k) := by
  cases l with
  | none => simp [Machine.pending] at h
  | here => simp [Machine.pending] at h
  | pair i k =>
    simp only [Machine.pending, List.mem_append] at h
    exact ⟨i, k, rfl, h.imp mem_under mem_under⟩

omit [DecidableEq A] [Fintype α] in
/-- A pending action of a sequence is one of the second part, or of both if the first part is
final and the second may be passed over. -/
theorem mem_pending_seq {g : Guard} {x y : Machine α A} {a : A} {l : Live} {p : List ℕ}
    (h : (p, a) ∈ (Machine.seq g x y).pending l) : ∃ i k, l = .pair i k ∧
      ((y.nullable = true ∧ x.final i = true) ∧
          ((∃ q, (q, a) ∈ x.pending i) ∨ ∃ q, (q, a) ∈ y.skipped) ∨
        ∃ q, (q, a) ∈ y.pending k) := by
  cases l with
  | none => simp [Machine.pending] at h
  | here => simp [Machine.pending] at h
  | pair i k =>
    simp only [Machine.pending, List.mem_append, List.mem_ite_nil_right, Bool.and_eq_true] at h
    exact ⟨i, k, rfl, h.imp (And.imp_right (Or.imp mem_under mem_under)) mem_under⟩

omit [Fintype α] in
theorem mayLeaveWith_of_pending {m : Machine α A} {a : A} {l : Live} {p : List ℕ}
    (h : (p, a) ∈ m.pending l) : m.mayLeaveWith a = true := by
  induction m generalizing p l with
  | chr accepts => simp [Machine.pending] at h
  | eps => simp [Machine.pending] at h
  | alt x y ihx ihy =>
    obtain ⟨i, k, rfl, hin⟩ := mem_pending_alt h
    simp only [Machine.mayLeaveWith, Bool.or_eq_true]
    rcases hin with ⟨q, hq⟩ | ⟨q, hq⟩
    · exact .inl (ihx hq)
    · exact .inr (ihy hq)
  | seq g x y ihx ihy =>
    obtain ⟨i, k, rfl, hin⟩ := mem_pending_seq h
    simp only [Machine.mayLeaveWith, Bool.or_eq_true, Bool.and_eq_true]
    rcases hin with ⟨⟨hy, -⟩, ⟨q, hq⟩ | ⟨q, hq⟩⟩ | ⟨q, hq⟩
    · exact .inr ⟨hy, ihx hq⟩
    · exact .inl (mayLeaveWith_of_skipped hy hq)
    · exact .inl (ihy hq)
  | star x ih =>
    obtain ⟨q, hq⟩ := mem_under h
    exact ih hq
  | embed w x b ih =>
    cases w with
    | entering =>
      obtain ⟨q, hq⟩ := mem_under h
      simp [Machine.mayLeaveWith, ih hq]
    | leaving =>
      simp only [Machine.pending, List.mem_append, List.mem_ite_nil_right, List.mem_singleton,
        Prod.mk.injEq] at h
      simp only [Machine.mayLeaveWith, Bool.or_eq_true, decide_eq_true_eq]
      rcases h with h | ⟨-, -, rfl⟩
      · obtain ⟨q, hq⟩ := mem_under h
        exact .inr (ih hq)
      · exact .inl rfl
    | finishing =>
      obtain ⟨q, hq⟩ := mem_under h
      exact ih hq

omit [Fintype α] in
theorem mayLeaveWith_of_departing {m : Machine α A} {a : A} {enter : Bool} {l : Live} {p : List ℕ}
    (h : (p, a) ∈ m.departing enter l) : m.mayLeaveWith a = true := by
  simp only [Machine.departing, List.mem_append, List.mem_ite_nil_right, Bool.and_eq_true] at h
  rcases h with ⟨-, h⟩ | ⟨⟨-, hn⟩, h⟩
  · exact mayLeaveWith_of_pending h
  · exact mayLeaveWith_of_skipped hn h

omit [DecidableEq A] [Fintype α] in
theorem mem_advance {f : Bool → Live → Live × List (Embedded A)} {enter : Bool} {l : Live}
    {x : Embedded A} (h : x ∈ (Machine.advance f enter l).2) : x ∈ (f enter l).2 := by
  unfold Machine.advance at h
  split at h
  · exact h
  · cases h

omit [DecidableEq A] in
theorem starts_ok {m : Machine α A} {ok : α → Bool} {b : Bool} (hb : b = true)
    (h : (!b || m.startsOnlyOn ok) = true) {c : α} (hc : m.starts c = true) : ok c = true := by
  subst hb
  have hall : ∀ c, m.starts c = true → ok c = true := by
    simpa [Machine.startsOnlyOn] using h
  exact hall c hc

theorem step_confined {m : Machine α A} {ok : α → Bool} {a : A} (hm : m.confined ok a = true)
    {c : α} {enter : Bool} {l : Live} {p : List ℕ} (h : (p, a) ∈ (m.step c enter l).2) :
    ok c = true := by
  induction m generalizing enter l p with
  | chr accepts => simp [Machine.step] at h
  | eps => simp [Machine.step] at h
  | alt x y ihx ihy =>
    obtain ⟨hx, hy⟩ : x.confined ok a = true ∧ y.confined ok a = true := by
      simpa [Machine.confined] using hm
    simp only [Machine.step, List.mem_append] at h
    rcases h with h | h
    · obtain ⟨q, hq⟩ := mem_under h
      exact ihx hx (mem_advance hq)
    · obtain ⟨q, hq⟩ := mem_under h
      exact ihy hy (mem_advance hq)
  | seq g x y ihx ihy =>
    simp only [Machine.confined, Bool.and_eq_true] at hm
    obtain ⟨⟨hx, hy⟩, hcross⟩ := hm
    simp only [Machine.step, List.mem_append] at h
    rcases h with (h | h) | h
    · obtain ⟨q, hq⟩ := mem_under h
      -- Where the guard drops the left machine, its actions are dropped with it.
      split at hq
      · cases hq
      · exact ihx hx (mem_advance hq)
    · simp only [List.mem_ite_nil_right, Bool.and_eq_true] at h
      obtain ⟨q, hq⟩ := mem_under h.2
      exact starts_ok (mayLeaveWith_of_departing hq) hcross h.1.2
    · obtain ⟨q, hq⟩ := mem_under h
      exact ihy hy (mem_advance hq)
  | star x ih =>
    simp only [Machine.confined, Bool.and_eq_true] at hm
    simp only [Machine.step, List.mem_append, List.mem_ite_nil_right, Bool.and_eq_true] at h
    rcases h with ⟨⟨-, hc⟩, h⟩ | h
    · obtain ⟨q, hq⟩ := mem_under h
      exact starts_ok (mayLeaveWith_of_pending hq) hm.2 hc
    · obtain ⟨q, hq⟩ := mem_under h
      exact ih hm.1 hq
  | embed w x b ih =>
    cases w with
    | entering =>
      simp only [Machine.confined, Bool.and_eq_true] at hm
      simp only [Machine.step, List.mem_append, List.mem_ite_nil_right, Bool.and_eq_true,
        List.mem_singleton, Prod.mk.injEq] at h
      rcases h with ⟨⟨-, hc⟩, -, rfl⟩ | h
      · have hall : ∀ c, x.starts c = true → ok c = true := by
          simpa [Machine.startsOnlyOn] using hm.2
        exact hall c hc
      · obtain ⟨q, hq⟩ := mem_under h
        exact ih hm.1 hq
    | leaving =>
      obtain ⟨q, hq⟩ := mem_under h
      exact ih hm hq
    | finishing =>
      simp only [Machine.confined, Bool.and_eq_true] at hm
      simp only [Machine.step, List.mem_append, List.mem_ite_nil_right, List.mem_singleton,
        Prod.mk.injEq] at h
      rcases h with h | ⟨-, -, rfl⟩
      · obtain ⟨q, hq⟩ := mem_under h
        exact ih hm.1 hq
      · simp at hm

theorem executed_confined {m : Machine α A} {ok : α → Bool} {a : A}
    (hm : m.confined ok a = true) {s s' : State} {c : α} {acts : List A}
    (h : m.next s c = some (s', acts)) (ha : a ∈ acts) : ok c = true := by
  obtain ⟨-, rfl⟩ := next_eq h
  obtain ⟨p, hp⟩ := mem_inOrder.1 ha
  exact step_confined hm hp

end Confined

/-!
## Actions that are not executed behind certain symbols
-/

/-- All places reached are places that the symbol leads to. -/
def Machine.Arrived (c : α) : Machine α A → Live → Prop
  | .chr accepts, l => l = .here → accepts c = true
  | .eps, _ => True
  | .alt x y, l => x.Arrived c l.fst ∧ y.Arrived c l.snd
  | .seq _ x y, l => x.Arrived c l.fst ∧ y.Arrived c l.snd
  | .star x, l => x.Arrived c l
  | .embed _ x _, l => x.Arrived c l

@[simp] theorem Live.fst_mk (x y : Live) : (Live.mk x y).fst = x := by
  cases x <;> cases y <;> rfl

@[simp] theorem Live.snd_mk (x y : Live) : (Live.mk x y).snd = y := by
  cases x <;> cases y <;> rfl

theorem arrived_none (m : Machine α A) (c : α) : m.Arrived c .none := by
  induction m with
  | chr accepts => exact nofun
  | eps => trivial
  | alt x y ihx ihy => exact ⟨ihx, ihy⟩
  | seq g x y ihx ihy => exact ⟨ihx, ihy⟩
  | star x ih => exact ih
  | embed w x a ih => exact ih

theorem arrived_advance {m : Machine α A} {c : α} {enter : Bool} {l : Live}
    (h : m.Arrived c (m.step c enter l).1) :
    m.Arrived c (Machine.advance (m.step c) enter l).1 := by
  unfold Machine.advance
  split
  · exact h
  · exact arrived_none m c

theorem arrived_step (m : Machine α A) (c : α) (enter : Bool) (l : Live) :
    m.Arrived c (m.step c enter l).1 := by
  induction m generalizing enter l with
  | chr accepts =>
    intro h
    by_contra hc
    simp [Machine.step, hc] at h
  | eps => trivial
  | alt x y ihx ihy =>
    simp only [Machine.step, Machine.Arrived, Live.fst_mk, Live.snd_mk]
    exact ⟨arrived_advance (ihx enter l.fst), arrived_advance (ihy enter l.snd)⟩
  | seq g x y ihx ihy =>
    simp only [Machine.step, Machine.Arrived, Live.fst_mk, Live.snd_mk]
    refine ⟨?_, arrived_advance (ihy _ l.snd)⟩
    split
    · exact arrived_none x c
    · exact arrived_advance (ihx enter l.fst)
  | star x ih => exact ih _ l
  | embed w x a ih => cases w <;> exact ih enter l

section Shunned

variable [DecidableEq A] [Fintype α]

/-- Whether the machine may end on such a symbol. -/
def Machine.lastsOn (p : α → Bool) : Machine α A → Bool
  | .chr accepts => !decide (∀ c, accepts c = true → p c = false)
  | .eps => false
  | .alt x y => x.lastsOn p || y.lastsOn p
  | .seq _ x y => y.lastsOn p || (y.nullable && x.lastsOn p)
  | .star x => x.lastsOn p
  | .embed _ x _ => x.lastsOn p

def Machine.startsOn (q : α → Bool) (m : Machine α A) : Bool :=
  !decide (∀ c, m.starts c = true → q c = false)

def Machine.skips (a : A) (m : Machine α A) : Bool := m.skipped.any fun x => x.2 = a

/-- Whether the machine may be left behind such a symbol with the action to execute. -/
def Machine.leavesWith (p : α → Bool) (a : A) : Machine α A → Bool
  | .chr _ => false
  | .eps => false
  | .alt x y => x.leavesWith p a || y.leavesWith p a
  | .seq _ x y =>
    y.leavesWith p a || (y.nullable && (x.leavesWith p a || (y.skips a && x.lastsOn p)))
  | .star x => x.leavesWith p a
  | .embed .leaving x b => (b = a && x.lastsOn p) || x.leavesWith p a
  | .embed _ x _ => x.leavesWith p a

/-- Whether the action may be executed as the machine is entered on such a symbol. -/
def Machine.entersWith (q : α → Bool) (a : A) : Machine α A → Bool
  | .chr _ => false
  | .eps => false
  | .alt x y => x.entersWith q a || y.entersWith q a
  | .seq _ x y =>
    x.entersWith q a || (x.nullable && (y.entersWith q a || (x.skips a && y.startsOn q)))
  | .star x => x.entersWith q a
  | .embed .entering x b => (b = a && x.startsOn q) || x.entersWith q a
  | .embed _ x _ => x.entersWith q a

/-- Nothing inside the machine executes the action on a symbol of `q` behind one of `p`. -/
def Machine.shuns (p q : α → Bool) (a : A) : Machine α A → Bool
  | .chr _ => true
  | .eps => true
  | .alt x y => x.shuns p q a && y.shuns p q a
  | .seq _ x y =>
    x.shuns p q a && y.shuns p q a && !(x.leavesWith p a && y.startsOn q) &&
      !(y.entersWith q a && x.lastsOn p)
  | .star x =>
    x.shuns p q a && !(x.leavesWith p a && x.startsOn q) && !(x.entersWith q a && x.lastsOn p)
  | .embed .finishing x b => b ≠ a && x.shuns p q a
  | .embed _ x _ => x.shuns p q a

variable {p q : α → Bool} {a : A} {c c' : α}

omit [DecidableEq A] in
theorem startsOn_of_starts {m : Machine α A} (hc : m.starts c' = true) (hq : q c' = true) :
    m.startsOn q = true := by
  simp only [Machine.startsOn, Bool.not_eq_true', decide_eq_false_iff_not]
  intro h
  rw [h c' hc] at hq
  cases hq

omit [DecidableEq A] in
theorem lastsOn_of_final {m : Machine α A} {l : Live} (hl : m.Arrived c l) (hp : p c = true)
    (h : m.final l = true) : m.lastsOn p = true := by
  induction m generalizing l with
  | chr accepts =>
    cases l with
    | here =>
      simp only [Machine.lastsOn, Bool.not_eq_true', decide_eq_false_iff_not]
      intro hall
      rw [hall c (hl rfl)] at hp
      cases hp
    | none => cases h
    | pair => cases h
  | eps => simp [Machine.final] at h
  | alt x y ihx ihy =>
    cases l with
    | pair l k =>
      simp only [Machine.final, Bool.or_eq_true] at h
      simp only [Machine.lastsOn, Bool.or_eq_true]
      rcases h with h | h
      · exact .inl (ihx hl.1 h)
      · exact .inr (ihy hl.2 h)
    | none => cases h
    | here => cases h
  | seq g x y ihx ihy =>
    cases l with
    | pair l k =>
      simp only [Machine.final, Bool.or_eq_true, Bool.and_eq_true] at h
      simp only [Machine.lastsOn, Bool.or_eq_true, Bool.and_eq_true]
      rcases h with h | ⟨hy, h⟩
      · exact .inl (ihy hl.2 h)
      · exact .inr ⟨hy, ihx hl.1 h⟩
    | none => cases h
    | here => cases h
  | star x ih => exact ih (l := l) hl (by simpa [Machine.final] using h)
  | embed w x b ih => exact ih (l := l) hl (by simpa [Machine.final] using h)

omit [Fintype α] in
theorem skips_of_mem {m : Machine α A} {π : List ℕ} (h : (π, a) ∈ m.skipped) :
    m.skips a = true :=
  List.any_eq_true.2 ⟨(π, a), h, by simp⟩

theorem leavesWith_of_pending {m : Machine α A} {l : Live} (hl : m.Arrived c l)
    (hp : p c = true) {π : List ℕ} (h : (π, a) ∈ m.pending l) : m.leavesWith p a = true := by
  induction m generalizing l π with
  | chr accepts => simp [Machine.pending] at h
  | eps => simp [Machine.pending] at h
  | alt x y ihx ihy =>
    obtain ⟨i, k, rfl, hin⟩ := mem_pending_alt h
    simp only [Machine.leavesWith, Bool.or_eq_true]
    rcases hin with ⟨q, hq⟩ | ⟨q, hq⟩
    · exact .inl (ihx hl.1 hq)
    · exact .inr (ihy hl.2 hq)
  | seq g x y ihx ihy =>
    obtain ⟨i, k, rfl, hin⟩ := mem_pending_seq h
    simp only [Machine.leavesWith, Bool.or_eq_true, Bool.and_eq_true]
    rcases hin with ⟨⟨hy, hfinal⟩, ⟨q, hq⟩ | ⟨q, hq⟩⟩ | ⟨q, hq⟩
    · exact .inr ⟨hy, .inl (ihx hl.1 hq)⟩
    · exact .inr ⟨hy, .inr ⟨skips_of_mem hq, lastsOn_of_final hl.1 hp hfinal⟩⟩
    · exact .inl (ihy hl.2 hq)
  | star x ih =>
    obtain ⟨q, hq⟩ := mem_under h
    exact ih (l := l) hl hq
  | embed w x b ih =>
    cases w with
    | entering =>
      obtain ⟨q, hq⟩ := mem_under h
      exact ih (l := l) hl hq
    | leaving =>
      simp only [Machine.pending, List.mem_append, List.mem_ite_nil_right, List.mem_singleton,
        Prod.mk.injEq] at h
      simp only [Machine.leavesWith, Bool.or_eq_true, Bool.and_eq_true, decide_eq_true_eq]
      rcases h with h | ⟨hfinal, -, rfl⟩
      · obtain ⟨q, hq⟩ := mem_under h
        exact .inr (ih (l := l) hl hq)
      · exact .inl ⟨rfl, lastsOn_of_final (m := x) hl hp hfinal⟩
    | finishing =>
      obtain ⟨q, hq⟩ := mem_under h
      exact ih (l := l) hl hq

/-- An action that is shunned can only come from entering the machine as a whole. -/
theorem entered_of_shuns {m : Machine α A} (hm : m.shuns p q a = true) {enter : Bool} {l : Live}
    (hl : m.Arrived c l) (hp : p c = true) (hq : q c' = true) {π : List ℕ}
    (h : (π, a) ∈ (m.step c' enter l).2) : enter = true ∧ m.entersWith q a = true := by
  induction m generalizing enter l π with
  | chr accepts => simp [Machine.step] at h
  | eps => simp [Machine.step] at h
  | alt x y ihx ihy =>
    simp only [Machine.shuns, Bool.and_eq_true] at hm
    simp only [Machine.step, List.mem_append] at h
    simp only [Machine.entersWith, Bool.or_eq_true]
    rcases h with h | h
    · obtain ⟨r, hr⟩ := mem_under h
      obtain ⟨henter, hx⟩ := ihx hm.1 hl.1 (mem_advance hr)
      exact ⟨henter, .inl hx⟩
    · obtain ⟨r, hr⟩ := mem_under h
      obtain ⟨henter, hy⟩ := ihy hm.2 hl.2 (mem_advance hr)
      exact ⟨henter, .inr hy⟩
  | seq g x y ihx ihy =>
    simp only [Machine.shuns, Bool.and_eq_true, Bool.not_eq_true'] at hm
    obtain ⟨⟨⟨hx, hy⟩, hleaves⟩, henters⟩ := hm
    simp only [Machine.step, List.mem_append] at h
    simp only [Machine.entersWith, Bool.or_eq_true, Bool.and_eq_true]
    rcases h with (h | h) | h
    · obtain ⟨r, hr⟩ := mem_under h
      split at hr
      · cases hr
      · obtain ⟨henter, hx⟩ := ihx hx hl.1 (mem_advance hr)
        exact ⟨henter, .inl hx⟩
    · simp only [List.mem_ite_nil_right, Bool.and_eq_true] at h
      have hstarts := startsOn_of_starts h.1.2 hq
      obtain ⟨r, hr⟩ := mem_under h.2
      simp only [Machine.departing, List.mem_append, List.mem_ite_nil_right, Bool.and_eq_true] at hr
      rcases hr with ⟨-, hr⟩ | ⟨⟨henter, hnull⟩, hr⟩
      · rw [leavesWith_of_pending hl.1 hp hr, hstarts] at hleaves
        cases hleaves
      · exact ⟨henter, .inr ⟨hnull, .inr ⟨skips_of_mem hr, hstarts⟩⟩⟩
    · obtain ⟨r, hr⟩ := mem_under h
      obtain ⟨henter, hy⟩ := ihy hy hl.2 (mem_advance hr)
      simp only [Bool.or_eq_true, Bool.and_eq_true] at henter
      rcases henter with hfinal | ⟨henter, hnull⟩
      · rw [hy, lastsOn_of_final hl.1 hp hfinal] at henters
        cases henters
      · exact ⟨henter, .inr ⟨hnull, .inl hy⟩⟩
  | star x ih =>
    simp only [Machine.shuns, Bool.and_eq_true, Bool.not_eq_true'] at hm
    obtain ⟨⟨hx, hleaves⟩, henters⟩ := hm
    simp only [Machine.step, List.mem_append, List.mem_ite_nil_right, Bool.and_eq_true] at h
    simp only [Machine.entersWith]
    rcases h with ⟨⟨-, hc⟩, h⟩ | h
    · obtain ⟨r, hr⟩ := mem_under h
      rw [leavesWith_of_pending (m := x) hl hp hr, startsOn_of_starts hc hq] at hleaves
      cases hleaves
    · obtain ⟨r, hr⟩ := mem_under h
      obtain ⟨henter, hx⟩ := ih hx (l := l) hl hr
      rcases Bool.or_eq_true_iff.1 henter with henter | hfinal
      · exact ⟨henter, hx⟩
      · rw [hx, lastsOn_of_final (m := x) hl hp hfinal] at henters
        cases henters
  | embed w x b ih =>
    cases w with
    | entering =>
      simp only [Machine.step, List.mem_append, List.mem_ite_nil_right, Bool.and_eq_true,
        List.mem_singleton, Prod.mk.injEq] at h
      simp only [Machine.entersWith, Bool.or_eq_true, Bool.and_eq_true, decide_eq_true_eq]
      rcases h with ⟨⟨henter, hc⟩, -, rfl⟩ | h
      · exact ⟨henter, .inl ⟨rfl, startsOn_of_starts hc hq⟩⟩
      · obtain ⟨r, hr⟩ := mem_under h
        obtain ⟨henter, hx⟩ := ih hm (l := l) hl hr
        exact ⟨henter, .inr hx⟩
    | leaving =>
      obtain ⟨r, hr⟩ := mem_under h
      exact ih hm (l := l) hl hr
    | finishing =>
      simp only [Machine.shuns, Bool.and_eq_true] at hm
      simp only [Machine.step, List.mem_append, List.mem_ite_nil_right, List.mem_singleton,
        Prod.mk.injEq] at h
      rcases h with h | ⟨-, -, rfl⟩
      · obtain ⟨r, hr⟩ := mem_under h
        exact ih hm.2 (l := l) hl hr
      · simp at hm

theorem not_executed_of_shuns {m : Machine α A} (hm : m.shuns p q a = true) {s s' : State}
    (hs : s.fresh = false ∨ m.entersWith q a = false) (hl : m.Arrived c s.live) (hp : p c = true)
    (hq : q c' = true) {acts : List A} (h : m.next s c' = some (s', acts)) : a ∉ acts := by
  intro ha
  obtain ⟨-, rfl⟩ := next_eq h
  obtain ⟨π, hπ⟩ := mem_inOrder.1 ha
  obtain ⟨henter, henters⟩ := entered_of_shuns hm hl hp hq hπ
  rcases hs with hs | hs
  · rw [hs] at henter
    cases henter
  · rw [hs] at henters
    cases henters

end Shunned

end RagelMachine
