import Mathlib.Computability.Language
import SylarNet.RagelMachine

/-!
# The language of a machine

The words that a machine without guards accepts, by its expression, and the words that still lead
to its end from the places it has reached. A run of the machine follows this by derivatives, so
that where it gets does not depend on the expression around it.
-/
namespace RagelMachine

open Computability

variable {α A : Type} {m x y : Machine α A} {c : α} {w : List α}

namespace Machine

/-- No guard drops anything. -/
def plain : Machine α A → Bool
  | .chr _ | .eps => true
  | .alt x y => x.plain && y.plain
  | .seq g x y => g = .plain && x.plain && y.plain
  | .star x => x.plain
  | .embed _ x _ => x.plain

def language : Machine α A → Language α
  | .chr accepts => {w | ∃ c, accepts c = true ∧ w = [c]}
  | .eps => 1
  | .alt x y => x.language + y.language
  | .seq _ x y => x.language * y.language
  | .star x => x.language∗
  | .embed _ x _ => x.language

/-- What leads from the places to the end of the machine. -/
def after : Machine α A → Live → Language α
  | .chr _, .here => 1
  | .alt x y, .pair l k => x.after l + y.after k
  | .seq _ x y, .pair l k => x.after l * y.language + y.after k
  | .star x, l => x.after l * x.language∗
  | .embed _ x _, l => x.after l
  | _, _ => 0

/-- The places after the symbols. -/
def track (m : Machine α A) (enter : Bool) (l : Live) : List α → Live
  | [] => l
  | c :: w => m.track false (m.step c enter l).1 w

/-- The places after a word that begins where the machine is entered. -/
def reached (m : Machine α A) (w : List α) : Live := m.track true .none w

end Machine

theorem mem_chr {accepts : α → Bool} :
    w ∈ (Machine.chr accepts : Machine α A).language ↔ ∃ c, accepts c = true ∧ w = [c] := Iff.rfl

theorem mem_eps : w ∈ (Machine.eps : Machine α A).language ↔ w = [] := Iff.rfl

theorem mem_alt : w ∈ (Machine.alt x y).language ↔ w ∈ x.language ∨ w ∈ y.language := Iff.rfl

theorem mem_seq {g : Guard} :
    w ∈ (Machine.seq g x y).language ↔ ∃ a ∈ x.language, ∃ b ∈ y.language, a ++ b = w :=
  Language.mem_mul

theorem append_mem_seq {u v : List α} (hu : u ∈ x.language) (hv : v ∈ y.language) :
    u ++ v ∈ (Machine.seq .plain x y).language := mem_seq.2 ⟨u, hu, v, hv, rfl⟩

theorem mem_opt : w ∈ x.opt.language ↔ w ∈ x.language ∨ w = [] := Iff.rfl

theorem mem_word [BEq α] [LawfulBEq α] (s : List α) :
    w ∈ (Machine.word s : Machine α A).language ↔ w = s := by
  induction s using Machine.word.induct generalizing w with
  | case1 => exact Iff.rfl
  | case2 c =>
    rw [Machine.word, mem_chr]
    constructor
    · rintro ⟨d, hd, rfl⟩
      rw [eq_of_beq hd]
    · rintro rfl
      exact ⟨c, beq_self_eq_true c, rfl⟩
  | case3 c s hs ih =>
    rw [Machine.word, mem_seq]
    · constructor
      · rintro ⟨_, ⟨d, hd, rfl⟩, _, hb, rfl⟩
        rw [eq_of_beq hd, ih.1 hb]
        rfl
      · rintro rfl
        exact ⟨[c], ⟨c, beq_self_eq_true c, rfl⟩, s, ih.2 rfl, rfl⟩
    · exact hs

theorem append_mem_star {u : List α} (hu : u ∈ x.language) (hw : w ∈ (Machine.star x).language) :
    u ++ w ∈ (Machine.star x).language := by
  have h : u ++ w ∈ x.language * x.language∗ := Language.mem_mul.2 ⟨u, hu, w, hw, rfl⟩
  change _ ∈ x.language∗
  rw [← Language.one_add_self_mul_kstar_eq_kstar]
  exact .inr h

@[simp] theorem nil_mem_language : [] ∈ m.language ↔ m.nullable = true := by
  induction m with
  | chr accepts =>
    rw [mem_chr]
    exact ⟨fun ⟨c, _, h⟩ => (List.cons_ne_nil c [] h.symm).elim, fun h => (by cases h)⟩
  | eps => exact ⟨fun _ => rfl, fun _ => rfl⟩
  | alt x y ihx ihy => rw [mem_alt, ihx, ihy, Machine.nullable, Bool.or_eq_true]
  | seq g x y ihx ihy =>
    rw [mem_seq, Machine.nullable, Bool.and_eq_true, ← ihx, ← ihy]
    constructor
    · rintro ⟨a, ha, b, hb, hab⟩
      obtain ⟨rfl, rfl⟩ := List.append_eq_nil_iff.1 hab
      exact ⟨ha, hb⟩
    · exact fun h => ⟨[], h.1, [], h.2, rfl⟩
  | star x ih => exact ⟨fun _ => rfl, fun _ => Language.nil_mem_kstar _⟩
  | embed e x a ih => exact ih

@[simp] theorem after_none : m.after .none = 0 := by
  induction m with
  | star x ih => rw [Machine.after, ih, zero_mul]
  | embed e x a ih => rw [Machine.after, ih]
  | _ => rfl

@[simp] theorem after_alt_mk (x y : Machine α A) (l k : Live) :
    (Machine.alt x y).after (.mk l k) = x.after l + y.after k := by
  cases l <;> cases k <;> simp [Live.mk, Machine.after]

@[simp] theorem after_seq_mk (g : Guard) (x y : Machine α A) (l k : Live) :
    (Machine.seq g x y).after (.mk l k) = x.after l * y.language + y.after k := by
  cases l <;> cases k <;> simp [Live.mk, Machine.after]

@[simp] theorem final_none : m.final .none = false := by
  induction m with
  | star x ih => exact ih
  | embed e x a ih => exact ih
  | _ => rfl

theorem nil_mem_mul {P Q : Language α} : [] ∈ P * Q ↔ [] ∈ P ∧ [] ∈ Q := by
  rw [Language.mem_mul]
  constructor
  · rintro ⟨a, ha, b, hb, hab⟩
    obtain ⟨rfl, rfl⟩ := List.append_eq_nil_iff.1 hab
    exact ⟨ha, hb⟩
  · exact fun h => ⟨[], h.1, [], h.2, rfl⟩

theorem nil_mem_after {l : Live} : [] ∈ m.after l ↔ m.final l = true := by
  induction m generalizing l with
  | chr accepts =>
    cases l with
    | here => exact ⟨fun _ => rfl, fun _ => rfl⟩
    | _ => exact ⟨fun h => h.elim, fun h => (by cases h)⟩
  | eps => exact ⟨fun h => h.elim, fun h => (by cases h)⟩
  | alt x y ihx ihy =>
    cases l with
    | pair l k =>
      rw [Machine.final, Bool.or_eq_true, ← ihx, ← ihy]
      exact Iff.rfl
    | _ => exact ⟨fun h => h.elim, fun h => (by cases h)⟩
  | seq g x y ihx ihy =>
    cases l with
    | pair l k =>
      rw [Machine.final, Bool.or_eq_true, Bool.and_eq_true, ← ihx, ← ihy, Machine.after,
        Language.mem_add, nil_mem_mul, nil_mem_language, and_comm, or_comm]
    | _ => exact ⟨fun h => h.elim, fun h => (by cases h)⟩
  | star x ih =>
    rw [Machine.after, nil_mem_mul, ih]
    exact and_iff_left (Language.nil_mem_kstar _)
  | embed e x a ih => exact ih

theorem cons_mem_mul {P Q : Language α} :
    c :: w ∈ P * Q ↔ [] ∈ P ∧ c :: w ∈ Q ∨ ∃ a b, a ++ b = w ∧ c :: a ∈ P ∧ b ∈ Q := by
  rw [Language.mem_mul]
  constructor
  · rintro ⟨a, ha, b, hb, hab⟩
    cases a with
    | nil => exact .inl ⟨ha, hab ▸ hb⟩
    | cons d a =>
      rw [List.cons_append, List.cons.injEq] at hab
      exact .inr ⟨a, b, hab.2, hab.1 ▸ ha, hb⟩
  · rintro (⟨hP, hQ⟩ | ⟨a, b, rfl, ha, hb⟩)
    · exact ⟨[], hP, c :: w, hQ, rfl⟩
    · exact ⟨c :: a, ha, b, hb, rfl⟩

theorem cons_mem_kstar {P : Language α} :
    c :: w ∈ P∗ ↔ ∃ a b, a ++ b = w ∧ c :: a ∈ P ∧ b ∈ P∗ := by
  constructor
  · intro h
    obtain ⟨L, hL, hmem⟩ := Language.mem_kstar_iff_exists_nonempty.1 h
    cases L with
    | nil => cases hL
    | cons p L =>
      rw [List.forall_mem_cons] at hmem
      obtain ⟨d, a, rfl⟩ := List.exists_cons_of_ne_nil hmem.1.2
      rw [List.flatten_cons, List.cons_append, List.cons.injEq] at hL
      obtain ⟨rfl, rfl⟩ := hL
      exact ⟨a, L.flatten, rfl, hmem.1.1, Language.join_mem_kstar fun y hy => (hmem.2 y hy).1⟩
  · rintro ⟨a, b, rfl, ha, hb⟩
    have h : c :: a ++ b ∈ P * P∗ := Language.mem_mul.2 ⟨c :: a, ha, b, hb, rfl⟩
    rw [← Language.one_add_self_mul_kstar_eq_kstar]
    exact .inr h

theorem starts_of_mem (h : c :: w ∈ m.language) : m.starts c = true := by
  induction m generalizing w with
  | chr accepts =>
    obtain ⟨d, hd, heq⟩ := mem_chr.1 h
    rw [Machine.starts, (List.cons.inj heq).1, hd]
  | eps => cases mem_eps.1 h
  | alt x y ihx ihy =>
    rw [Machine.starts, Bool.or_eq_true]
    exact (mem_alt.1 h).imp ihx ihy
  | seq g x y ihx ihy =>
    rw [Machine.starts, Bool.or_eq_true, Bool.and_eq_true]
    have hmul : c :: w ∈ x.language * y.language := h
    rcases cons_mem_mul.1 hmul with ⟨hnil, hy⟩ | ⟨a, b, -, ha, -⟩
    · exact .inr ⟨nil_mem_language.1 hnil, ihy hy⟩
    · exact .inl (ihx ha)
  | star x ih =>
    have hstar : c :: w ∈ x.language∗ := h
    obtain ⟨a, b, -, ha, -⟩ := cons_mem_kstar.1 hstar
    exact ih ha
  | embed e x a ih => exact ih h

/-- Nothing moves where no place is reached and none is entered. -/
theorem step_none (m : Machine α A) (c : α) : m.step c false .none = (.none, []) := by
  induction m with
  | chr accepts => simp [Machine.step]
  | eps => rfl
  | alt x y ihx ihy => simp [Machine.step, Machine.advance, Live.fst, Live.snd, Live.mk, under]
  | seq g x y ihx ihy =>
    cases g <;>
      simp [Machine.step, Machine.advance, Guard.drops, Live.fst, Live.snd, Live.mk, under]
  | star x ih => simp [Machine.step, ih, under]
  | embed e x a ih => cases e <;> simp [Machine.step, ih, under]

/-- The test of `advance` changes nothing. -/
theorem advance_step (m : Machine α A) (c : α) (enter : Bool) (l : Live) :
    Machine.advance (m.step c) enter l = m.step c enter l := by
  unfold Machine.advance
  split
  · rfl
  · rename_i h
    rw [Bool.or_eq_true, not_or, decide_eq_true_eq, ne_eq, not_not] at h
    rw [Bool.eq_false_iff.2 h.1, h.2, step_none]

theorem step_alt (x y : Machine α A) (c : α) (enter : Bool) (l : Live) :
    (Machine.alt x y).step c enter l =
      (.mk (x.step c enter l.fst).1 (y.step c enter l.snd).1,
        under 1 (x.step c enter l.fst).2 ++ under 2 (y.step c enter l.snd).2) := by
  simp only [Machine.step, advance_step]

/-- Whether the right machine is entered. -/
def Machine.crosses (x : Machine α A) (enter : Bool) (l : Live) : Bool :=
  x.final l || (enter && x.nullable)

theorem step_seq (x y : Machine α A) (c : α) (enter : Bool) (l : Live) :
    (Machine.seq .plain x y).step c enter l =
      (.mk (x.step c enter l.fst).1 (y.step c (x.crosses enter l.fst) l.snd).1,
        under 1 (x.step c enter l.fst).2 ++
          (if x.crosses enter l.fst && y.starts c then under 1 (x.departing enter l.fst) else []) ++
          under 2 (y.step c (x.crosses enter l.fst) l.snd).2) := by
  simp [Machine.step, advance_step, Machine.crosses, Guard.drops]

theorem fst_step_embed (e : Embedding) (x : Machine α A) (a : A) (c : α) (enter : Bool)
    (l : Live) : ((Machine.embed e x a).step c enter l).1 = (x.step c enter l).1 := by
  cases e <;> rfl

theorem after_alt (x y : Machine α A) (l : Live) :
    (Machine.alt x y).after l = x.after l.fst + y.after l.snd := by
  cases l <;> simp [Machine.after, Live.fst, Live.snd]

theorem after_seq (g : Guard) (x y : Machine α A) (l : Live) :
    (Machine.seq g x y).after l = x.after l.fst * y.language + y.after l.snd := by
  cases l <;> simp [Machine.after, Live.fst, Live.snd]

/-- The words behind one symbol: a step takes the derivative of the language. -/
theorem mem_after_step (hm : m.plain = true) (enter : Bool) (l : Live) :
    w ∈ m.after (m.step c enter l).1 ↔
      enter = true ∧ c :: w ∈ m.language ∨ c :: w ∈ m.after l := by
  induction m generalizing enter l w with
  | chr accepts =>
    have hafter : c :: w ∉ (Machine.chr accepts : Machine α A).after l := by
      intro h
      cases l with
      | here => exact List.cons_ne_nil c w h
      | _ => exact h
    rw [or_iff_left hafter, mem_chr, Machine.step]
    dsimp only
    split
    · rename_i h
      rw [Bool.and_eq_true] at h
      constructor
      · intro hw
        obtain rfl : w = [] := hw
        exact ⟨h.1, c, h.2, rfl⟩
      · rintro ⟨-, d, -, hd⟩
        exact (List.cons.inj hd).2
    · rename_i h
      refine ⟨fun hw => hw.elim, ?_⟩
      rintro ⟨henter, d, hd, hw⟩
      rw [← (List.cons.inj hw).1] at hd
      exact absurd (by rw [henter, hd]; rfl) h
  | eps =>
    have hafter : c :: w ∉ (Machine.eps : Machine α A).after l := fun h => by cases l <;> exact h
    rw [or_iff_left hafter, mem_eps]
    exact ⟨fun h => h.elim, fun h => (List.cons_ne_nil c w h.2).elim⟩
  | alt x y ihx ihy =>
    rw [Machine.plain, Bool.and_eq_true] at hm
    rw [step_alt, after_alt_mk, after_alt, mem_alt, Language.mem_add, Language.mem_add, ihx hm.1,
      ihy hm.2]
    tauto
  | seq g x y ihx ihy =>
    rw [Machine.plain, Bool.and_eq_true, Bool.and_eq_true, decide_eq_true_eq] at hm
    obtain ⟨⟨rfl, hx⟩, hy⟩ := hm
    have hcross : x.crosses enter l.fst = true ↔
        [] ∈ x.after l.fst ∨ enter = true ∧ [] ∈ x.language := by
      rw [Machine.crosses, Bool.or_eq_true, Bool.and_eq_true, nil_mem_after, nil_mem_language]
    rw [step_seq, after_seq_mk, after_seq, Language.mem_add, Language.mem_add, ihy hy, hcross,
      Language.mem_mul]
    have hseq : c :: w ∈ (Machine.seq .plain x y).language ↔ c :: w ∈ x.language * y.language :=
      Iff.rfl
    rw [hseq, cons_mem_mul, cons_mem_mul]
    constructor
    · rintro (⟨a, ha, b, hb, rfl⟩ | ⟨hnil | ⟨henter, hnil⟩, hw⟩ | hw)
      · rcases (ihx hx enter l.fst).1 ha with ⟨henter, ha⟩ | ha
        · exact .inl ⟨henter, .inr ⟨a, b, rfl, ha, hb⟩⟩
        · exact .inr (.inl (.inr ⟨a, b, rfl, ha, hb⟩))
      · exact .inr (.inl (.inl ⟨hnil, hw⟩))
      · exact .inl ⟨henter, .inl ⟨hnil, hw⟩⟩
      · exact .inr (.inr hw)
    · rintro (⟨henter, ⟨hnil, hw⟩ | ⟨a, b, rfl, ha, hb⟩⟩ | (⟨hnil, hw⟩ | ⟨a, b, rfl, ha, hb⟩) | hw)
      · exact .inr (.inl ⟨.inr ⟨henter, hnil⟩, hw⟩)
      · exact .inl ⟨a, (ihx hx enter l.fst).2 (.inl ⟨henter, ha⟩), b, hb, rfl⟩
      · exact .inr (.inl ⟨.inl hnil, hw⟩)
      · exact .inl ⟨a, (ihx hx enter l.fst).2 (.inr ha), b, hb, rfl⟩
      · exact .inr (.inr hw)
  | star x ih =>
    have hstep : ((Machine.star x).step c enter l).1 = (x.step c (enter || x.final l) l).1 := rfl
    have hstar : c :: w ∈ (Machine.star x).language ↔ c :: w ∈ x.language∗ := Iff.rfl
    rw [hstep, Machine.after, Machine.after, Language.mem_mul, hstar, cons_mem_mul,
      cons_mem_kstar, nil_mem_after]
    constructor
    · rintro ⟨a, ha, b, hb, rfl⟩
      rcases (ih hm _ l).1 ha with ⟨henter, ha⟩ | ha
      · rcases (Bool.or_eq_true_iff ..).1 henter with henter | hfinal
        · exact .inl ⟨henter, a, b, rfl, ha, hb⟩
        · exact .inr (.inl ⟨hfinal, a, b, rfl, ha, hb⟩)
      · exact .inr (.inr ⟨a, b, rfl, ha, hb⟩)
    · rintro (⟨henter, a, b, rfl, ha, hb⟩ | ⟨hfinal, a, b, rfl, ha, hb⟩ | ⟨a, b, rfl, ha, hb⟩)
      · exact ⟨a, (ih hm _ l).2 (.inl ⟨by rw [henter, Bool.true_or], ha⟩), b, hb, rfl⟩
      · exact ⟨a, (ih hm _ l).2 (.inl ⟨by rw [hfinal, Bool.or_true], ha⟩), b, hb, rfl⟩
      · exact ⟨a, (ih hm _ l).2 (.inr ha), b, hb, rfl⟩
  | embed e x a ih =>
    rw [fst_step_embed]
    exact ih hm enter l

theorem track_append (m : Machine α A) (enter : Bool) (l : Live) {u : List α} (hu : u ≠ [])
    (v : List α) : m.track enter l (u ++ v) = m.track false (m.track enter l u) v := by
  induction u generalizing enter l with
  | nil => exact absurd rfl hu
  | cons d u ih =>
    cases u with
    | nil => rfl
    | cons e u => exact ih false _ (List.cons_ne_nil e u)

theorem reached_concat (m : Machine α A) {u : List α} (hu : u ≠ []) (c : α) :
    m.reached (u ++ [c]) = (m.step c false (m.reached u)).1 := track_append m true .none hu [c]

theorem mem_after_track (hm : m.plain = true) (l : Live) (u : List α) :
    w ∈ m.after (m.track false l u) ↔ u ++ w ∈ m.after l := by
  induction u generalizing l with
  | nil => exact Iff.rfl
  | cons c u ih =>
    rw [Machine.track, ih, mem_after_step hm, or_iff_right (fun h => Bool.false_ne_true h.1)]
    exact Iff.rfl

/-- What leads on from the places after a word completes it. -/
theorem mem_after_reached (hm : m.plain = true) {u : List α} (hu : u ≠ []) :
    w ∈ m.after (m.reached u) ↔ u ++ w ∈ m.language := by
  obtain ⟨c, u, rfl⟩ := List.exists_cons_of_ne_nil hu
  rw [Machine.reached, Machine.track, mem_after_track hm, mem_after_step hm, after_none]
  exact ⟨fun h => (h.resolve_right fun h => h).2, fun h => .inl ⟨rfl, h⟩⟩

theorem final_reached (hm : m.plain = true) {u : List α} (hu : u ≠ []) :
    m.final (m.reached u) = true ↔ u ∈ m.language := by
  rw [← nil_mem_after, mem_after_reached hm hu, List.append_nil]

theorem track_none (m : Machine α A) (w : List α) : m.track false .none w = .none := by
  induction w with
  | nil => rfl
  | cons c w ih => rw [Machine.track, step_none, ih]

theorem track_alt (x y : Machine α A) (enter : Bool) (l k : Live) (w : List α) :
    (Machine.alt x y).track enter (.mk l k) w = .mk (x.track enter l w) (y.track enter k w) := by
  induction w generalizing enter l k with
  | nil => rfl
  | cons c w ih =>
    rw [Machine.track, step_alt, Live.fst_mk, Live.snd_mk, ih]
    rfl

theorem reached_alt (x y : Machine α A) (w : List α) :
    (Machine.alt x y).reached w = .mk (x.reached w) (y.reached w) :=
  track_alt x y true .none .none w

/-!
## Machines that do not concern a symbol, or have no actions
-/

/-- No place is left by the symbol. -/
def Machine.rejects (c : α) : Machine α A → Bool
  | .chr accepts => !accepts c
  | .eps => true
  | .alt x y => x.rejects c && y.rejects c
  | .seq _ x y => x.rejects c && y.rejects c
  | .star x => x.rejects c
  | .embed _ x _ => x.rejects c

theorem notMem_of_rejects (h : m.rejects c = true) (hw : w ∈ m.language) : c ∉ w := by
  induction m generalizing w with
  | chr accepts =>
    obtain ⟨d, hd, rfl⟩ := mem_chr.1 hw
    rw [Machine.rejects, Bool.not_eq_true'] at h
    intro hc
    rw [List.mem_singleton.1 hc, hd] at h
    cases h
  | eps =>
    obtain rfl := mem_eps.1 hw
    exact List.not_mem_nil
  | alt x y ihx ihy =>
    rw [Machine.rejects, Bool.and_eq_true] at h
    exact (mem_alt.1 hw).elim (ihx h.1) (ihy h.2)
  | seq g x y ihx ihy =>
    rw [Machine.rejects, Bool.and_eq_true] at h
    obtain ⟨a, ha, b, hb, rfl⟩ := mem_seq.1 hw
    rw [List.mem_append, not_or]
    exact ⟨ihx h.1 ha, ihy h.2 hb⟩
  | star x ih =>
    obtain ⟨us, rfl, hus⟩ := Language.mem_kstar.1 hw
    intro hc
    obtain ⟨u, hu, hcu⟩ := List.mem_flatten.1 hc
    exact ih h (hus u hu) hcu
  | embed e x a ih => exact ih h hw

theorem starts_of_rejects (h : m.rejects c = true) : m.starts c = false := by
  induction m with
  | chr accepts => simpa [Machine.rejects, Machine.starts] using h
  | eps => rfl
  | alt x y ihx ihy =>
    rw [Machine.rejects, Bool.and_eq_true] at h
    rw [Machine.starts, ihx h.1, ihy h.2]
    rfl
  | seq g x y ihx ihy =>
    rw [Machine.rejects, Bool.and_eq_true] at h
    rw [Machine.starts, ihx h.1, ihy h.2, Bool.and_false]
    rfl
  | star x ih => exact ih h
  | embed e x a ih => exact ih h

/-- Entered with a symbol that does not start it, a machine does nothing. -/
theorem step_of_not_starts (hm : m.plain = true) (h : m.starts c = false) (enter : Bool) :
    m.step c enter .none = (.none, []) := by
  induction m generalizing enter with
  | chr accepts =>
    rw [Machine.starts] at h
    simp [Machine.step, h]
  | eps => rfl
  | alt x y ihx ihy =>
    rw [Machine.plain, Bool.and_eq_true] at hm
    rw [Machine.starts, Bool.or_eq_false_iff] at h
    rw [step_alt]
    simp only [Live.fst, Live.snd, ihx hm.1 h.1, ihy hm.2 h.2]
    rfl
  | seq g x y ihx ihy =>
    rw [Machine.plain, Bool.and_eq_true, Bool.and_eq_true, decide_eq_true_eq] at hm
    obtain ⟨⟨rfl, hx⟩, hy⟩ := hm
    rw [Machine.starts, Bool.or_eq_false_iff, Bool.and_eq_false_iff] at h
    have hcross : (x.crosses enter .none && y.starts c) = false := by
      rw [Machine.crosses, final_none, Bool.false_or]
      rcases h.2 with hn | hs
      · rw [hn, Bool.and_false, Bool.false_and]
      · rw [hs, Bool.and_false]
    have hright : y.step c (x.crosses enter .none) .none = (.none, []) := by
      rcases h.2 with hn | hs
      · rw [Machine.crosses, final_none, hn, Bool.and_false, Bool.false_or, step_none]
      · exact ihy hy hs _
    rw [step_seq]
    simp only [Live.fst, Live.snd, hcross, hright, ihx hx h.1]
    rfl
  | star x ih =>
    simp only [Machine.step, final_none, Bool.or_false, Bool.false_and, ih hm h]
    rfl
  | embed e x a ih =>
    have hx : x.starts c = false := h
    cases e <;> simp [Machine.step, hx, ih hm hx, under]

theorem reached_of_not_starts (hm : m.plain = true) (h : m.starts c = false) (w : List α) :
    m.reached (c :: w) = .none := by
  rw [Machine.reached, Machine.track, step_of_not_starts hm h, track_none]

/-- Without embedded actions. -/
def Machine.silent : Machine α A → Bool
  | .chr _ | .eps => true
  | .alt x y => x.silent && y.silent
  | .seq _ x y => x.silent && y.silent
  | .star x => x.silent
  | .embed .. => false

theorem skipped_of_silent (h : m.silent = true) : m.skipped = [] := by
  induction m with
  | alt x y ihx ihy =>
    rw [Machine.silent, Bool.and_eq_true] at h
    simp [Machine.skipped, ihx h.1, ihy h.2, under]
  | seq g x y ihx ihy =>
    rw [Machine.silent, Bool.and_eq_true] at h
    simp [Machine.skipped, ihx h.1, ihy h.2, under]
  | star x ih => simp [Machine.skipped, ih h, under]
  | embed e x a ih => cases h
  | _ => rfl

theorem pending_of_silent (h : m.silent = true) (l : Live) : m.pending l = [] := by
  induction m generalizing l with
  | alt x y ihx ihy =>
    rw [Machine.silent, Bool.and_eq_true] at h
    cases l <;> simp [Machine.pending, ihx h.1, ihy h.2, under]
  | seq g x y ihx ihy =>
    rw [Machine.silent, Bool.and_eq_true] at h
    cases l <;> simp [Machine.pending, ihx h.1, ihy h.2, skipped_of_silent h.2, under]
  | star x ih => simp [Machine.pending, ih h, under]
  | embed e x a ih => cases h
  | _ => cases l <;> rfl

theorem departing_of_silent (h : m.silent = true) (enter : Bool) (l : Live) :
    m.departing enter l = [] := by
  simp [Machine.departing, skipped_of_silent h, pending_of_silent h]

theorem snd_step_of_silent (h : m.silent = true) (c : α) (enter : Bool) (l : Live) :
    (m.step c enter l).2 = [] := by
  induction m generalizing enter l with
  | alt x y ihx ihy =>
    rw [Machine.silent, Bool.and_eq_true] at h
    simp [step_alt, ihx h.1, ihy h.2, under]
  | seq g x y ihx ihy =>
    rw [Machine.silent, Bool.and_eq_true] at h
    simp only [Machine.step, advance_step, ihy h.2, departing_of_silent h.1]
    split <;> simp [ihx h.1, under]
  | star x ih =>
    have hx : x.silent = true := h
    simp [Machine.step, ih hx, pending_of_silent hx, under]
  | embed e x a ih => cases h
  | _ => rfl

end RagelMachine
