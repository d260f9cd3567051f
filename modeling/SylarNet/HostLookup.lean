import Mathlib.Algebra.Order.Group.Nat
import Mathlib.Data.List.TakeWhile
import Mathlib.Tactic.Common

/-!
# The host string of Address::Lookup

Two stages look for a node and a service, the second one whenever the first has left the node
empty. A pointer into the string is the text from there on; `getaddrinfo` gets C strings, which
end at their first NUL.
-/
namespace HostLookup

/-- The text in front of the first such byte and the text behind it. -/
def memchr (c : UInt8) : List UInt8 → Option (List UInt8 × List UInt8)
  | [] => none
  | b :: bs => if b = c then some ([], bs) else (memchr c bs).map fun r => (b :: r.1, r.2)

/-- What a C function reads of a string. -/
def cStr (s : List UInt8) : List UInt8 := s.takeWhile (· ≠ 0)

/-- The first stage, of a host with a bracket in front: `[` is 91, `]` 93 and `:` 58. -/
def bracketStage : List UInt8 → List UInt8 × Option (List UInt8)
  | [] => ([], none)
  | c :: rest =>
    if c = 91 then
      match memchr 93 rest with
      | some (node, behind) => (node, if behind.head? = some 58 then some behind.tail else none)
      | none => ([], none)
    else ([], none)

/-- The second stage. With another colon behind the first one the node stays empty, and the
service where it was found. -/
def colonStage (host : List UInt8) : List UInt8 × Option (List UInt8) :=
  match memchr 58 host with
  | some (before, behind) =>
    if memchr 58 behind = none then (before, some behind) else ([], some (58 :: behind))
  | none => ([], none)

/-- The arguments of `getaddrinfo`. -/
def lookupArgs (host : List UInt8) : List UInt8 × Option (List UInt8) :=
  let (node, service) := bracketStage host
  let (node, service) := if node = [] then colonStage host else (node, service)
  let node := if node = [] then host else node
  (cStr node, service.map cStr)

/-- An address in brackets, with a service or without one. -/
def Bracketed (host : List UInt8) : Prop :=
  ∃ x, x ≠ [] ∧ 93 ∉ x ∧ (host = 91 :: x ++ [93] ∨ ∃ s, host = 91 :: x ++ 93 :: 58 :: s)

/-- The node and the service that a host string stands for. -/
inductive Expects : List UInt8 → List UInt8 → Option (List UInt8) → Prop where
  | bracketService {x s : List UInt8} (nonempty : x ≠ []) (free : 93 ∉ x) :
    Expects (91 :: x ++ 93 :: 58 :: s) x (some s)
  | bracket {x : List UInt8} (nonempty : x ≠ []) (free : 93 ∉ x) :
    Expects (91 :: x ++ [93]) x none
  | pair {a b : List UInt8} (nonempty : a ≠ []) (once : 58 ∉ a ∧ 58 ∉ b)
    (plain : ¬ Bracketed (a ++ 58 :: b)) : Expects (a ++ 58 :: b) a (some b)
  | whole {host : List UInt8} (plain : host.head? ≠ some 91)
    (other : ¬ ∃ a b, host = a ++ 58 :: b ∧ a ≠ [] ∧ 58 ∉ a ∧ 58 ∉ b) : Expects host host none

/-- What the string stands for is what `getaddrinfo` is asked for. -/
def Splits (host : List UInt8) : Prop :=
  ∀ node service, Expects host node service →
    lookupArgs host = (cStr node, service.map cStr)

/-- No second colon and none in front; with a bracket in front no colon by itself beside an
address that ends before the string and before a colon. -/
def Splittable (host : List UInt8) : Prop :=
  if host.head? = some 91 then
    ¬ ∃ x y, host = 91 :: x ++ 93 :: y ∧ x ≠ [] ∧ 93 ∉ x ∧ y ≠ [] ∧ y.head? ≠ some 58 ∧
      host.count 58 = 1
  else host.count 58 = 0 ∨ host.count 58 = 1 ∧ host.head? ≠ some 58

section Stages

variable {c : UInt8} {host before behind x y : List UInt8}

theorem memchr_some :
    memchr c host = some (before, behind) ↔ host = before ++ c :: behind ∧ c ∉ before := by
  induction host generalizing before with
  | nil => simp [memchr]
  | cons b bs ih =>
    unfold memchr
    split_ifs with hb
    · subst hb
      cases before with
      | nil => simp [eq_comm]
      | cons d ds =>
        simp only [Option.some.injEq, Prod.mk.injEq, List.cons_append, List.cons.injEq,
          List.mem_cons, not_or, false_iff, reduceCtorEq, false_and]
        rintro ⟨⟨rfl, -⟩, hne, -⟩
        exact hne rfl
    · simp only [Option.map_eq_some_iff, Prod.exists, Prod.mk.injEq]
      constructor
      · rintro ⟨u, v, huv, rfl, rfl⟩
        obtain ⟨rfl, hu⟩ := ih.1 huv
        exact ⟨rfl, by simp [hu, Ne.symm hb]⟩
      · rintro ⟨heq, hfree⟩
        cases before with
        | nil =>
          cases heq
          exact absurd rfl hb
        | cons d ds =>
          simp only [List.cons_append, List.cons.injEq] at heq
          obtain ⟨rfl, heq⟩ := heq
          exact ⟨ds, behind, ih.2 ⟨heq, fun h => hfree (List.mem_cons_of_mem _ h)⟩, rfl, rfl⟩

theorem memchr_none : memchr c host = none ↔ c ∉ host := by
  induction host with
  | nil => simp [memchr]
  | cons b bs ih =>
    unfold memchr
    split_ifs with hb
    · simp [hb]
    · simp [ih, Ne.symm hb]

/-- An address that is closed is the node, whatever is behind it. -/
theorem lookupArgs_bracket (hx : x ≠ []) (hfree : 93 ∉ x) :
    lookupArgs (91 :: x ++ 93 :: y) =
      (cStr x, if y.head? = some 58 then some (cStr y.tail) else none) := by
  have hmem : memchr 93 (x ++ 93 :: y) = some (x, y) := memchr_some.2 ⟨rfl, hfree⟩
  simp only [lookupArgs, bracketStage, List.cons_append, if_true, hmem, hx, if_false]
  split_ifs <;> rfl

/-- The second stage decides. -/
theorem lookupArgs_plain (h : (bracketStage host).1 = []) :
    lookupArgs host =
      (cStr (if (colonStage host).1 = [] then host else (colonStage host).1),
        (colonStage host).2.map cStr) := by
  simp only [lookupArgs, h, if_true]

theorem bracketStage_plain (h : host.head? ≠ some 91) : (bracketStage host).1 = [] := by
  cases host with
  | nil => rfl
  | cons c rest =>
    have hc : c ≠ 91 := by simpa using h
    rw [bracketStage, if_neg hc]

/-- With a bracket in front the first stage leaves the node empty unless an address is closed. -/
theorem bracketStage_open (h : ¬ ∃ x y, host = 91 :: x ++ 93 :: y ∧ x ≠ [] ∧ 93 ∉ x) :
    (bracketStage host).1 = [] := by
  cases host with
  | nil => rfl
  | cons c rest =>
    rw [bracketStage]
    split_ifs with hc
    · subst hc
      cases hm : memchr 93 rest with
      | none => rfl
      | some r =>
        obtain ⟨hrest, hfree⟩ := memchr_some.1 hm
        by_contra hne
        exact h ⟨r.1, r.2, by rw [hrest, List.cons_append], hne, hfree⟩
    · rfl

theorem colonStage_pair (ha : 58 ∉ x) (hb : 58 ∉ y) :
    colonStage (x ++ 58 :: y) = (x, some y) := by
  have hm : memchr 58 (x ++ 58 :: y) = some (x, y) := memchr_some.2 ⟨rfl, ha⟩
  simp [colonStage, hm, memchr_none.2 hb]

theorem colonStage_many (ha : 58 ∉ x) (hb : 58 ∈ y) :
    colonStage (x ++ 58 :: y) = ([], some (58 :: y)) := by
  have hm : memchr 58 (x ++ 58 :: y) = some (x, y) := memchr_some.2 ⟨rfl, ha⟩
  have hb' : memchr 58 y ≠ none := fun hnone => memchr_none.1 hnone hb
  simp [colonStage, hm, hb']

theorem count_pair (ha : 58 ∉ x) : (x ++ 58 :: y).count 58 = y.count 58 + 1 := by
  rw [List.count_append, List.count_eq_zero_of_not_mem ha, List.count_cons_self, Nat.zero_add]

theorem exists_colon (h : 58 ∈ host) : ∃ x y, host = x ++ 58 :: y ∧ 58 ∉ x := by
  cases hm : memchr 58 host with
  | none => exact absurd h (memchr_none.1 hm)
  | some r => exact ⟨r.1, r.2, memchr_some.1 hm⟩

/-- The place of the first such byte is one. -/
theorem first_unique {u v : List UInt8} (h : x ++ c :: y = u ++ c :: v) (hx : c ∉ x) (hu : c ∉ u) :
    x = u ∧ y = v := by
  have hm : memchr c (x ++ c :: y) = some (u, v) := memchr_some.2 ⟨h, hu⟩
  have hm' : memchr c (x ++ c :: y) = some (x, y) := memchr_some.2 ⟨rfl, hx⟩
  cases hm.symm.trans hm'
  exact ⟨rfl, rfl⟩

theorem not_bracketed (hfree : 93 ∉ x) (hy : y ≠ []) (hhead : y.head? ≠ some 58) :
    ¬ Bracketed (91 :: x ++ 93 :: y) := by
  rintro ⟨u, -, hu, heq | ⟨s, heq⟩⟩
  · simp only [List.cons_append, List.cons.injEq, true_and] at heq
    exact hy (first_unique heq hfree hu).2
  · simp only [List.cons_append, List.cons.injEq, true_and] at heq
    apply hhead
    rw [(first_unique heq hfree hu).2]
    rfl

/-- A host without a bracket in front. -/
theorem splits_plain (h : host.head? ≠ some 91) :
    Splits host ↔ host.count 58 = 0 ∨ host.count 58 = 1 ∧ host.head? ≠ some 58 := by
  have hargs := lookupArgs_plain (bracketStage_plain h)
  by_cases hcolon : 58 ∈ host
  · obtain ⟨a, b, rfl, ha⟩ := exists_colon hcolon
    rw [count_pair ha]
    by_cases hb : 58 ∈ b
    · have hcount := List.count_pos_iff.2 hb
      rw [colonStage_many ha hb] at hargs
      refine iff_of_false ?_ (by omega)
      intro hsplits
      have hwhole := hsplits _ _ (.whole h ?_)
      · cases hargs.symm.trans hwhole
      · rintro ⟨u, v, heq, -, hu, hv⟩
        obtain ⟨-, rfl⟩ := first_unique heq ha hu
        exact hv hb
    · rw [colonStage_pair ha hb] at hargs
      rw [List.count_eq_zero_of_not_mem hb]
      by_cases hempty : a = []
      · subst hempty
        refine iff_of_false ?_ (by simp)
        intro hsplits
        have hwhole := hsplits _ _ (.whole h ?_)
        · cases hargs.symm.trans hwhole
        · rintro ⟨u, v, heq, hne, hu, -⟩
          exact hne (first_unique heq ha hu).1.symm
      · refine iff_of_true ?_ (.inr ⟨rfl, ?_⟩)
        · intro node service hexpects
          rw [hargs, if_neg hempty]
          generalize hhost : a ++ 58 :: b = host at hexpects
          cases hexpects with
          | bracketService => exact absurd (by rw [hhost]; rfl) h
          | bracket => exact absurd (by rw [hhost]; rfl) h
          | pair hne honce =>
            obtain ⟨rfl, rfl⟩ := first_unique hhost ha honce.1
            rfl
          | whole hplain hother => exact absurd ⟨a, b, hhost.symm, hempty, ha, hb⟩ hother
        · cases a with
          | nil => exact absurd rfl hempty
          | cons c a =>
            simp only [List.cons_append, List.head?_cons, ne_eq, Option.some.injEq]
            rintro rfl
            exact ha List.mem_cons_self
  · have hnone : colonStage host = ([], none) := by simp [colonStage, memchr_none.2 hcolon]
    rw [hnone, if_pos rfl] at hargs
    refine iff_of_true ?_ (.inl (List.count_eq_zero_of_not_mem hcolon))
    intro node service hexpects
    rw [hargs]
    cases hexpects with
    | bracketService | bracket => exact absurd rfl h
    | pair => exact absurd (by simp) hcolon
    | whole => rfl

/-- A host with a bracket in front. -/
theorem splits_bracket (h : host.head? = some 91) :
    Splits host ↔ ¬ ∃ x y, host = 91 :: x ++ 93 :: y ∧ x ≠ [] ∧ 93 ∉ x ∧ y ≠ [] ∧
      y.head? ≠ some 58 ∧ host.count 58 = 1 := by
  constructor
  · rintro hsplits ⟨x, y, rfl, hx, hfree, hy, hhead, hcount⟩
    have hpos : 0 < (91 :: x ++ 93 :: y).count 58 := by omega
    obtain ⟨a, b, hab, ha⟩ := exists_colon (List.count_pos_iff.1 hpos)
    rw [hab, count_pair ha] at hcount
    have hb : 58 ∉ b := List.count_eq_zero.1 (by omega)
    have hne : a ≠ [] := by
      rintro rfl
      cases hab
    have hpair := hsplits a (some b) (by
      rw [hab]
      refine .pair hne ⟨ha, hb⟩ ?_
      rw [← hab]
      exact not_bracketed hfree hy hhead)
    rw [lookupArgs_bracket hx hfree, if_neg hhead] at hpair
    cases (Prod.mk.inj hpair).2
  · intro hok node service hexpects
    cases hexpects with
    | bracketService hx hfree => rw [lookupArgs_bracket hx hfree]; rfl
    | bracket hx hfree => rw [lookupArgs_bracket hx hfree]; rfl
    | whole hplain => exact absurd h hplain
    | @pair _ b hne honce hplain =>
      have hopen : ¬ ∃ x y, node ++ 58 :: b = 91 :: x ++ 93 :: y ∧ x ≠ [] ∧ 93 ∉ x := by
        rintro ⟨x, y, heq, hx, hfree⟩
        have hcount : (node ++ 58 :: b).count 58 = 1 := by
          rw [count_pair honce.1, List.count_eq_zero_of_not_mem honce.2]
        refine hok ⟨x, y, heq, hx, hfree, ?_, ?_, hcount⟩
        · rintro rfl
          exact hplain ⟨x, hx, hfree, .inl heq⟩
        · intro hhead
          obtain ⟨s, rfl⟩ : ∃ s, y = 58 :: s := by
            cases y with
            | nil => cases hhead
            | cons c s =>
              cases hhead
              exact ⟨s, rfl⟩
          exact hplain ⟨x, hx, hfree, .inr ⟨s, heq⟩⟩
      rw [lookupArgs_plain (bracketStage_open hopen), colonStage_pair honce.1 honce.2,
        if_neg hne]

end Stages

/-- `getaddrinfo` is asked for what the string stands for if and only if it can be split so. -/
theorem splits_iff (host : List UInt8) : Splits host ↔ Splittable host := by
  unfold Splittable
  split_ifs with h
  · exact splits_bracket h
  · exact splits_plain h

/-- The service of `::1` is `::1` as well. -/
theorem literal_with_service : ¬ ∀ host, Splits host := by
  intro h
  have hsplits := h [58, 58, 49]
  rw [splits_plain (by decide)] at hsplits
  exact absurd hsplits (by decide)

end HostLookup
