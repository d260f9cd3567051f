import SylarNet.UriLanguages

/-!
# IPv6 addresses in the grammar

`uri.rl` asks for exactly as many groups before the `::` as there can be at most, and writes the
first digit of the octets from 200 to 249 without its quotes.
-/
namespace UriAddresses

open RagelMachine UriGrammar UriComponents UriLanguages DecimalText

variable {t w : List UInt8} {n : ℕ}

theorem colons_cons {p : List UInt8} {ps : List (List UInt8)} (h : ps ≠ []) :
    colons (p :: ps) = p ++ 58 :: colons ps := by
  rw [colons, List.intercalate_cons_of_ne_nil h, List.append_assoc]
  rfl

/-- What `h16` accepts. -/
def IsGroup (t : List UInt8) : Prop := t ∈ h16.language

theorem mem_h16Colon : w ∈ h16Colon.language ↔ ∃ g, IsGroup g ∧ w = g ++ [58] := by
  constructor
  · intro h
    obtain ⟨g, hg, s, hs, rfl⟩ := mem_seq.1 h
    rw [(mem_lit ":").1 hs]
    exact ⟨g, hg, rfl⟩
  · rintro ⟨g, hg, rfl⟩
    exact mem_seq.2 ⟨g, hg, [58], (mem_lit ":").2 rfl, rfl⟩

/-- Groups with their colons in front of something that consists of pieces itself. -/
theorem mem_times {y : Rule} {P : List (List UInt8) → Prop}
    (hy : ∀ t, t ∈ y.language ↔ ∃ ps, ps ≠ [] ∧ P ps ∧ t = colons ps) :
    w ∈ (Machine.times n h16Colon y).language ↔ ∃ gs ps, gs.length = n ∧ (∀ g ∈ gs, IsGroup g) ∧
      ps ≠ [] ∧ P ps ∧ w = colons (gs ++ ps) := by
  induction n generalizing w with
  | zero =>
    rw [Machine.times, hy]
    constructor
    · rintro ⟨ps, hne, hps, rfl⟩
      exact ⟨[], ps, rfl, nofun, hne, hps, rfl⟩
    · rintro ⟨gs, ps, hlen, -, hne, hps, rfl⟩
      rw [List.length_eq_zero_iff.1 hlen]
      exact ⟨ps, hne, hps, rfl⟩
  | succ n ih =>
    rw [Machine.times, mem_seq]
    constructor
    · rintro ⟨a, ha, b, hb, rfl⟩
      obtain ⟨g, hg, rfl⟩ := mem_h16Colon.1 ha
      obtain ⟨gs, ps, rfl, hgs, hne, hps, rfl⟩ := ih.1 hb
      refine ⟨g :: gs, ps, rfl, List.forall_mem_cons.2 ⟨hg, hgs⟩, hne, hps, ?_⟩
      rw [List.cons_append, colons_cons (List.append_ne_nil_of_right_ne_nil gs hne),
        List.append_assoc]
      rfl
    · rintro ⟨gs, ps, hlen, hgs, hne, hps, rfl⟩
      obtain ⟨g, gs, rfl⟩ := List.exists_cons_of_length_eq_add_one hlen
      rw [List.forall_mem_cons] at hgs
      refine ⟨g ++ [58], mem_h16Colon.2 ⟨g, hgs.1, rfl⟩, colons (gs ++ ps), ih.2 ?_, ?_⟩
      · exact ⟨gs, ps, Nat.succ.inj hlen, hgs.2, hne, hps, rfl⟩
      · rw [List.cons_append, colons_cons (List.append_ne_nil_of_right_ne_nil gs hne),
          List.append_assoc]
        rfl

/-- Pieces for `n` groups of which the last one may be an IPv4 address. -/
structure Tail (n : ℕ) (gs : List (List UInt8)) (ip : Option (List UInt8)) : Prop where
  groups : ∀ g ∈ gs, IsGroup g
  address : ∀ p ∈ ip, p ∈ ipv4address.language
  worth : gs.length + 2 * ip.toList.length = n

theorem pieces_ne_nil {gs : List (List UInt8)} {ip : Option (List UInt8)}
    (h : gs.length + 2 * ip.toList.length = n) (hn : n ≠ 0) : gs ++ ip.toList ≠ [] := by
  intro hnil
  have hlen := congrArg List.length hnil
  rw [List.length_append, List.length_nil] at hlen
  omega

theorem mem_ls32 : t ∈ ls32.language ↔
    ∃ ps, ps ≠ [] ∧ (∃ gs ip, Tail 2 gs ip ∧ ps = gs ++ ip.toList) ∧ t = colons ps := by
  rw [ls32, mem_alt]
  constructor
  · rintro (h | h)
    · obtain ⟨_, hcolon, b, hb, rfl⟩ := mem_seq.1 h
      obtain ⟨a, ha, s, hs, rfl⟩ := mem_seq.1 hcolon
      rw [(mem_lit ":").1 hs]
      refine ⟨[a, b], List.cons_ne_nil _ _, ⟨[a, b], none, ⟨?_, nofun, rfl⟩, rfl⟩, ?_⟩
      · simp [IsGroup, ha, hb]
      · simp [colons]
        rfl
    · refine ⟨[t], List.cons_ne_nil _ _, ⟨[], some t, ⟨nofun, ?_, rfl⟩, rfl⟩, ?_⟩
      · simpa using h
      · simp [colons]
  · rintro ⟨_, -, ⟨gs, ip, htail, rfl⟩, rfl⟩
    have hworth := htail.worth
    cases ip with
    | none =>
      obtain ⟨a, b, rfl⟩ := List.length_eq_two.1 hworth
      have hcolon : [58] ∈ (lit ":").language := (mem_lit ":").2 rfl
      have hab := append_mem_seq (append_mem_seq (htail.groups a (by simp)) hcolon)
        (htail.groups b (by simp))
      left
      simpa [colons, cat] using hab
    | some p =>
      obtain rfl : gs = [] := by simpa using hworth
      right
      simpa [colons] using htail.address p rfl

theorem mem_tail : w ∈ (Machine.times n h16Colon ls32).language ↔
    ∃ gs ip, Tail (n + 2) gs ip ∧ w = colons (gs ++ ip.toList) := by
  rw [mem_times fun _ => mem_ls32]
  constructor
  · rintro ⟨gs, _, rfl, hgs, -, ⟨gs', ip, htail, rfl⟩, rfl⟩
    refine ⟨gs ++ gs', ip, ⟨?_, htail.address, ?_⟩, by rw [List.append_assoc]⟩
    · exact fun g hg => (List.mem_append.1 hg).elim (hgs g) (htail.groups g)
    · rw [List.length_append, Nat.add_assoc, htail.worth]
  · rintro ⟨gs, ip, htail, rfl⟩
    have hworth := htail.worth
    have hip : ip.toList.length ≤ 1 := by cases ip <;> simp
    have hrest : Tail 2 (gs.drop n) ip := by
      refine ⟨fun g hg => htail.groups g (List.mem_of_mem_drop hg), htail.address, ?_⟩
      rw [List.length_drop]
      omega
    refine ⟨gs.take n, gs.drop n ++ ip.toList, ?_, ?_, ?_, ⟨_, ip, hrest, rfl⟩, ?_⟩
    · rw [List.length_take]
      omega
    · exact fun g hg => htail.groups g (List.mem_of_mem_take hg)
    · exact pieces_ne_nil hrest.worth (by decide)
    · rw [← List.append_assoc, List.take_append_drop]

theorem isGroup_iff_tail : IsGroup t ↔ ∃ gs ip, Tail 1 gs ip ∧ t = colons (gs ++ ip.toList) := by
  constructor
  · intro h
    refine ⟨[t], none, ⟨?_, nofun, rfl⟩, by simp [colons]⟩
    simpa using h
  · rintro ⟨gs, ip, htail, rfl⟩
    have hworth := htail.worth
    cases ip with
    | none =>
      obtain ⟨g, rfl⟩ := List.length_eq_one_iff.1 hworth
      simpa [colons] using htail.groups g (List.mem_singleton_self g)
    | some p =>
      have htwo : gs.length + 2 = 1 := hworth
      omega

theorem tail_zero {gs : List (List UInt8)} {ip : Option (List UInt8)} :
    Tail 0 gs ip ↔ gs = [] ∧ ip = none := by
  constructor
  · intro h
    have hworth := h.worth
    cases ip with
    | none => exact ⟨List.length_eq_zero_iff.1 hworth, rfl⟩
    | some p =>
      have htwo : gs.length + 2 = 0 := hworth
      omega
  · rintro ⟨rfl, rfl⟩
    exact ⟨nofun, nofun, rfl⟩

/-- Either none of the groups before the `::` or exactly `k`. -/
structure Before (k : ℕ) (gs : List (List UInt8)) : Prop where
  groups : ∀ g ∈ gs, IsGroup g
  exact : gs = [] ∨ gs.length = k

theorem mem_h16s : w ∈ (h16s n).language ↔ ∃ gs, Before (n + 1) gs ∧ w = colons gs := by
  have hgroup : ∀ t, t ∈ h16.language ↔
      ∃ ps, ps ≠ [] ∧ (∃ g, IsGroup g ∧ ps = [g]) ∧ t = colons ps := by
    intro t
    constructor
    · exact fun h => ⟨[t], List.cons_ne_nil _ _, ⟨t, h, rfl⟩, by simp [colons]⟩
    · rintro ⟨_, -, ⟨g, hg, rfl⟩, rfl⟩
      rw [colons, List.intercalate_singleton]
      exact hg
  rw [h16s, mem_opt, mem_times hgroup]
  constructor
  · rintro (⟨gs, _, rfl, hgs, -, ⟨g, hg, rfl⟩, rfl⟩ | rfl)
    · refine ⟨gs ++ [g], ⟨?_, .inr (by simp)⟩, rfl⟩
      exact fun p hp => (List.mem_append.1 hp).elim (hgs p)
        (fun hp => List.mem_singleton.1 hp ▸ hg)
    · exact ⟨[], ⟨nofun, .inl rfl⟩, rfl⟩
  · rintro ⟨gs, hgs, rfl⟩
    rcases hgs.exact with rfl | hlen
    · exact .inr rfl
    · left
      have hne : gs ≠ [] := List.ne_nil_of_length_eq_add_one hlen
      refine ⟨gs.dropLast, [gs.getLast hne], ?_, ?_, List.cons_ne_nil _ _,
        ⟨_, hgs.groups _ (List.getLast_mem hne), rfl⟩, ?_⟩
      · rw [List.length_dropLast, hlen]
        rfl
      · exact fun g hg => hgs.groups g (List.mem_of_mem_dropLast hg)
      · rw [List.dropLast_concat_getLast]

theorem mem_elided {x y : Rule} : w ∈ (cat x [lit "::", y]).language ↔
    ∃ a ∈ x.language, ∃ b ∈ y.language, w = a ++ 58 :: 58 :: b := by
  constructor
  · intro h
    obtain ⟨_, hleft, b, hb, rfl⟩ := mem_seq.1 h
    obtain ⟨a, ha, s, hs, rfl⟩ := mem_seq.1 hleft
    rw [(mem_lit "::").1 hs]
    exact ⟨a, ha, b, hb, List.append_assoc _ _ _⟩
  · rintro ⟨a, ha, b, hb, rfl⟩
    refine mem_seq.2 ⟨a ++ [58, 58], mem_seq.2 ⟨a, ha, [58, 58], ?_, rfl⟩, b, hb, ?_⟩
    · exact (mem_lit "::").2 rfl
    · exact List.append_assoc _ _ _

/-- An address with `::`, behind `k` groups or none and before `n`. -/
def Elided (k n : ℕ) (w : List UInt8) : Prop :=
  ∃ before gs ip, Before k before ∧ Tail n gs ip ∧
    w = colons before ++ 58 :: 58 :: colons (gs ++ ip.toList)

theorem mem_elided_iff {x y : Rule} {k : ℕ}
    (hx : ∀ t, t ∈ x.language ↔ ∃ gs, Before k gs ∧ t = colons gs)
    (hy : ∀ t, t ∈ y.language ↔ ∃ gs ip, Tail n gs ip ∧ t = colons (gs ++ ip.toList)) :
    w ∈ (cat x [lit "::", y]).language ↔ Elided k n w := by
  rw [mem_elided]
  constructor
  · rintro ⟨a, ha, b, hb, rfl⟩
    obtain ⟨before, hbefore, rfl⟩ := (hx a).1 ha
    obtain ⟨gs, ip, htail, rfl⟩ := (hy b).1 hb
    exact ⟨before, gs, ip, hbefore, htail, rfl⟩
  · rintro ⟨before, gs, ip, hbefore, htail, rfl⟩
    exact ⟨_, (hx _).2 ⟨before, hbefore, rfl⟩, _, (hy _).2 ⟨gs, ip, htail, rfl⟩, rfl⟩

/-- The nine alternatives by what they have in common. -/
theorem mem_ipv6address : w ∈ ipv6address.language ↔
    (∃ gs ip, Tail 8 gs ip ∧ w = colons (gs ++ ip.toList)) ∨ ∃ k n, k + n = 7 ∧ Elided k n w := by
  have hfirst : w ∈ (cat (lit "::") [Machine.times 5 h16Colon ls32]).language ↔ Elided 0 7 w := by
    rw [cat, List.foldl_cons, List.foldl_nil, mem_seq]
    constructor
    · rintro ⟨s, hs, b, hb, rfl⟩
      obtain ⟨gs, ip, htail, rfl⟩ := mem_tail.1 hb
      rw [(mem_lit "::").1 hs]
      exact ⟨[], gs, ip, ⟨nofun, .inl rfl⟩, htail, rfl⟩
    · rintro ⟨before, gs, ip, hbefore, htail, rfl⟩
      obtain rfl : before = [] := hbefore.exact.elim id List.length_eq_zero_iff.1
      exact ⟨[58, 58], (mem_lit "::").2 rfl, _, mem_tail.2 ⟨gs, ip, htail, rfl⟩, rfl⟩
  have hlast : w ∈ (cat (h16s 6) [lit "::"]).language ↔ Elided 7 0 w := by
    rw [cat, List.foldl_cons, List.foldl_nil, mem_seq]
    constructor
    · rintro ⟨a, ha, s, hs, rfl⟩
      obtain ⟨before, hbefore, rfl⟩ := mem_h16s.1 ha
      rw [(mem_lit "::").1 hs]
      exact ⟨before, [], none, hbefore, tail_zero.2 ⟨rfl, rfl⟩, rfl⟩
    · rintro ⟨before, gs, ip, hbefore, htail, rfl⟩
      obtain ⟨rfl, rfl⟩ := tail_zero.1 htail
      exact ⟨_, mem_h16s.2 ⟨before, hbefore, rfl⟩, [58, 58], (mem_lit "::").2 rfl, rfl⟩
  have hmiddle (n k : ℕ) :
      w ∈ (cat (h16s k) [lit "::", .times n h16Colon ls32]).language ↔ Elided (k + 1) (n + 2) w :=
    mem_elided_iff (fun _ => mem_h16s) fun _ => mem_tail
  have hgroup : w ∈ (cat (h16s 5) [lit "::", h16]).language ↔ Elided 6 1 w :=
    mem_elided_iff (fun _ => mem_h16s) fun _ => isGroup_iff_tail
  have hls32 : w ∈ (cat (h16s 4) [lit "::", ls32]).language ↔ Elided 5 2 w := hmiddle 0 4
  rw [ipv6address]
  simp only [mem_alt, mem_tail, hfirst, hmiddle, hls32, hgroup, hlast]
  apply or_congr Iff.rfl
  constructor
  · rintro (h | h | h | h | h | h | h | h)
    · exact ⟨_, _, rfl, h⟩
    · exact ⟨_, _, rfl, h⟩
    · exact ⟨_, _, rfl, h⟩
    · exact ⟨_, _, rfl, h⟩
    · exact ⟨_, _, rfl, h⟩
    · exact ⟨_, _, rfl, h⟩
    · exact ⟨_, _, rfl, h⟩
    · exact ⟨_, _, rfl, h⟩
  · rintro ⟨k, n, hsum, h⟩
    obtain rfl : n = 7 - k := by omega
    have hk : k ≤ 7 := by omega
    interval_cases k
    · exact .inl h
    · exact .inr (.inl h)
    · exact .inr (.inr (.inl h))
    · exact .inr (.inr (.inr (.inl h)))
    · exact .inr (.inr (.inr (.inr (.inl h))))
    · exact .inr (.inr (.inr (.inr (.inr (.inl h)))))
    · exact .inr (.inr (.inr (.inr (.inr (.inr (.inl h))))))
    · exact .inr (.inr (.inr (.inr (.inr (.inr (.inr h))))))

/-!
## One way to read an address
-/

/-- The first `a` of a list. -/
theorem append_cons_unique {α : Type} {a : α} {xs ys zs ts : List α} (hx : a ∉ xs) (hy : a ∉ ys)
    (h : xs ++ a :: zs = ys ++ a :: ts) : xs = ys ∧ zs = ts := by
  induction xs generalizing ys with
  | nil =>
    cases ys with
    | nil => exact ⟨rfl, (List.cons.inj h).2⟩
    | cons y ys => exact absurd (List.mem_cons.2 (.inl (List.cons.inj h).1)) hy
  | cons x xs ih =>
    cases ys with
    | nil => exact absurd (List.mem_cons.2 (.inl (List.cons.inj h).1.symm)) hx
    | cons y ys =>
      obtain ⟨rfl, htail⟩ := List.cons.inj h
      rw [List.mem_cons, not_or] at hx hy
      obtain ⟨rfl, rfl⟩ := ih hx.2 hy.2 htail
      exact ⟨rfl, rfl⟩

/-- Something between colons. -/
structure IsPiece (p : List UInt8) : Prop where
  not_nil : p ≠ []
  no_colon : 58 ∉ p

variable {ps qs ps' qs' : List (List UInt8)}

theorem colons_injective (hps : ∀ p ∈ ps, 58 ∉ p) (hqs : ∀ p ∈ qs, 58 ∉ p) (hp : ps ≠ [])
    (hq : qs ≠ []) (h : colons ps = colons qs) : ps = qs := by
  rw [← List.splitOn_intercalate 58 hps hp, ← List.splitOn_intercalate 58 hqs hq]
  exact congrArg _ h

theorem colons_append (hp : ps ≠ []) (hq : qs ≠ []) :
    colons (ps ++ qs) = colons ps ++ 58 :: colons qs := by
  induction ps with
  | nil => exact absurd rfl hp
  | cons p ps ih =>
    rw [List.cons_append]
    by_cases hnil : ps = []
    · rw [hnil, List.nil_append, colons_cons hq]
      simp [colons]
    · rw [colons_cons (List.append_ne_nil_of_left_ne_nil hnil qs), ih hnil, colons_cons hnil,
        List.append_assoc]
      rfl

/-- No pieces are one empty piece. -/
def ends (ps : List (List UInt8)) : List (List UInt8) := if ps = [] then [[]] else ps

theorem ends_of_ne_nil (h : ps ≠ []) : ends ps = ps := if_neg h

theorem ends_ne_nil : ends ps ≠ [] := by
  unfold ends
  split
  · exact List.cons_ne_nil _ _
  · assumption

theorem colons_ends : colons (ends ps) = colons ps := by
  by_cases h : ps = []
  · rw [h]
    rfl
  · rw [ends_of_ne_nil h]

theorem no_colon_ends (hps : ∀ p ∈ ps, IsPiece p) : ∀ p ∈ ends ps, 58 ∉ p := by
  unfold ends
  split
  · simp
  · exact fun p hp => (hps p hp).no_colon

theorem nil_notMem (hps : ∀ p ∈ ps, IsPiece p) : [] ∉ ps := fun h => (hps [] h).not_nil rfl

theorem ends_injective (hps : ∀ p ∈ ps, IsPiece p) (hqs : ∀ p ∈ qs, IsPiece p)
    (h : ends ps = ends qs) : ps = qs := by
  unfold ends at h
  split at h <;> split at h
  · simp_all
  · exact absurd (h ▸ List.mem_singleton_self []) (nil_notMem hqs)
  · exact absurd (h ▸ List.mem_singleton_self []) (nil_notMem hps)
  · exact h

/-- With `::` there is an empty piece among the others. -/
theorem elided_eq_colons :
    colons ps ++ 58 :: 58 :: colons qs = colons (ends ps ++ [] :: ends qs) := by
  rw [colons_append ends_ne_nil (List.cons_ne_nil _ _), colons_cons ends_ne_nil, colons_ends,
    colons_ends]
  rfl

theorem no_colon_elided (hps : ∀ p ∈ ps, IsPiece p) (hqs : ∀ p ∈ qs, IsPiece p) :
    ∀ p ∈ ends ps ++ [] :: ends qs, 58 ∉ p := by
  intro p hp
  rcases List.mem_append.1 hp with hp | hp
  · exact no_colon_ends hps p hp
  · rcases List.mem_cons.1 hp with rfl | hp
    · exact List.not_mem_nil
    · exact no_colon_ends hqs p hp

theorem elided_unique (hps : ∀ p ∈ ps, IsPiece p) (hqs : ∀ p ∈ qs, IsPiece p)
    (hps' : ∀ p ∈ ps', IsPiece p) (hqs' : ∀ p ∈ qs', IsPiece p)
    (h : colons ps ++ 58 :: 58 :: colons qs = colons ps' ++ 58 :: 58 :: colons qs') :
    ps = ps' ∧ qs = qs' := by
  rw [elided_eq_colons, elided_eq_colons] at h
  have heq := colons_injective (no_colon_elided hps hqs) (no_colon_elided hps' hqs')
    (List.append_ne_nil_of_left_ne_nil ends_ne_nil _)
    (List.append_ne_nil_of_left_ne_nil ends_ne_nil _) h
  by_cases hp : ps = []
  · by_cases hp' : ps' = []
    · subst hp hp'
      exact ⟨rfl, ends_injective hqs hqs' (List.cons.inj (List.append_cancel_left heq)).2⟩
    · -- The one address begins with an empty piece, the other does not.
      rw [hp, ends_of_ne_nil hp'] at heq
      obtain ⟨p, rest, rfl⟩ := List.exists_cons_of_ne_nil hp'
      exact absurd (List.cons.inj heq).1.symm (hps' p List.mem_cons_self).not_nil
  · by_cases hp' : ps' = []
    · rw [hp', ends_of_ne_nil hp] at heq
      obtain ⟨p, rest, rfl⟩ := List.exists_cons_of_ne_nil hp
      exact absurd (List.cons.inj heq).1 (hps p List.mem_cons_self).not_nil
    · rw [ends_of_ne_nil hp, ends_of_ne_nil hp'] at heq
      obtain ⟨rfl, hends⟩ := append_cons_unique (nil_notMem hps) (nil_notMem hps') heq
      exact ⟨rfl, ends_injective hqs hqs' hends⟩

theorem full_ne_elided (hps : ∀ p ∈ ps, IsPiece p) (hp : ps ≠ []) (hqs : ∀ p ∈ qs, IsPiece p)
    (hqs' : ∀ p ∈ qs', IsPiece p) : colons ps ≠ colons qs ++ 58 :: 58 :: colons qs' := by
  rw [elided_eq_colons]
  intro h
  have heq := colons_injective (fun p hp => (hps p hp).no_colon) (no_colon_elided hqs hqs') hp
    (List.append_ne_nil_of_left_ne_nil ends_ne_nil _) h
  exact nil_notMem hps (heq ▸ List.mem_append_right _ List.mem_cons_self)

/-!
## The pieces of an address
-/

theorem isPiece_of_mem {m : Rule} (hnull : m.nullable = false) (hcolon : m.rejects 58 = true)
    {p : List UInt8} (hp : p ∈ m.language) : IsPiece p := by
  refine ⟨?_, notMem_of_rejects hcolon hp⟩
  rintro rfl
  rw [nil_mem_language, hnull] at hp
  cases hp

theorem IsGroup.isPiece {g : List UInt8} (h : IsGroup g) : IsPiece g :=
  isPiece_of_mem (by decide) (by decide) h

theorem IsGroup.no_dot {g : List UInt8} (h : IsGroup g) : 46 ∉ g :=
  notMem_of_rejects (by decide : h16.rejects 46 = true) h

theorem mem_upTo {f : UInt8 → Bool} : w ∈ (Machine.upTo n (.chr f) : Rule).language ↔
    w.length ≤ n ∧ ∀ c ∈ w, f c = true := by
  induction n generalizing w with
  | zero =>
    rw [Machine.upTo, mem_eps, Nat.le_zero, List.length_eq_zero_iff]
    exact ⟨fun h => ⟨h, h ▸ nofun⟩, fun h => h.1⟩
  | succ n ih =>
    rw [Machine.upTo, mem_opt, mem_seq]
    constructor
    · rintro (⟨_, ⟨c, hc, rfl⟩, b, hb, rfl⟩ | rfl)
      · obtain ⟨hlen, hall⟩ := ih.1 hb
        exact ⟨Nat.succ_le_succ hlen, List.forall_mem_cons.2 ⟨hc, hall⟩⟩
      · exact ⟨Nat.zero_le _, nofun⟩
    · rintro ⟨hlen, hall⟩
      cases w with
      | nil => exact .inr rfl
      | cons c w =>
        rw [List.forall_mem_cons] at hall
        exact .inl ⟨[c], ⟨c, hall.1, rfl⟩, w, ih.2 ⟨Nat.le_of_succ_le_succ hlen, hall.2⟩, rfl⟩

theorem group_mem (g : Group) : IsGroup g.text := by
  obtain ⟨c, t, htext⟩ := List.exists_cons_of_ne_nil g.not_nil
  have hhex := g.hex
  have hshort := g.short
  rw [htext] at hhex hshort ⊢
  rw [List.forall_mem_cons] at hhex
  exact mem_seq.2 ⟨[c], ⟨c, hhex.1, rfl⟩, t, mem_upTo.2 ⟨Nat.le_of_succ_le_succ hshort, hhex.2⟩,
    rfl⟩

/-- All octets but those from 200 to 249. -/
theorem octet_mem (n : UInt8) : octet n ∈ decOctet.language ↔ ¬(200 ≤ n ∧ n ≤ 249) := by
  have hplain : decOctet.plain = true := by decide
  have hne : octet n ≠ [] := decimal_ne_nil n.toNat
  rw [← final_reached hplain hne]
  revert n
  decide +kernel

theorem octet_no_dot (n : UInt8) : 46 ∉ octet n :=
  fun h => absurd (isDigit_of_mem_decimal h) (by decide)

def dots (octets : List (List UInt8)) : List UInt8 := [46].intercalate octets

theorem dotted_text (d : Dotted) :
    d.text = dots [octet d.first, octet d.second, octet d.third, octet d.fourth] := by
  simp [dots, Dotted.text]

theorem mem_ipv4address : w ∈ ipv4address.language ↔ ∃ a ∈ decOctet.language,
    ∃ b ∈ decOctet.language, ∃ c ∈ decOctet.language, ∃ d ∈ decOctet.language,
      w = dots [a, b, c, d] := by
  constructor
  · intro h
    obtain ⟨_, h6, d, hd, rfl⟩ := mem_seq.1 h
    obtain ⟨_, h5, s3, hs3, rfl⟩ := mem_seq.1 h6
    obtain ⟨_, h4, c, hc, rfl⟩ := mem_seq.1 h5
    obtain ⟨_, h3, s2, hs2, rfl⟩ := mem_seq.1 h4
    obtain ⟨_, h2, b, hb, rfl⟩ := mem_seq.1 h3
    obtain ⟨a, ha, s1, hs1, rfl⟩ := mem_seq.1 h2
    rw [(mem_lit ".").1 hs1, (mem_lit ".").1 hs2, (mem_lit ".").1 hs3]
    refine ⟨a, ha, b, hb, c, hc, d, hd, ?_⟩
    simp [dots]
    rfl
  · rintro ⟨a, ha, b, hb, c, hc, d, hd, rfl⟩
    have hdot : [46] ∈ (lit ".").language := (mem_lit ".").2 rfl
    have hab := append_mem_seq (append_mem_seq ha hdot) hb
    have habc := append_mem_seq (append_mem_seq hab hdot) hc
    have habcd := append_mem_seq (append_mem_seq habc hdot) hd
    simpa [dots, ipv4address, cat] using habcd

theorem dotted_mem (d : Dotted) : d.text ∈ ipv4address.language ↔ ¬d.lost := by
  have hlost : ¬d.lost ↔ octet d.first ∈ decOctet.language ∧ octet d.second ∈ decOctet.language ∧
      octet d.third ∈ decOctet.language ∧ octet d.fourth ∈ decOctet.language := by
    simp only [octet_mem, Dotted.lost, List.mem_cons, List.not_mem_nil, or_false]
    simp
  rw [hlost, mem_ipv4address, dotted_text]
  constructor
  · rintro ⟨a, ha, b, hb, c, hc, e, he, heq⟩
    have hdot {t : List UInt8} (h : t ∈ decOctet.language) : 46 ∉ t :=
      notMem_of_rejects (by decide) h
    have hsplit := congrArg (List.splitOn 46) heq
    rw [dots, dots, List.splitOn_intercalate 46 (by simp [octet_no_dot]) (List.cons_ne_nil _ _),
      List.splitOn_intercalate 46 (by simp [hdot ha, hdot hb, hdot hc, hdot he])
        (List.cons_ne_nil _ _)] at hsplit
    simp only [List.cons.injEq, and_true] at hsplit
    obtain ⟨rfl, rfl, rfl, rfl⟩ := hsplit
    exact ⟨ha, hb, hc, he⟩
  · exact fun ⟨h1, h2, h3, h4⟩ => ⟨_, h1, _, h2, _, h3, _, h4, rfl⟩

theorem dotted_isPiece (d : Dotted) : IsPiece d.text := by
  have hcolon (n : UInt8) : 58 ∉ octet n :=
    fun h => absurd (isDigit_of_mem_decimal h) (by decide)
  refine ⟨by simp [Dotted.text], ?_⟩
  simp [Dotted.text, hcolon]

/-- Only an IPv4 address has dots. -/
theorem dot_of_mem_ipv4address {p : List UInt8} (h : p ∈ ipv4address.language) : 46 ∈ p := by
  obtain ⟨a, -, b, -, c, -, d, -, rfl⟩ := mem_ipv4address.1 h
  simp [dots]

theorem Tail.isPiece {gs : List (List UInt8)} {ip : Option (List UInt8)} (h : Tail n gs ip) :
    ∀ p ∈ gs ++ ip.toList, IsPiece p := by
  intro p hp
  rcases List.mem_append.1 hp with hp | hp
  · exact (h.groups p hp).isPiece
  · exact isPiece_of_mem (by decide) (by decide) (h.address p (Option.mem_toList.1 hp))

/-- Groups are told from an IPv4 address behind them by its dots. -/
theorem append_address_unique {gs gs' : List (List UInt8)} {ip ip' : Option (List UInt8)}
    (hgs : ∀ g ∈ gs, 46 ∉ g) (hgs' : ∀ g ∈ gs', 46 ∉ g) (hip : ∀ p ∈ ip, 46 ∈ p)
    (hip' : ∀ p ∈ ip', 46 ∈ p) (h : gs ++ ip.toList = gs' ++ ip'.toList) : gs = gs' ∧ ip = ip' := by
  cases ip with
  | none =>
    cases ip' with
    | none => exact ⟨by simpa using h, rfl⟩
    | some p =>
      rw [Option.toList_none, List.append_nil] at h
      exact absurd (hip' p rfl) (hgs p (h ▸ List.mem_append_right _ (List.mem_singleton_self p)))
  | some p =>
    cases ip' with
    | none =>
      rw [Option.toList_none, List.append_nil] at h
      exact absurd (hip p rfl) (hgs' p (h ▸ List.mem_append_right _ (List.mem_singleton_self p)))
    | some p' =>
      obtain ⟨rfl, hp⟩ := List.append_inj' h rfl
      exact ⟨rfl, congrArg some (List.cons.inj hp).1⟩

section Address

variable (a : Ipv6)

def groups : List (List UInt8) := a.after.map (·.text)
def address : Option (List UInt8) := a.dotted.map (·.text)

theorem groups_isGroup : ∀ g ∈ groups a, IsGroup g := by
  intro g hg
  obtain ⟨x, -, rfl⟩ := List.mem_map.1 hg
  exact group_mem x

theorem address_dot : ∀ p ∈ address a, 46 ∈ p := by
  intro p hp
  obtain ⟨d, -, rfl⟩ := Option.mem_map.1 hp
  simp [Dotted.text]

theorem tail_isPiece : ∀ p ∈ groups a ++ (address a).toList, IsPiece p := by
  intro p hp
  rcases List.mem_append.1 hp with hp | hp
  · exact (groups_isGroup a p hp).isPiece
  · obtain ⟨d, -, rfl⟩ := Option.mem_map.1 (Option.mem_toList.1 hp)
    exact dotted_isPiece d

theorem tail_worth : (groups a).length + 2 * (address a).toList.length = a.weight := by
  rw [groups, address, List.length_map, Ipv6.weight]
  cases a.dotted <;> rfl

/-- What the machine takes the pieces behind the `::` for is what they are. -/
theorem tail_of_eq {gs : List (List UInt8)} {ip : Option (List UInt8)} (h : Tail n gs ip)
    (heq : groups a ++ (address a).toList = gs ++ ip.toList) :
    a.weight = n ∧ ∀ d ∈ a.dotted, ¬d.lost := by
  obtain ⟨rfl, rfl⟩ := append_address_unique (fun g hg => (groups_isGroup a g hg).no_dot)
    (fun g hg => (h.groups g hg).no_dot) (address_dot a)
    (fun p hp => dot_of_mem_ipv4address (h.address p hp)) heq
  refine ⟨(tail_worth a).symm.trans h.worth, fun d hd => (dotted_mem d).1 ?_⟩
  exact h.address d.text (Option.mem_map.2 ⟨d, hd, rfl⟩)

theorem tail_of_not_lost (h : ∀ d ∈ a.dotted, ¬d.lost) : Tail a.weight (groups a) (address a) := by
  refine ⟨groups_isGroup a, fun p hp => ?_, tail_worth a⟩
  obtain ⟨d, hd, rfl⟩ := Option.mem_map.1 hp
  exact (dotted_mem d).2 (h d hd)

end Address

/-- The addresses that `uri.rl` accepts. -/
theorem ipv6_mem (a : Ipv6) : a.text ∈ ipv6address.language ↔ a.Plain := by
  have htail : a.tail = colons (groups a ++ (address a).toList) := rfl
  have hfits := a.fits
  rw [mem_ipv6address, Ipv6.text, Ipv6.Plain]
  cases hbefore : a.before with
  | none =>
    rw [hbefore] at hfits
    have hweight : a.weight = 8 := hfits
    have hne : groups a ++ (address a).toList ≠ [] :=
      pieces_ne_nil ((tail_worth a).trans hweight) (by decide)
    dsimp only
    rw [htail]
    constructor
    · rintro (⟨gs, ip, h, heq⟩ | ⟨k, n, -, before, gs, ip, hk, h, heq⟩)
      · have hnil := pieces_ne_nil h.worth (by decide)
        have hpieces := colons_injective (fun p hp => (tail_isPiece a p hp).no_colon)
          (fun p hp => (h.isPiece p hp).no_colon) hne hnil heq
        exact ⟨nofun, (tail_of_eq a h hpieces).2⟩
      · exact absurd heq (full_ne_elided (tail_isPiece a) hne
          (fun p hp => (hk.groups p hp).isPiece) h.isPiece)
    · rintro ⟨-, hlost⟩
      exact .inl ⟨_, _, hweight ▸ tail_of_not_lost a hlost, rfl⟩
  | some before =>
    rw [hbefore] at hfits
    have hfits : before.length + a.weight ≤ 7 := hfits
    have hgroups : ∀ g ∈ before.map (·.text), IsGroup g := by
      intro g hg
      obtain ⟨x, -, rfl⟩ := List.mem_map.1 hg
      exact group_mem x
    dsimp only
    rw [htail]
    constructor
    · rintro (⟨gs, ip, h, heq⟩ | ⟨k, n, hsum, before', gs, ip, hk, h, heq⟩)
      · have hnil := pieces_ne_nil h.worth (by decide)
        exact absurd heq.symm (full_ne_elided h.isPiece hnil
          (fun p hp => (hgroups p hp).isPiece) (tail_isPiece a))
      · obtain ⟨rfl, hpieces⟩ := elided_unique (fun p hp => (hgroups p hp).isPiece)
          (tail_isPiece a) (fun p hp => (hk.groups p hp).isPiece) h.isPiece heq
        obtain ⟨rfl, hlost⟩ := tail_of_eq a h hpieces
        refine ⟨fun gs hgs => ?_, hlost⟩
        obtain rfl : before = gs := Option.some.inj hgs
        rcases hk.exact with hnil | hlen
        · exact .inl (List.map_eq_nil_iff.1 hnil)
        · rw [List.length_map] at hlen
          exact .inr (hlen ▸ hsum)
    · rintro ⟨hplain, hlost⟩
      have hmap : before.map (·.text) = [] ∨
          (before.map (·.text)).length = 7 - a.weight := by
        rcases hplain before rfl with rfl | hlen
        · exact .inl rfl
        · rw [List.length_map]
          omega
      refine .inr ⟨7 - a.weight, a.weight, by omega, _, _, _, ⟨hgroups, hmap⟩, ?_, rfl⟩
      exact tail_of_not_lost a hlost

/-!
## Hosts
-/

theorem ipLiteral_eq : ipLiteral =
    .seq .plain (.seq .plain (lit "[") (.alt ipv6address ipvFuture)) (.chr (· == 93)) := rfl

theorem host_eq : host = .alt ipLiteral (.alt ipv4address regName) := rfl

theorem mem_ipLiteral {t : List UInt8} : t ∈ ipLiteral.language ↔
    ∃ w, (w ∈ ipv6address.language ∨ w ∈ ipvFuture.language) ∧ t = 91 :: (w ++ [93]) := by
  rw [ipLiteral_eq]
  constructor
  · intro h
    obtain ⟨_, hleft, _, ⟨c, hc, rfl⟩, rfl⟩ := mem_seq.1 h
    obtain ⟨s, hs, w, hw, rfl⟩ := mem_seq.1 hleft
    rw [(mem_lit "[").1 hs, eq_of_beq hc]
    exact ⟨w, hw, rfl⟩
  · rintro ⟨w, hw, rfl⟩
    have hopen : [91] ∈ (lit "[").language := (mem_lit "[").2 rfl
    have hclose : [93] ∈ (Machine.chr (· == 93) : Rule).language := ⟨93, rfl, rfl⟩
    exact append_mem_seq (append_mem_seq hopen (mem_alt.2 hw)) hclose

/-- Only brackets hold what begins with one. -/
theorem bracket_mem_host {t : List UInt8} :
    91 :: t ∈ host.language ↔ 91 :: t ∈ ipLiteral.language := by
  have hrest : (Machine.alt ipv4address regName).rejects 91 = true := by decide
  rw [host_eq, mem_alt]
  refine or_iff_left fun h => ?_
  exact notMem_of_rejects hrest h List.mem_cons_self

theorem mem_colons {d : UInt8} (h : d ∈ colons ps) : d = 58 ∨ ∃ p ∈ ps, d ∈ p := by
  induction ps with
  | nil => cases h
  | cons p ps ih =>
    by_cases hnil : ps = []
    · rw [hnil, colons, List.intercalate_singleton] at h
      exact .inr ⟨p, List.mem_cons_self, h⟩
    · rw [colons_cons hnil, List.mem_append, List.mem_cons] at h
      rcases h with h | h | h
      · exact .inr ⟨p, List.mem_cons_self, h⟩
      · exact .inl h
      · exact (ih h).imp_right fun ⟨q, hq, hd⟩ => ⟨q, List.mem_cons_of_mem p hq, hd⟩

/-- Characters of IPv6 addresses. -/
def addressChar (c : UInt8) : Bool := Http11Grammar.xdigit c || c == 58 || c == 46

theorem group_char (g : Group) {d : UInt8} (h : d ∈ g.text) : addressChar d = true := by
  rw [addressChar, g.hex d h]
  rfl

theorem octet_char {n d : UInt8} (h : d ∈ octet n) : addressChar d = true := by
  have hdigit : Http11Grammar.digit d = true := isDigit_of_mem_decimal h
  rw [addressChar, Http11Grammar.xdigit, hdigit]
  rfl

theorem dotted_char (a : Dotted) {d : UInt8} (h : d ∈ a.text) : addressChar d = true := by
  have hdot : addressChar 46 = true := by decide
  simp only [Dotted.text, List.mem_append, List.mem_cons] at h
  rcases h with h | rfl | h | rfl | h | rfl | h
  · exact octet_char h
  · exact hdot
  · exact octet_char h
  · exact hdot
  · exact octet_char h
  · exact hdot
  · exact octet_char h

theorem tail_char (a : Ipv6) {d : UInt8} (h : d ∈ a.tail) : addressChar d = true := by
  rcases mem_colons h with rfl | ⟨p, hp, hd⟩
  · decide
  · rcases List.mem_append.1 hp with hp | hp
    · obtain ⟨g, -, rfl⟩ := List.mem_map.1 hp
      exact group_char g hd
    · obtain ⟨x, -, rfl⟩ := Option.mem_map.1 (Option.mem_toList.1 hp)
      exact dotted_char x hd

theorem ipv6_char (a : Ipv6) {d : UInt8} (h : d ∈ a.text) : addressChar d = true := by
  have hcolon : addressChar 58 = true := by decide
  rw [Ipv6.text] at h
  split at h
  · exact tail_char a h
  · rw [List.mem_append, List.mem_cons, List.mem_cons] at h
    rcases h with h | rfl | rfl | h
    · rcases mem_colons h with rfl | ⟨p, hp, hd⟩
      · exact hcolon
      · obtain ⟨g, -, rfl⟩ := List.mem_map.1 hp
        exact group_char g hd
    · exact hcolon
    · exact hcolon
    · exact tail_char a h

theorem ipv6_notMem_ipvFuture (a : Ipv6) : a.text ∉ ipvFuture.language := by
  intro h
  obtain ⟨_, hdots, _, -, htext⟩ := mem_seq.1 h
  obtain ⟨_, hdigits, _, -, rfl⟩ := mem_seq.1 hdots
  obtain ⟨s, hs, _, -, rfl⟩ := mem_seq.1 hdigits
  rw [(mem_lit "v").1 hs] at htext
  have hv : 118 ∈ a.text := htext ▸ List.mem_cons_self
  exact absurd (ipv6_char a hv) (by decide)

/-- The hosts that `uri.rl` accepts. -/
theorem host_mem (h : Host) : h.text ∈ host.language ↔ h.Plain := by
  cases h with
  | regName name hne =>
    have hmem := regName_mem name.encoded
    exact ⟨fun _ => trivial, fun _ => mem_alt.2 (.inr (mem_alt.2 (.inr hmem)))⟩
  | ipv6 a =>
    rw [Host.text, bracket_mem_host, mem_ipLiteral, Host.Plain, ← ipv6_mem]
    constructor
    · rintro ⟨w, hw, heq⟩
      obtain rfl : a.text = w := List.append_cancel_right (List.cons.inj heq).2
      exact hw.resolve_right (ipv6_notMem_ipvFuture a)
    · exact fun h => ⟨a.text, .inl h, rfl⟩

end UriAddresses
