import SylarNet.HttpConnectionPool

/-!
# What the pool owns, and for how long

The pool has each connection it made in one place, and hands out and takes back those of a
certain age, as long as the age test of `getConnection` does not hold; when it does, it is about
`m_createdTime`, which nothing sets.
-/
namespace PoolConnections

open HttpConnectionPool StepRuns

theorem forall_mem_concat {α : Type} {p : α → Prop} {xs : List α} {x : α} :
    (∀ y ∈ xs ++ [x], p y) ↔ (∀ y ∈ xs, p y) ∧ p x := by
  rw [List.forall_mem_append, List.forall_mem_singleton]

section CreatedTime

variable {l : Limits} {s t : PoolState}

def Unset (s : PoolState) : Prop := ∀ conn, (s.object conn).createdTime = 0

theorem expired_iff {now : UInt64} {k : Connection} (h : k.createdTime = 0) :
    expired l now k = true ↔ now.toNat < l.maxAliveTime.toNat := by
  simp [expired, h, UInt64.lt_iff_toNat_lt]

theorem spent_iff {now : UInt64} {k : Connection} {isConnected : Bool} (h : k.createdTime = 0) :
    spent l k now isConnected = false ↔ isConnected = true ∧
      l.maxAliveTime.toNat < now.toNat ∧ k.request.toNat < l.maxRequest.toNat := by
  simp [spent, h, UInt64.le_iff_toNat_le, and_assoc]

theorem unset_update {object : ℕ → Connection} {conn : ℕ} {k : Connection}
    (h : ∀ c, (object c).createdTime = 0) (hk : k.createdTime = 0) (c : ℕ) :
    (Function.update object conn k c).createdTime = 0 := by
  by_cases hc : c = conn
  · subst hc
    rw [Function.update_self]
    exact hk
  · rw [Function.update_of_ne hc]
    exact h c

theorem unset_step {e : Op} {o : Option ℕ} (h : Unset s) (he : step l s e = some (o, t)) :
    Unset t := by
  cases e with
  | getConnection now createdAt isConnected connects =>
    rw [step_getConnection_iff] at he
    rcases getConnection_cases he with
      ⟨-, -, -, rfl⟩ | ⟨-, -, rfl⟩ | ⟨_, _, _, _, -, -, -, -, rfl⟩
    · exact unset_update h rfl
    · exact h
    · exact h
  | release ptr now isConnected =>
    rw [step_release_iff] at he
    rcases (releasePtr_cases he.2).2 with ⟨-, rfl⟩ | ⟨-, rfl⟩
    · exact unset_update h (h ptr)
    · exact unset_update h (h ptr)

end CreatedTime

/-!
## Places
-/

/-- Nothing that is returned is deleted, and nothing leaves the list otherwise. -/
def Proper : Event → Prop
  | .got _ returned removed deleted =>
    (∀ conn, returned = some conn → conn ∉ deleted) ∧
      ∀ conn ∈ removed, returned = some conn ∨ conn ∈ deleted
  | .released _ _ _ _ _ => True

structure Owned (s : PoolState) : Prop where
  /-- Each connection that was made is idle, leased or destroyed, and is so once. -/
  places : (s.conns ++ s.leased ++ s.destroyed).Perm (List.range s.created)
  counted : s.total.toInt = (s.conns.length + s.leased.length : ℕ)
  proper : ∀ e ∈ s.log, Proper e

/-- The first connected one of the list passes the age test, which compares `m_maxAliveTime`
alone with the clock, and there is a number for one more connection. -/
def Sparing (l : Limits) (s : PoolState) : Op → Prop
  | .getConnection now _ isConnected connects =>
    match s.conns.find? isConnected with
    | some _ => l.maxAliveTime.toNat ≤ now.toNat
    | none => connects = true → s.leased.length + 1 < 2 ^ 31
  | .release _ _ _ => True

instance (l : Limits) (s : PoolState) : ∀ e, Decidable (Sparing l s e)
  | .getConnection now _ isConnected connects =>
    match h : s.conns.find? isConnected with
    | some _ => decidable_of_iff (l.maxAliveTime.toNat ≤ now.toNat) (by simp [Sparing, h])
    | none =>
      decidable_of_iff (connects = true → s.leased.length + 1 < 2 ^ 31) (by simp [Sparing, h])
  | .release _ _ _ => .isTrue trivial

section Counts

variable {total : Int32} {n k : ℕ}

theorem toInt_sub_ofNat (h : total.toInt = n) (hk : k ≤ n) :
    (total - Int32.ofNat k).toInt = (n - k : ℕ) := by
  have hlt := total.toInt_lt
  rw [Int32.toInt_sub, Int32.toInt_ofNat_of_lt (by omega), h]
  rw [Int.bmod_eq_of_le (by omega) (by omega)]
  omega

theorem toInt_add_one_iff (h : total.toInt = n) :
    (total + 1).toInt = (n + 1 : ℕ) ↔ n + 1 < 2 ^ 31 := by
  have hlt := total.toInt_lt
  constructor
  · intro heq
    have := (total + 1).toInt_lt
    omega
  · intro hn
    rw [Int32.toInt_add, h, show (1 : Int32).toInt = 1 from rfl,
      Int.bmod_eq_of_le (by omega) (by omega)]
    omega

end Counts

section Ownership

variable {l : Limits} {s t : PoolState} {now createdAt : UInt64} {removed deleted rest : List ℕ}

theorem owned_initial : Owned initial := ⟨.refl _, rfl, nofun⟩

theorem Owned.purge (h : Owned s) : Owned s.purge := by
  constructor
  · refine List.Perm.trans ?_ h.places
    rw [List.perm_iff_count]
    intro conn
    simp only [PoolState.purge, List.count_append, List.count_nil]
    omega
  · rw [PoolState.purge, toInt_sub_ofNat h.counted (by omega)]
    simp
  · exact h.proper

theorem Owned.make_iff (h : Owned s)
    (hp : Proper (.got createdAt (some s.created) removed deleted)) :
    Owned (s.make createdAt removed deleted) ↔ s.conns.length + s.leased.length + 1 < 2 ^ 31 := by
  have hcount := toInt_add_one_iff h.counted
  constructor
  · intro ht
    apply hcount.1
    simpa [PoolState.make, Nat.add_assoc] using ht.counted
  · intro hlt
    constructor
    · rw [List.perm_iff_count]
      intro conn
      have := h.places.count_eq conn
      simp only [PoolState.make, List.count_append, List.range_succ] at this ⊢
      omega
    · simpa [PoolState.make, Nat.add_assoc] using hcount.2 hlt
    · exact forall_mem_concat.2 ⟨h.proper, hp⟩

theorem Owned.handOut {conn : ℕ} {pre : List ℕ} (h : Owned s) (hs : s.conns = pre ++ conn :: rest) :
    Owned (s.handOut now conn (pre ++ [conn]) pre rest) := by
  have hnd := h.places.nodup_iff.2 List.nodup_range
  constructor
  · refine List.Perm.trans ?_ h.places
    rw [List.perm_iff_count]
    intro c
    simp only [PoolState.handOut, hs, List.count_append, List.count_cons, List.count_nil]
    omega
  · rw [PoolState.handOut, toInt_sub_ofNat h.counted (by simp [hs]; omega)]
    simp only [hs, List.length_append, List.length_cons, List.length_nil]
    omega
  · refine forall_mem_concat.2 ⟨h.proper, ?_, ?_⟩
    · rintro c ⟨⟩ hc
      rw [hs] at hnd
      simp only [List.nodup_append, List.mem_append, List.mem_cons] at hnd
      exact hnd.1.1.2.2 conn hc conn (.inl rfl) rfl
    · intro c hc
      rw [List.mem_append, List.mem_singleton] at hc
      rcases hc with hc | rfl
      · exact .inr hc
      · exact .inl rfl

theorem Owned.notMem_destroyed {ptr : ℕ} (h : Owned s) (hp : ptr ∈ s.leased) :
    ptr ∉ s.destroyed := by
  intro hd
  have hnd := h.places.nodup_iff.2 List.nodup_range
  rw [List.nodup_append] at hnd
  exact hnd.2.2 ptr (List.mem_append_right _ hp) ptr hd rfl

/-- A connection that is no longer leased is somewhere else. -/
theorem Owned.freed {ptr : ℕ} {conns destroyed : List ℕ} (h : Owned s) (hp : ptr ∈ s.leased)
    (hcount : ∀ c, conns.count c + destroyed.count c =
      s.conns.count c + s.destroyed.count c + List.count c [ptr]) :
    (conns ++ s.leased.erase ptr ++ destroyed).Perm (List.range s.created) := by
  refine List.Perm.trans ?_ h.places
  rw [List.perm_iff_count]
  intro c
  have hc := (List.perm_cons_erase hp).count_eq c
  have hsum := hcount c
  simp only [List.count_append, List.count_cons, List.count_nil] at hc hsum ⊢
  omega

theorem Owned.discard {ptr : ℕ} {isConnected : Bool} (h : Owned s) (hp : ptr ∈ s.leased) :
    Owned (s.discard ptr now isConnected) := by
  have hlen := List.length_pos_of_mem hp
  constructor
  · apply h.freed hp
    intro c
    simp only [PoolState.discard, List.count_append]
    omega
  · have hsub := toInt_sub_ofNat h.counted (k := 1) (by omega)
    rw [PoolState.discard, List.length_erase_of_mem hp, ← Nat.add_sub_assoc hlen]
    exact hsub
  · exact forall_mem_concat.2 ⟨h.proper, trivial⟩

theorem Owned.putBack {ptr : ℕ} {isConnected : Bool} (h : Owned s) (hp : ptr ∈ s.leased) :
    Owned (s.putBack ptr now isConnected) := by
  have hlen := List.length_pos_of_mem hp
  constructor
  · apply h.freed hp
    intro c
    simp only [PoolState.putBack, List.count_append]
    omega
  · rw [PoolState.putBack, h.counted, List.length_erase_of_mem hp, List.length_append,
      List.length_singleton]
    omega
  · exact forall_mem_concat.2 ⟨h.proper, trivial⟩

theorem owned_getConnection_iff {isConnected : ℕ → Bool} {connects : Bool} (hu : Unset s)
    (h : Owned s) :
    (∃ o t, step l s (.getConnection now createdAt isConnected connects) = some (o, t) ∧ Owned t) ↔
      Sparing l s (.getConnection now createdAt isConnected connects) := by
  simp only [step_getConnection_iff, Sparing]
  cases hf : s.conns.find? isConnected with
  | none =>
    rw [getConnection_of_none hf]
    have hp : ∀ reading returned, (∀ conn, returned = some conn → conn ∉ s.conns) →
        Proper (.got reading returned s.conns s.conns) :=
      fun _ _ hr => ⟨hr, fun _ => .inr⟩
    cases connects with
    | false =>
      simp only [Bool.false_eq_true, if_false, false_implies, iff_true]
      refine ⟨_, _, rfl, h.purge.places, h.purge.counted, ?_⟩
      exact forall_mem_concat.2 ⟨h.proper, hp now none nofun⟩
    | true =>
      have hfresh : Proper (.got createdAt (some s.purge.created) s.conns s.conns) := by
        apply hp
        rintro conn ⟨⟩ hmem
        have := h.places.mem_iff.1 (List.mem_append_left _ (List.mem_append_left _ hmem))
        simp [PoolState.purge] at this
      have hmake := h.purge.make_iff hfresh
      simp only [if_true, Except.ok.injEq, Prod.mk.injEq, true_implies]
      rw [show s.leased.length + 1 = s.purge.conns.length + s.purge.leased.length + 1 by
        simp [PoolState.purge], ← hmake]
      constructor
      · rintro ⟨o, t, ⟨-, rfl⟩, ht⟩
        exact ht
      · intro ht
        exact ⟨_, _, ⟨rfl, rfl⟩, ht⟩
  | some conn =>
    obtain ⟨pre, rest, hconns, heq⟩ := getConnection_of_some hf
    simp only [heq]
    rw [← Nat.not_lt, ← expired_iff (hu conn)]
    by_cases he : expired l now (s.object conn) = true
    · rw [if_pos he]
      refine ⟨?_, fun hn => absurd he hn⟩
      rintro ⟨o, t, ht, howned⟩
      cases rest with
      | nil => cases ht
      | cons lost rest =>
        cases ht
        have hlast := (forall_mem_concat.1 howned.proper).2
        exact absurd (by simp) (hlast.1 conn rfl)
    · rw [if_neg he]
      exact ⟨fun _ => he, fun _ => ⟨_, _, rfl, h.handOut hconns⟩⟩

theorem owned_release {ptr : ℕ} {isConnected : Bool} (h : Owned s) (hp : ptr ∈ s.leased) :
    ∃ o t, step l s (.release ptr now isConnected) = some (o, t) ∧ Owned t := by
  simp only [step_release_iff]
  rw [releasePtr_eq (h.notMem_destroyed hp)]
  split
  · exact ⟨none, _, ⟨rfl, rfl⟩, h.discard hp⟩
  · exact ⟨none, _, ⟨rfl, rfl⟩, h.putBack hp⟩

/-- No call gets stuck and the pool knows where all its connections are exactly as long as the
age test spares the connections that `getConnection` finds. -/
theorem pool_owned_iff_sparing (l : Limits) (ops : List Op)
    (hops : Guarded Allowed (step l) initial ops) :
    (∀ n, ∃ os u, run (step l) initial (ops.take n) = some (os, u) ∧ Owned u) ↔
      Guarded (Sparing l) (step l) initial ops := by
  apply forall_run_total_iff_guarded (I := Unset) ?_ ?_ (fun _ => rfl) owned_initial hops
  · intro s e o t hs _ he
    exact unset_step hs he
  · intro s e hu hs hok
    cases e with
    | getConnection now createdAt isConnected connects => exact owned_getConnection_iff hu hs
    | release ptr now isConnected => exact ⟨fun _ => trivial, fun _ => owned_release hs hok⟩

end Ownership

/-- Two connections are made and released, then a third call finds them; its clock reads `now`. -/
def reuse (now : UInt64) : List Op :=
  [.getConnection 20 20 (fun _ => true) true, .getConnection 20 20 (fun _ => true) true,
    .release 0 20 true, .release 1 20 true, .getConnection now now (fun _ => true) true]

theorem pool_owned_reuse : Guarded Allowed (step ⟨10, 5⟩) initial (reuse 30) ∧
    ∀ n, ∃ os u, run (step ⟨10, 5⟩) initial ((reuse 30).take n) = some (os, u) ∧ Owned u := by
  have hops : Guarded Allowed (step ⟨10, 5⟩) initial (reuse 30) := by decide
  exact ⟨hops, (pool_owned_iff_sparing _ _ hops).2 (by decide)⟩

/-- The connection is returned and deleted, and the other one is gone. -/
theorem pool_returns_deleted : Guarded Allowed (step ⟨10, 5⟩) initial (reuse 5) ∧
    ∃ os u, run (step ⟨10, 5⟩) initial (reuse 5) = some (os, u) ∧
      Event.got 5 (some 0) [0, 1] [0] ∈ u.log ∧ ¬ Owned u := by
  have hlog : Event.got 5 (some 0) [0, 1] [0] ∈
      ((run (step ⟨10, 5⟩) initial (reuse 5)).map fun r => r.2.log).getD [] := by decide
  refine ⟨by decide, _, _, rfl, hlog, ?_⟩
  intro h
  exact (h.proper _ hlog).1 0 rfl List.mem_cons_self

/-!
## Ages
-/

/-- Not older than `m_maxAliveTime`, by the clock that was read when it was made. -/
def Young (l : Limits) (born : ℕ → UInt64) (conn : ℕ) (reading : UInt64) : Prop :=
  reading.toNat ≤ (born conn).toNat + l.maxAliveTime.toNat

instance (l : Limits) (born : ℕ → UInt64) (conn : ℕ) (reading : UInt64) :
    Decidable (Young l born conn reading) :=
  inferInstanceAs (Decidable (_ ≤ _))

/-- Only the young are handed out and kept, and the young that are connected and have requests
left are kept. -/
def Timely (l : Limits) (born : ℕ → UInt64) : Event → Prop
  | .got reading returned _ _ => ∀ conn, returned = some conn → Young l born conn reading
  | .released conn reading connected request kept =>
    (kept = true → Young l born conn reading) ∧
      (connected = true → Young l born conn reading → request.toNat < l.maxRequest.toNat →
        kept = true)

/-- The clock as the two tests would need it: they leave the creation time out. -/
def Fresh (l : Limits) (s : PoolState) : Op → Prop
  | .getConnection now _ isConnected _ =>
    ∀ conn, s.conns.find? isConnected = some conn → Young l s.born conn now
  | .release ptr now isConnected =>
    ptr ∉ s.destroyed → isConnected = true →
      (s.counted ptr).request.toNat < l.maxRequest.toNat →
      l.maxAliveTime.toNat < now.toNat ∧ Young l s.born ptr now

def mentioned : Event → List ℕ
  | .got _ returned _ _ => returned.toList
  | .released conn _ _ _ _ => [conn]

structure Known (s : PoolState) : Prop where
  unset : Unset s
  conns : ∀ conn ∈ s.conns, conn < s.created
  leased : ∀ conn ∈ s.leased, conn < s.created
  log : ∀ e ∈ s.log, ∀ conn ∈ mentioned e, conn < s.created

section Ages

variable {l : Limits} {s t : PoolState} {now createdAt : UInt64}

theorem known_initial : Known initial := ⟨fun _ => rfl, nofun, nofun, nofun⟩

theorem Known.step {e : Op} {o : Option ℕ} (h : Known s) (hok : Allowed s e)
    (he : step l s e = some (o, t)) : Known t := by
  have hunset := unset_step h.unset he
  cases e with
  | getConnection now createdAt isConnected connects =>
    rw [step_getConnection_iff] at he
    rcases getConnection_cases he with
      ⟨-, -, -, rfl⟩ | ⟨-, -, rfl⟩ | ⟨conn, removed, _, rest, hf, -, hs, -, rfl⟩
    · refine ⟨hunset, nofun, forall_mem_concat.2 ⟨?_, ?_⟩, forall_mem_concat.2 ⟨?_, ?_⟩⟩
      · exact fun conn hc => Nat.lt_succ_of_lt (h.leased conn hc)
      · exact Nat.lt_succ_self _
      · exact fun e he conn hc => Nat.lt_succ_of_lt (h.log e he conn hc)
      · rintro conn (_ | ⟨_, ⟨⟩⟩)
        exact Nat.lt_succ_self _
    · exact ⟨hunset, nofun, h.leased, forall_mem_concat.2 ⟨h.log, nofun⟩⟩
    · have hconn : conn < s.created := h.conns conn (List.mem_of_find?_eq_some hf)
      refine ⟨hunset, ?_, forall_mem_concat.2 ⟨h.leased, hconn⟩,
        forall_mem_concat.2 ⟨h.log, ?_⟩⟩
      · intro c hc
        exact h.conns c (hs ▸ List.mem_append_right _ hc)
      · rintro c (_ | ⟨_, ⟨⟩⟩)
        exact hconn
  | release ptr now isConnected =>
    rw [step_release_iff] at he
    have hptr : ptr < s.created := h.leased ptr hok
    have herase : ∀ conn ∈ s.leased.erase ptr, conn < s.created :=
      fun conn hc => h.leased conn (List.mem_of_mem_erase hc)
    have hlog : ∀ kept,
        ∀ e ∈ s.log ++ [.released ptr now isConnected (s.counted ptr).request kept],
          ∀ conn ∈ mentioned e, conn < s.created := by
      intro kept
      refine forall_mem_concat.2 ⟨h.log, ?_⟩
      rintro conn (_ | ⟨_, ⟨⟩⟩)
      exact hptr
    rcases (releasePtr_cases he.2).2 with ⟨-, rfl⟩ | ⟨-, rfl⟩
    · exact ⟨hunset, h.conns, herase, hlog false⟩
    · exact ⟨hunset, forall_mem_concat.2 ⟨h.conns, hptr⟩, herase, hlog true⟩

theorem timely_update {e : Event} {conn : ℕ} (h : ∀ c ∈ mentioned e, c < conn) :
    Timely l (Function.update s.born conn createdAt) e ↔ Timely l s.born e := by
  have hborn : ∀ c < conn, Function.update s.born conn createdAt c = s.born c :=
    fun c hc => Function.update_of_ne (Nat.ne_of_lt hc) _ _
  cases e with
  | got reading returned removed deleted =>
    refine forall_congr' fun c => forall_congr' ?_
    rintro rfl
    rw [Young, Young, hborn c (h c (by simp [mentioned]))]
  | released c reading connected request kept =>
    simp only [Timely, Young, hborn c (h c List.mem_cons_self)]

theorem timely_getConnection_iff {isConnected : ℕ → Bool} {connects : Bool} (h : Known s)
    (hs : ∀ e ∈ s.log, Timely l s.born e) :
    (∀ o t, step l s (.getConnection now createdAt isConnected connects) = some (o, t) →
      ∀ e ∈ t.log, Timely l t.born e) ↔
      Fresh l s (.getConnection now createdAt isConnected connects) := by
  simp only [step_getConnection_iff, Fresh]
  cases hf : s.conns.find? isConnected with
  | none =>
    refine ⟨fun _ => nofun, ?_⟩
    intro _ o t ht
    rcases getConnection_cases ht with
      ⟨-, -, -, rfl⟩ | ⟨-, -, rfl⟩ | ⟨conn, _, _, _, hf', -⟩
    · refine forall_mem_concat.2 ⟨?_, ?_⟩
      · intro e he
        exact (timely_update (h.log e he)).2 (hs e he)
      · rintro _ ⟨⟩
        simp [Young, PoolState.make, PoolState.purge]
    · exact forall_mem_concat.2 ⟨hs, nofun⟩
    · cases hf.symm.trans hf'
  | some conn =>
    obtain ⟨pre, rest, hconns, heq⟩ := getConnection_of_some hf
    simp only [heq, Option.some.injEq, forall_eq']
    have hiff : ∀ removed deleted rest,
        (∀ e ∈ (s.handOut now conn removed deleted rest).log, Timely l s.born e) ↔
          Young l s.born conn now := by
      intro removed deleted rest
      refine forall_mem_concat.trans ⟨fun ht => ht.2 conn rfl, ?_⟩
      rintro hy
      refine ⟨hs, ?_⟩
      rintro _ ⟨⟩
      exact hy
    by_cases he : expired l now (s.object conn) = true
    · -- By the test's own words the clock is before any possible expiry.
      have hy : Young l s.born conn now := by
        have := (expired_iff (h.unset conn)).1 he
        exact Nat.le_trans (Nat.le_of_lt this) (Nat.le_add_left _ _)
      refine ⟨fun _ => hy, ?_⟩
      rw [if_pos he]
      intro _ o t ht
      cases rest with
      | nil => cases ht
      | cons lost rest =>
        cases ht
        exact (hiff _ _ _).2 hy
    · rw [if_neg he]
      constructor
      · intro hall
        exact (hiff _ _ _).1 (hall _ _ rfl)
      · rintro hy o t ⟨⟩
        exact (hiff _ _ _).2 hy

theorem timely_release_iff {ptr : ℕ} {isConnected : Bool} (h : Known s)
    (hs : ∀ e ∈ s.log, Timely l s.born e) :
    (∀ o t, step l s (.release ptr now isConnected) = some (o, t) →
      ∀ e ∈ t.log, Timely l t.born e) ↔ Fresh l s (.release ptr now isConnected) := by
  simp only [step_release_iff, Fresh]
  by_cases hd : ptr ∈ s.destroyed
  · refine ⟨fun _ hn => absurd hd hn, ?_⟩
    intro _ o t ht
    exact absurd hd (releasePtr_cases ht.2).1
  have hspent : spent l (s.counted ptr) now isConnected = false ↔ _ := spent_iff (h.unset ptr)
  have hlog : ∀ kept,
      (∀ e ∈ s.log ++ [.released ptr now isConnected (s.counted ptr).request kept],
        Timely l s.born e) ↔
        Timely l s.born (.released ptr now isConnected (s.counted ptr).request kept) :=
    fun _ => forall_mem_concat.trans (and_iff_right hs)
  rw [releasePtr_eq hd]
  cases hsp : spent l (s.counted ptr) now isConnected with
  | true =>
    have hold : isConnected = true → (s.counted ptr).request.toNat < l.maxRequest.toNat →
        now.toNat ≤ l.maxAliveTime.toNat := by
      intro hc hr
      by_contra hlt
      rw [hspent.2 ⟨hc, Nat.lt_of_not_le hlt, hr⟩] at hsp
      cases hsp
    constructor
    · intro hall _ hc hr
      have hy : Young l s.born ptr now := Nat.le_trans (hold hc hr) (Nat.le_add_left _ _)
      cases ((hlog false).1 (hall none _ ⟨rfl, rfl⟩)).2 hc hy hr
    · rintro hfresh o t ⟨-, ⟨⟩⟩
      refine (hlog false).2 ⟨nofun, ?_⟩
      intro hc _ hr
      exact absurd (hfresh hd hc hr).1 (Nat.not_lt.2 (hold hc hr))
  | false =>
    obtain ⟨hc, hlt, hr⟩ := hspent.1 hsp
    constructor
    · intro hall _ _ _
      exact ⟨hlt, ((hlog true).1 (hall none _ ⟨rfl, rfl⟩)).1 rfl⟩
    · rintro hfresh o t ⟨-, ⟨⟩⟩
      exact (hlog true).2 ⟨fun _ => (hfresh hd hc hr).2, fun _ _ _ => rfl⟩

/-- The pool keeps to the age of its connections exactly when the clock makes it: at each call of
`getConnection` the first connected one is young, and each release of one that could be kept
comes later than `m_maxAliveTime` and no later than that after its creation. -/
theorem pool_timely_iff_fresh (l : Limits) (ops : List Op)
    (hops : Guarded Allowed (step l) initial ops) :
    (∀ n os u, run (step l) initial (ops.take n) = some (os, u) →
      ∀ e ∈ u.log, Timely l u.born e) ↔ Guarded (Fresh l) (step l) initial ops := by
  apply forall_run_iff_guarded (I := Known) (P := fun s => ∀ e ∈ s.log, Timely l s.born e)
    ?_ ?_ known_initial nofun hops
  · intro s e o t hs hok he
    exact hs.step hok he
  · intro s e hs hP hok
    cases e with
    | getConnection now createdAt isConnected connects => exact timely_getConnection_iff hs hP
    | release ptr now isConnected => exact timely_release_iff hs hP

instance (l : Limits) (s : PoolState) : ∀ e, Decidable (Fresh l s e)
  | .getConnection now _ isConnected _ =>
    match h : s.conns.find? isConnected with
    | some conn => decidable_of_iff (Young l s.born conn now) (by simp [Fresh, h])
    | none => .isTrue (by simp [Fresh, h])
  | .release _ _ _ => inferInstanceAs (Decidable (_ → _ → _ → _))

theorem pool_timely_reuse : Guarded Allowed (step ⟨10, 5⟩) initial (reuse 30) ∧
    ∀ n os u, run (step ⟨10, 5⟩) initial ((reuse 30).take n) = some (os, u) →
      ∀ e ∈ u.log, Timely ⟨10, 5⟩ u.born e := by
  have hops : Guarded Allowed (step ⟨10, 5⟩) initial (reuse 30) := by decide
  exact ⟨hops, (pool_timely_iff_fresh _ _ hops).2 (by decide)⟩

/-- A connection made at 20 and good for 10 is handed out at 100. -/
theorem pool_hands_out_old : Guarded Allowed (step ⟨10, 5⟩) initial (reuse 100) ∧
    ∃ os u, run (step ⟨10, 5⟩) initial (reuse 100) = some (os, u) ∧
      Event.got 100 (some 0) [0] [] ∈ u.log ∧ u.born 0 = 20 ∧
      ¬ ∀ e ∈ u.log, Timely ⟨10, 5⟩ u.born e := by
  have hlog : Event.got 100 (some 0) [0] [] ∈
      ((run (step ⟨10, 5⟩) initial (reuse 100)).map fun r => r.2.log).getD [] := by decide
  refine ⟨by decide, _, _, rfl, hlog, rfl, ?_⟩
  intro h
  exact absurd (h _ hlog 0 rfl) (by decide)

end Ages

end PoolConnections
