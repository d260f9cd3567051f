import SylarNet.ByteArrayRefinement

/-!
# Calls on a byte array one after the other

The member functions that write or read a value are made of calls of `write` and `read`. What
such a call puts at the cursor, or takes from there, is said once for the flat array; a row of
calls writes and reads what its calls do, one behind the other.
-/
namespace ByteArrayMethods

open ListOverwrite SylarByteArray ByteArrayRefinement

/-- A member function, with its result. -/
def Method (α : Type) : Type := ByteArrayState → Outcome α

namespace Method

variable {α β : Type}

/-- An exception and a null pointer end the row of calls. -/
def bind (m : Method α) (k : α → Method β) : Method β := fun s =>
  match m s with
  | .ok a t => k a t
  | .outOfRange what t => .outOfRange what t
  | .nullDeref => .nullDeref

instance : Monad Method where
  pure a s := .ok a s
  bind := bind

theorem bind_ok {m : Method α} {s t : ByteArrayState} {a : α} (h : m s = .ok a t)
    (k : α → Method β) : (m >>= k) s = k a t := by
  change bind m k s = _
  rw [bind, h]

theorem bind_outOfRange {m : Method α} {s t : ByteArrayState} {what : String}
    (h : m s = .outOfRange what t) (k : α → Method β) : (m >>= k) s = .outOfRange what t := by
  change bind m k s = _
  rw [bind, h]

theorem bind_nullDeref {m : Method α} {s : ByteArrayState} (h : m s = .nullDeref)
    (k : α → Method β) : (m >>= k) s = .nullDeref := by
  change bind m k s = _
  rw [bind, h]

/-- A row that returns has gone through its first call. -/
theorem of_bind_ok {m : Method α} {k : α → Method β} {s t : ByteArrayState} {b : β}
    (h : (m >>= k) s = .ok b t) : ∃ a u, m s = .ok a u ∧ k a u = .ok b t := by
  cases hm : m s with
  | ok a u => exact ⟨a, u, rfl, by rw [bind_ok hm] at h; exact h⟩
  | outOfRange what u => rw [bind_outOfRange hm] at h; cases h
  | nullDeref => rw [bind_nullDeref hm] at h; cases h

@[simp] theorem pure_apply (a : α) (s : ByteArrayState) : (pure a : Method α) s = .ok a s := rfl

/-- The calls for the items of a list, which return nothing. -/
def forEach (m : α → Method Unit) : List α → Method Unit
  | [] => pure ()
  | a :: as => do
    m a
    forEach m as

/-- The calls for the items of a list, with all that they return. -/
def each (m : α → Method β) : List α → Method (List β)
  | [] => pure []
  | a :: as => do
    let b ← m a
    let bs ← each m as
    pure (b :: bs)

end Method

section Calls

variable (heap : Heap)

def write (buf : List UInt8) : Method Unit := fun s => s.write heap buf
def read (size : ℕ) : Method (List UInt8) := fun s => s.read size
def getPosition : Method ℕ := fun s => .ok s.getPosition s
def setPosition (v : ℕ) : Method Unit := fun s => s.setPosition v

/-- Something is written, then more bytes, and it is read back from where it begins. The result
comes with the position behind it. -/
def roundTrip {α : Type} (writing : Method Unit) (tail : List UInt8) (reading : Method α) :
    Method (α × ℕ) := do
  let start ← getPosition
  writing
  let stop ← getPosition
  write heap tail
  setPosition start
  let a ← reading
  pure (a, stop)

/-- The row is read as it was written, and its bytes are used up. -/
def ReadBack {α : Type} (writing : Method Unit) (tail : List UInt8) (reading : Method α)
    (s : ByteArrayState) (a : α) : Prop :=
  ∃ stop t, roundTrip heap writing tail reading s = .ok (a, stop) t ∧ t.position = stop

end Calls

section Reachable

/-- The calls of a program on one array, which may choose the byte order at any time. -/
inductive Use where
  | op (op : Op)
  | setIsLittleEndian (val : Bool)
  deriving DecidableEq, Repr

def use (heap : Heap) (s : ByteArrayState) : Use → Option (Observation × ByteArrayState)
  | .op op => step heap s op
  | .setIsLittleEndian val => some (.done, s.setIsLittleEndian val)

/-- The states of an array in use. -/
def Used (heap : Heap) (base : ℕ) (s : ByteArrayState) : Prop :=
  ∃ uses os, StepRuns.run (use heap) (.construct heap base) uses = some (os, s)

/-- No invariant looks at the byte order. -/
theorem invariant_endian {s : ByteArrayState} (h : Invariant s) (e : Endian) :
    Invariant { s with endian := e } :=
  ⟨h.base_pos, h.blocks, h.capacity_eq, h.nonempty, h.position_le, h.size_le, h.cur_eq⟩

theorem used_invariant {heap : Heap} {base : ℕ} {s : ByteArrayState} (hb : 1 ≤ base)
    (h : Used heap base s) : Invariant s ∧ s.baseSize = base := by
  obtain ⟨uses, os, h⟩ := h
  refine StepRuns.run_invariant (P := fun s => Invariant s ∧ s.baseSize = base) ?_
    ⟨construct_invariant heap hb, rfl⟩ (StepRuns.guarded_true _ uses) h
  intro s u o t hs _ hstep
  cases u with
  | op op =>
    obtain ⟨hinv, hbase⟩ := step_preserves_invariant hs.1 hstep
    exact ⟨hinv, hbase.trans hs.2⟩
  | setIsLittleEndian val =>
    cases hstep
    exact ⟨invariant_endian hs.1 _, hs.2⟩

end Reachable

/-- The blocks spell the flat array, and the byte order is the one that was chosen. -/
structure Holds (base : ℕ) (e : Endian) (s : ByteArrayState) (f : FlatArray) : Prop where
  sim : Simulates base s f
  endian_eq : s.endian = e

theorem Used.holds {heap : Heap} {base : ℕ} {s : ByteArrayState} (hb : 1 ≤ base)
    (h : Used heap base s) : Holds base s.endian s ⟨(storage s).take s.size, s.position⟩ := by
  obtain ⟨hinv, hbase⟩ := used_invariant hb h
  refine ⟨⟨hinv, hbase, rfl, ?_, rfl⟩, rfl⟩
  rw [List.length_take, hinv.length_storage, Nat.min_eq_left hinv.size_le]

/-- Blocks were added only as far as they are needed up to `stop`. -/
def Grown (base stop : ℕ) (s t : ByteArrayState) : Prop :=
  s.capacity ≤ t.capacity ∧ (t.capacity = s.capacity ∨ t.capacity < stop + base)

section Rules

variable {heap : Heap} {base : ℕ} {e : Endian} {s t u : ByteArrayState} {f : FlatArray}
  {α β : Type}

theorem Grown.trans {i j : ℕ} (h : Grown base i s t) (h' : Grown base j t u) (hij : i ≤ j) :
    Grown base j s u := by
  unfold Grown at *
  omega

/-- What was written ends with the last block when it fills it, and no block is behind it. -/
theorem Grown.end_iff {stop : ℕ} (h : Grown base stop s t) (ht : Invariant t)
    (hbase : t.baseSize = base) (hle : stop ≤ t.capacity) :
    stop = t.capacity ↔ base ∣ stop ∧ s.capacity ≤ stop := by
  have hcap : t.capacity = base * t.nodes.length := by
    rw [ht.capacity_eq, hbase, Nat.mul_comm]
  constructor
  · rintro rfl
    exact ⟨⟨t.nodes.length, hcap⟩, h.1⟩
  · rintro ⟨⟨k, rfl⟩, hs⟩
    rcases h.2 with heq | hlt
    · omega
    · rw [hcap] at hlt hle ⊢
      rw [← Nat.mul_succ] at hlt
      have hlength := Nat.lt_of_mul_lt_mul_left hlt
      exact le_antisymm hle (Nat.mul_le_mul_left base (Nat.le_of_lt_succ hlength))

theorem Holds.position_le (h : Holds base e s f) : f.position ≤ f.data.length := by
  rw [← h.sim.position_eq, ← h.sim.size_eq]
  exact h.sim.inv.position_le

/-- The bytes of the flat array are those of the blocks. -/
theorem Holds.stored {i : ℕ} {bytes rest : List UInt8} (h : Holds base e s f)
    (hdata : f.data.drop i = bytes ++ rest) :
    ((storage s).drop i).take bytes.length = bytes := by
  have hsize : i + bytes.length ≤ s.size ∨ bytes = [] := by
    have hlength := congrArg List.length hdata
    rw [List.length_drop, List.length_append, ← h.sim.size_eq] at hlength
    by_cases hi : i ≤ s.size
    · exact .inl (by omega)
    · exact .inr (List.length_eq_zero_iff.1 (by omega))
  rcases hsize with hsize | rfl
  · have htake := congrArg (List.take bytes.length) hdata
    rw [← h.sim.data_eq, List.drop_take, List.take_take, List.take_left,
      Nat.min_eq_left (by omega)] at htake
    exact htake
  · rw [List.length_nil, List.take_zero]

/-- The call puts these bytes at the cursor and moves it behind them. -/
def Writes (e : Endian) (m : Method Unit) (bytes : List UInt8) : Prop :=
  ∀ ⦃base s f⦄, Holds base e s f → ∃ t, m s = .ok () t ∧
    Holds base e t ⟨overwrite f.data f.position bytes, f.position + bytes.length⟩ ∧
    Grown base (f.position + bytes.length) s t

/-- The call makes this of the bytes at the cursor and moves it behind them. -/
def Reads (e : Endian) (m : Method α) (bytes : List UInt8) (a : α) : Prop :=
  ∀ ⦃base s f rest⦄, Holds base e s f → f.data.drop f.position = bytes ++ rest →
    ∃ t, m s = .ok a t ∧ Holds base e t ⟨f.data, f.position + bytes.length⟩ ∧
      t.capacity = s.capacity

theorem addCapaticy_frame (heap : Heap) (hs : Invariant s) (n : ℕ) :
    (s.addCapaticy heap n).endian = s.endian ∧
      Grown s.baseSize (s.position + n) s (s.addCapaticy heap n) := by
  have hb := hs.base_pos
  have hp := hs.position_le
  have hsz := hs.size_le
  unfold ByteArrayState.addCapaticy ByteArrayState.getCapacity Grown
  dsimp only
  split
  · exact ⟨rfl, le_refl _, .inl rfl⟩
  · split
    · exact ⟨rfl, le_refl _, .inl rfl⟩
    · refine ⟨rfl, Nat.le_add_right _ _, .inr ?_⟩
      have hceil :=
        Nat.div_mul_le_self (n - (s.capacity - s.position) + (s.baseSize - 1)) s.baseSize
      dsimp only
      omega

theorem write_frame {buf : List UInt8} (h : s.write heap buf = .ok () t) :
    t.endian = (s.addCapaticy heap buf.length).endian ∧
      t.capacity = (s.addCapaticy heap buf.length).capacity := by
  unfold ByteArrayState.write at h
  split at h
  · rename_i hzero
    cases h
    rw [hzero]
    exact ⟨rfl, rfl⟩
  · dsimp only at h
    split at h
    · cases h
    · split at h
      · cases h
      · cases h
        exact ⟨rfl, rfl⟩

theorem read_frame {n : ℕ} {buf : List UInt8} (h : s.read n = .ok buf t) :
    t.endian = s.endian ∧ t.capacity = s.capacity := by
  unfold ByteArrayState.read at h
  split at h
  · cases h
  · split at h
    · cases h
    · split at h
      · cases h
      · cases h
        exact ⟨rfl, rfl⟩

theorem setPosition_frame {v : ℕ} (h : s.setPosition v = .ok () t) :
    t.endian = s.endian ∧ t.capacity = s.capacity := by
  unfold ByteArrayState.setPosition at h
  split at h
  · cases h
  · split at h
    · cases h
    · cases h
      exact ⟨rfl, rfl⟩

theorem writes_write (heap : Heap) (bytes : List UInt8) : Writes e (write heap bytes) bytes := by
  intro base s f h
  obtain ⟨t, ht, hsim⟩ := write_simulates heap h.sim bytes
  obtain ⟨hendian, hcap⟩ := write_frame ht
  obtain ⟨hframe, hgrown⟩ := addCapaticy_frame heap h.sim.inv bytes.length
  refine ⟨t, ht, ⟨hsim, by rw [hendian, hframe, h.endian_eq]⟩, ?_⟩
  rw [h.sim.base_eq, h.sim.position_eq] at hgrown
  rw [Grown, hcap]
  exact hgrown

theorem writes_pure : Writes e (pure ()) [] := by
  intro base s f h
  refine ⟨s, rfl, ?_, le_refl _, .inl rfl⟩
  rw [overwrite_nil]
  exact h

theorem Writes.bind {m k : Method Unit} {xs ys : List UInt8} (hm : Writes e m xs)
    (hk : Writes e k ys) : Writes e (m >>= fun _ => k) (xs ++ ys) := by
  intro base s f h
  obtain ⟨t, ht, hholds, hgrown⟩ := hm h
  obtain ⟨u, hu, hholds', hgrown'⟩ := hk hholds
  refine ⟨u, by rw [Method.bind_ok ht, hu], ?_, ?_⟩
  · rw [overwrite_behind h.position_le] at hholds'
    rw [List.length_append, ← Nat.add_assoc]
    exact hholds'
  · rw [List.length_append, ← Nat.add_assoc]
    exact hgrown.trans hgrown' (Nat.le_add_right _ _)

theorem Writes.forEach {m : α → Method Unit} {enc : α → List UInt8} {as : List α}
    (h : ∀ a ∈ as, Writes e (m a) (enc a)) : Writes e (Method.forEach m as) (as.flatMap enc) := by
  induction as with
  | nil => exact writes_pure
  | cons a as ih =>
    rw [List.forall_mem_cons] at h
    exact h.1.bind (ih h.2)

/-- A call that asks for something gets what is there. -/
theorem reads_read {bytes : List UInt8} {n : ℕ} (hlength : bytes.length = n) (hn : 1 ≤ n) :
    Reads e (read n) bytes bytes := by
  intro base s f rest h hdata
  have htake : (f.data.drop f.position).take n = bytes := by rw [hdata, List.take_left' hlength]
  have hleft : n ≤ f.data.length - f.position := by
    rw [← List.length_drop, hdata, List.length_append]
    omega
  obtain ⟨t, ht, hsim⟩ := read_simulates h.sim hn hleft
  obtain ⟨hendian, hcap⟩ := read_frame ht
  rw [htake] at ht
  refine ⟨t, ht, ⟨?_, hendian.trans h.endian_eq⟩, hcap⟩
  rw [hlength]
  exact hsim

theorem reads_pure (a : α) : Reads e (pure a) [] a := by
  intro base s f rest h _
  exact ⟨s, rfl, h, rfl⟩

theorem Reads.bind {m : Method α} {k : α → Method β} {xs ys : List UInt8} {a : α} {b : β}
    (hm : Reads e m xs a) (hk : Reads e (k a) ys b) : Reads e (m >>= k) (xs ++ ys) b := by
  intro base s f rest h hdata
  rw [List.append_assoc] at hdata
  obtain ⟨t, ht, hholds, hcap⟩ := hm h hdata
  have hbehind : f.data.drop (f.position + xs.length) = ys ++ rest := by
    rw [← List.drop_drop, hdata, List.drop_left]
  obtain ⟨u, hu, hholds', hcap'⟩ := hk hholds hbehind
  refine ⟨u, by rw [Method.bind_ok ht, hu], ?_, hcap'.trans hcap⟩
  rw [List.length_append, ← Nat.add_assoc]
  exact hholds'

theorem Reads.map {m : Method α} {xs : List UInt8} {a : α} (h : Reads e m xs a) (g : α → β) :
    Reads e (m >>= fun v => pure (g v)) xs (g a) := by
  have hmap : Reads e (m >>= fun v => pure (g v)) (xs ++ []) (g a) := h.bind (reads_pure _)
  rwa [List.append_nil] at hmap

theorem Reads.each {κ : Type} {m : κ → Method α} {key : α → κ} {enc : α → List UInt8}
    {as : List α} (h : ∀ a ∈ as, Reads e (m (key a)) (enc a) a) :
    Reads e (Method.each m (as.map key)) (as.flatMap enc) as := by
  induction as with
  | nil => exact reads_pure []
  | cons a as ih =>
    rw [List.forall_mem_cons] at h
    exact h.1.bind ((ih h.2).map (a :: ·))

/-- What stands at the cursor when the reading of a round trip begins, and what it has to do. -/
theorem readBack_at (h : Holds base e s f) {writing : Method Unit} {bytes : List UInt8}
    (hw : Writes e writing bytes) (tail : List UInt8) :
    ∃ u g rest, Holds base e u g ∧ g.position = f.position ∧
      g.data.drop g.position = bytes ++ (tail ++ rest) ∧
      Grown base (f.position + bytes.length + tail.length) s u ∧
      ∀ (α : Type) (reading : Method α) (a : α), ReadBack heap writing tail reading s a ↔
        ∃ t, reading u = .ok a t ∧ t.position = f.position + bytes.length := by
  obtain ⟨t, ht, hholds, hgrown⟩ := hw h
  have hwt : Writes e (write heap tail) tail := writes_write heap tail
  obtain ⟨v, hv, hholds', hgrown'⟩ := hwt hholds
  have hle := h.position_le
  rw [overwrite_behind hle] at hholds'
  have hback : f.position ≤ (overwrite f.data f.position (bytes ++ tail)).length := by
    rw [overwrite, List.length_append, List.length_take_of_le hle]
    exact Nat.le_add_right _ _
  obtain ⟨u, hu, hsim⟩ := setPosition_simulates hholds'.sim (v := f.position) hback
  obtain ⟨hendian, hcap⟩ := setPosition_frame hu
  refine ⟨u, _, f.data.drop (f.position + (bytes ++ tail).length),
    ⟨hsim, hendian.trans hholds'.endian_eq⟩, rfl, ?_, ?_, ?_⟩
  · rw [← List.append_assoc]
    exact drop_overwrite hle _
  · rw [Grown, hcap]
    exact hgrown.trans hgrown' (Nat.le_add_right _ _)
  · intro α reading a
    have hstart : getPosition s = .ok f.position s := by
      rw [getPosition, ByteArrayState.getPosition, h.sim.position_eq]
    have hstop : getPosition t = .ok (f.position + bytes.length) t := by
      rw [getPosition, ByteArrayState.getPosition, hholds.sim.position_eq]
    have hset : setPosition f.position v = .ok () u := hu
    have hrun : roundTrip heap writing tail reading s =
        (reading >>= fun a => pure (a, f.position + bytes.length)) u := by
      rw [roundTrip, Method.bind_ok hstart, Method.bind_ok ht, Method.bind_ok hstop,
        Method.bind_ok hv, Method.bind_ok hset]
    rw [ReadBack, hrun]
    constructor
    · rintro ⟨stop, w, hreading, hend⟩
      obtain ⟨b, x, hx, hpure⟩ := Method.of_bind_ok hreading
      cases hpure
      exact ⟨w, hx, hend⟩
    · rintro ⟨w, hreading, hend⟩
      exact ⟨_, w, by rw [Method.bind_ok hreading]; rfl, hend⟩

/-- What is written and can be read is read back. -/
theorem readBack_of_reads (h : Holds base e s f) {writing : Method Unit} {reading : Method α}
    {bytes : List UInt8} {a : α} (hw : Writes e writing bytes) (hr : Reads e reading bytes a)
    (tail : List UInt8) : ReadBack heap writing tail reading s a := by
  obtain ⟨u, g, rest, hholds, hposition, hdata, -, hback⟩ := readBack_at h hw tail
  obtain ⟨t, ht, hend, -⟩ := hr hholds hdata
  rw [hback]
  refine ⟨t, ht, ?_⟩
  rw [hend.sim.position_eq, hposition]

theorem readBack_of_each (h : Holds base e s f) {w : α → Method Unit} {m : Method α}
    {enc : α → List UInt8} {as : List α} (hw : ∀ a, Writes e (w a) (enc a))
    (hr : ∀ a ∈ as, Reads e m (enc a) a) (tail : List UInt8) :
    ReadBack heap (Method.forEach w as) tail (Method.each (fun _ => m) as) s as := by
  have hreads : Reads e (Method.each (fun _ => m) (as.map id)) (as.flatMap enc) as :=
    Reads.each hr
  rw [List.map_id] at hreads
  exact readBack_of_reads h (Writes.forEach fun a _ => hw a) hreads tail

/-- A reading call that goes wrong at the bytes of an item does so in every row with it. -/
theorem forall_of_each {m : Method α} {enc : α → List UInt8} {good : α → Prop} {as : List α}
    {rest : List UInt8} (hgood : ∀ a, good a → Reads e m (enc a) a)
    (hbad : ∀ a, ¬ good a → ∀ ⦃s f rest t⦄, Holds base e s f →
      f.data.drop f.position = enc a ++ rest → m s ≠ .ok a t)
    (h : Holds base e s f) (hdata : f.data.drop f.position = as.flatMap enc ++ rest)
    (heach : Method.each (fun _ => m) as s = .ok as t) : ∀ a ∈ as, good a := by
  induction as generalizing s f with
  | nil => exact fun a ha => absurd ha List.not_mem_nil
  | cons a as ih =>
    rw [List.flatMap_cons, List.append_assoc] at hdata
    rw [Method.each] at heach
    obtain ⟨b, v, hm, hrest⟩ := Method.of_bind_ok heach
    obtain ⟨bs, w, htail, hpure⟩ := Method.of_bind_ok hrest
    cases hpure
    have ha : good a := by
      by_contra hnot
      exact hbad a hnot h hdata hm
    obtain ⟨v', hv, hholds, -⟩ := hgood a ha h hdata
    cases hv.symm.trans hm
    have hbehind : f.data.drop (f.position + (enc a).length) = as.flatMap enc ++ rest := by
      rw [← List.drop_drop, hdata, List.drop_left]
    exact List.forall_mem_cons.2 ⟨ha, ih hholds hbehind htail⟩

/-- A row of items is read back exactly when each of them can be. -/
theorem readBack_each_iff (h : Holds base e s f) {w : α → Method Unit} {m : Method α}
    {enc : α → List UInt8} {good : α → Prop} (hw : ∀ a, Writes e (w a) (enc a))
    (hgood : ∀ a, good a → Reads e m (enc a) a)
    (hbad : ∀ a, ¬ good a → ∀ ⦃s f rest t⦄, Holds base e s f →
      f.data.drop f.position = enc a ++ rest → m s ≠ .ok a t) (as : List α) (tail : List UInt8) :
    ReadBack heap (Method.forEach w as) tail (Method.each (fun _ => m) as) s as ↔
      ∀ a ∈ as, good a := by
  have hwrites : Writes e (Method.forEach w as) (as.flatMap enc) := Writes.forEach fun a _ => hw a
  constructor
  · intro hread
    obtain ⟨u, g, rest, hholds, -, hdata, -, hback⟩ := readBack_at h hwrites tail
    rw [hback] at hread
    obtain ⟨t, heach, -⟩ := hread
    exact forall_of_each hgood hbad hholds hdata heach
  · exact fun hall => readBack_of_each h hw (fun a ha => hgood a (hall a ha)) tail

end Rules

end ByteArrayMethods
