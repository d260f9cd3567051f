import SylarNet.OrderedSet
import SylarNet.StepRuns
import Mathlib.Data.List.Nodup
import Mathlib.Logic.Function.Basic

/-!
# The timer store

`m_timers` is a `std::set` of pointers whose comparator reads the mutable field `m_next` of
the timers it stores. Every clock reading, the address of every new timer and the address of
the probe timer of `listExpiredCb` are arguments. Two uses of the set have no defined
meaning and are faults here: erasing the end iterator, and changing the key of an element
while the set holds it.
-/
namespace TimerStore

structure Timer (Cb : Type) where
  recurring : Bool
  ms : UInt64
  next : UInt64
  cb : Option Cb
  deriving DecidableEq, Repr

/-- Addresses at which no timer was created hold a timer without a callback. -/
structure TimerManager (Cb : Type) where
  object : ℕ → Timer Cb
  timers : List ℕ
  tickled : Bool
  previousTime : UInt64

inductive Fault where
  | eraseEnd
  | keyMutated
  deriving DecidableEq, Repr

/-- The comparator on shared pointers, each given by the `m_next` behind it and its address. -/
def Comparator : Option (UInt64 × ℕ) → Option (UInt64 × ℕ) → Bool
  | none, none => false
  | none, some _ => true
  | some _, none => false
  | some lhs, some rhs =>
    if lhs.1 < rhs.1 then true
    else if rhs.1 < lhs.1 then false
    else decide (lhs.2 < rhs.2)

variable {Cb : Type}

namespace TimerManager

def construct (now : UInt64) : TimerManager Cb where
  object _ := ⟨false, 0, 0, none⟩
  timers := []
  tickled := false
  previousTime := now

def key (m : TimerManager Cb) (a : ℕ) : UInt64 × ℕ := ((m.object a).next, a)

def less (m : TimerManager Cb) (a b : ℕ) : Bool := Comparator (some (m.key a)) (some (m.key b))

def find (m : TimerManager Cb) (a : ℕ) : Option ℕ := OrderedSet.find m.less a m.timers

def insert (m : TimerManager Cb) (a : ℕ) : TimerManager Cb :=
  { m with timers := OrderedSet.insert m.less a m.timers }

def erase (m : TimerManager Cb) (a : ℕ) : TimerManager Cb :=
  { m with timers := OrderedSet.erase m.less a m.timers }

def setTimer (m : TimerManager Cb) (a : ℕ) (t : Timer Cb) : TimerManager Cb :=
  { m with object := Function.update m.object a t }

/-- An assignment to a timer that may change `m_next`. -/
def setKey (m : TimerManager Cb) (a : ℕ) (t : Timer Cb) : Except Fault (TimerManager Cb) :=
  if a ∈ m.timers then .error .keyMutated else .ok (m.setTimer a t)

/-- `addTimer(timer, lock)`. The flag says that `onTimerInsertedAtFront` is called. -/
def addTimerLocked (m : TimerManager Cb) (a : ℕ) : Bool × TimerManager Cb :=
  let m := m.insert a
  let atFront := m.timers.head? = some a && !m.tickled
  (atFront, if atFront then { m with tickled := true } else m)

def addTimer (m : TimerManager Cb) (a : ℕ) (now ms : UInt64) (cb : Option Cb)
    (recurring : Bool) : Bool × TimerManager Cb :=
  (m.setTimer a ⟨recurring, ms, now + ms, cb⟩).addTimerLocked a

def cancel (m : TimerManager Cb) (a : ℕ) : Except Fault (Bool × TimerManager Cb) :=
  if (m.object a).cb.isSome then
    let m := m.setTimer a { m.object a with cb := none }
    match m.find a with
    | none => .error .eraseEnd
    | some it => .ok (true, m.erase it)
  else .ok (false, m)

def refresh (m : TimerManager Cb) (a : ℕ) (now : UInt64) :
    Except Fault (Bool × TimerManager Cb) :=
  if (m.object a).cb.isNone then .ok (false, m)
  else
    match m.find a with
    | none => .ok (false, m)
    | some it => do
      let m ← (m.erase it).setKey a { m.object a with next := now + (m.object a).ms }
      .ok (true, m.insert a)

/-- The first flag is the result, the second says that `onTimerInsertedAtFront` is called. -/
def reset (m : TimerManager Cb) (a : ℕ) (now ms : UInt64) (fromNow : Bool) :
    Except Fault ((Bool × Bool) × TimerManager Cb) :=
  if ms = (m.object a).ms && !fromNow then .ok ((true, false), m)
  else if (m.object a).cb.isNone then .ok ((false, false), m)
  else
    match m.find a with
    | none => .ok ((false, false), m)
    | some it => do
      let start := if fromNow then now else (m.object a).next - (m.object a).ms
      let m ← (m.erase it).setKey a { m.object a with ms := ms, next := start + ms }
      let (atFront, m) := m.addTimerLocked a
      .ok ((true, atFront), m)

def getNextTimer (m : TimerManager Cb) (now : UInt64) : UInt64 × TimerManager Cb :=
  let m := { m with tickled := false }
  match m.timers with
  | [] => (~~~(0 : UInt64), m)
  | first :: _ =>
    if (m.object first).next ≤ now then (0, m) else ((m.object first).next - now, m)

def detectedClockRollover (m : TimerManager Cb) (now : UInt64) : Bool × TimerManager Cb :=
  (now < m.previousTime && now < m.previousTime - 60 * 60 * 1000,
    { m with previousTime := now })

/-- Where the iterator of `listExpiredCb` stops: the timers before it and from it on. The
probe timer has the current reading as its deadline and breaks ties by its address. -/
def splitExpired (m : TimerManager Cb) (now : UInt64) (probe : ℕ) (rollover : Bool) :
    List ℕ × List ℕ :=
  if rollover then (m.timers, [])
  else
    let before := fun a => Comparator (some (m.key a)) (some (now, probe))
    let rest := m.timers.dropWhile before
    (m.timers.takeWhile before ++ rest.takeWhile (fun a => (m.object a).next = now),
      rest.dropWhile (fun a => (m.object a).next = now))

/-- The loop over the expired timers, which are no longer in the set. -/
def expireLoop (now : UInt64) :
    List ℕ → TimerManager Cb → Except Fault (List (Option Cb) × TimerManager Cb)
  | [], m => .ok ([], m)
  | a :: expired, m =>
    let cb := (m.object a).cb
    if (m.object a).recurring then do
      let m ← m.setKey a { m.object a with next := now + (m.object a).ms }
      let (cbs, m) ← expireLoop now expired (m.insert a)
      .ok (cb :: cbs, m)
    else do
      let (cbs, m) ← expireLoop now expired (m.setTimer a { m.object a with cb := none })
      .ok (cb :: cbs, m)

def listExpiredCb (m : TimerManager Cb) (now : UInt64) (probe : ℕ) :
    Except Fault (List (Option Cb) × TimerManager Cb) :=
  match m.timers with
  | [] => .ok ([], m)
  | first :: _ =>
    let (rollover, m) := m.detectedClockRollover now
    if !rollover && now < (m.object first).next then .ok ([], m)
    else
      let (expired, rest) := m.splitExpired now probe rollover
      expireLoop now expired { m with timers := rest }

end TimerManager

open TimerManager

theorem less_iff (m : TimerManager Cb) (a b : ℕ) :
    m.less a b = true ↔ (m.object a).next.toNat < (m.object b).next.toNat ∨
      ((m.object a).next.toNat = (m.object b).next.toNat ∧ a < b) := by
  change (if (m.object a).next < (m.object b).next then true
    else if (m.object b).next < (m.object a).next then false else decide (a < b)) = true ↔ _
  simp only [UInt64.lt_iff_toNat_lt]
  split_ifs with h1 h2
  · simp [h1]
  · simp only [false_iff]
    omega
  · rw [decide_eq_true_eq]
    omega

/-- The comparator orders the addresses strictly and totally, whatever the deadlines are. -/
theorem less_strictTotal (m : TimerManager Cb) : OrderedSet.StrictTotal m.less := by
  constructor
  · intro a
    rw [← Bool.not_eq_true, less_iff]
    omega
  · intro a b c
    simp only [less_iff]
    omega
  · intro a b
    rw [← Bool.not_eq_true, ← Bool.not_eq_true, less_iff, less_iff]
    omega

theorem less_congr {m m' : TimerManager Cb} {a b : ℕ}
    (ha : (m.object a).next = (m'.object a).next) (hb : (m.object b).next = (m'.object b).next) :
    m.less a b = m'.less a b := by
  unfold less key
  rw [ha, hb]

/-- The set is in order, and the timers with a callback are those in the set and those in
`out`, which an operation has taken out and not yet put back. -/
structure Ordered (m : TimerManager Cb) (out : List ℕ) : Prop where
  sorted : OrderedSet.Sorted m.less m.timers
  armed : ∀ a, (a ∈ m.timers ∨ a ∈ out) ↔ (m.object a).cb.isSome = true
  taken : ∀ a ∈ out, a ∉ m.timers
  nodup : out.Nodup

def Invariant (m : TimerManager Cb) : Prop := Ordered m []

theorem Invariant.mem_iff {m : TimerManager Cb} (h : Invariant m) (a : ℕ) :
    a ∈ m.timers ↔ (m.object a).cb.isSome = true := by
  simpa using h.armed a

theorem Invariant.find_armed {m : TimerManager Cb} (h : Invariant m) {a : ℕ}
    (ha : (m.object a).cb.isSome = true) : m.find a = some a :=
  OrderedSet.find_of_mem (less_strictTotal m) h.sorted ((h.mem_iff a).mpr ha)

theorem construct_invariant (now : UInt64) : Invariant (construct now : TimerManager Cb) :=
  ⟨List.Pairwise.nil, by simp [construct], by simp, List.nodup_nil⟩

section Primitives

variable {m : TimerManager Cb} {a : ℕ} {out : List ℕ}

@[simp] theorem setTimer_timers (t : Timer Cb) : (m.setTimer a t).timers = m.timers := rfl
@[simp] theorem setTimer_object_self (t : Timer Cb) : (m.setTimer a t).object a = t := by
  simp [setTimer]

theorem setTimer_object_of_ne (t : Timer Cb) {b : ℕ} (h : b ≠ a) :
    (m.setTimer a t).object b = m.object b := by
  simp [setTimer, h]

@[simp] theorem erase_object : (m.erase a).object = m.object := rfl
@[simp] theorem insert_object : (m.insert a).object = m.object := rfl

/-- Writing to a timer outside the set leaves the set in order. -/
theorem setTimer_sorted (hs : OrderedSet.Sorted m.less m.timers) (ha : a ∉ m.timers)
    (t : Timer Cb) : OrderedSet.Sorted (m.setTimer a t).less (m.setTimer a t).timers := by
  apply hs.congr
  intro b hb c hc
  have hba : b ≠ a := fun h => ha (h ▸ hb)
  have hca : c ≠ a := fun h => ha (h ▸ hc)
  exact less_congr (by rw [setTimer_object_of_ne t hba]) (by rw [setTimer_object_of_ne t hca])

theorem Ordered.takeOut (h : Ordered m []) (ha : a ∈ m.timers) : Ordered (m.erase a) [a] := by
  have hmem : ∀ b, b ∈ (m.erase a).timers ↔ b ∈ m.timers ∧ b ≠ a := fun b =>
    OrderedSet.mem_erase (less_strictTotal m) h.sorted ha
  refine ⟨OrderedSet.erase_sorted h.sorted, ?_, ?_, by simp⟩
  · intro b
    rw [hmem, erase_object, ← h.armed b, List.mem_singleton]
    by_cases hb : b = a
    · subst hb; simp [ha]
    · simp [hb]
  · intro b hb
    rw [List.mem_singleton] at hb
    rw [hmem, hb]
    simp

/-- A timer taken out may be changed, as long as it keeps a callback. -/
theorem Ordered.change (h : Ordered m (a :: out)) {t : Timer Cb} (ht : t.cb.isSome = true) :
    Ordered (m.setTimer a t) (a :: out) := by
  refine ⟨setTimer_sorted h.sorted (h.taken a List.mem_cons_self) t, ?_, h.taken, h.nodup⟩
  intro b
  by_cases hb : b = a
  · subst hb; simp [ht]
  · rw [setTimer_object_of_ne t hb]
    exact h.armed b

theorem Ordered.putBack (h : Ordered m (a :: out)) : Ordered (m.insert a) out := by
  have hmem : ∀ b, b ∈ (m.insert a).timers ↔ b = a ∨ b ∈ m.timers := fun b =>
    OrderedSet.mem_insert (less_strictTotal m)
  obtain ⟨hna, hnd⟩ := List.nodup_cons.mp h.nodup
  refine ⟨OrderedSet.insert_sorted (less_strictTotal m) h.sorted, ?_, ?_, hnd⟩
  · intro b
    rw [hmem, insert_object, ← h.armed b, List.mem_cons]
    tauto
  · intro b hb
    rw [hmem]
    rintro (rfl | hm)
    · exact hna hb
    · exact h.taken b (List.mem_cons_of_mem a hb) hm

/-- A timer taken out is given up by clearing its callback. -/
theorem Ordered.giveUp (h : Ordered m (a :: out)) {t : Timer Cb} (ht : t.cb = none) :
    Ordered (m.setTimer a t) out := by
  have hna : a ∉ m.timers := h.taken a List.mem_cons_self
  obtain ⟨hno, hnd⟩ := List.nodup_cons.mp h.nodup
  refine ⟨setTimer_sorted h.sorted hna t, ?_, fun b hb => h.taken b (List.mem_cons_of_mem a hb),
    hnd⟩
  intro b
  by_cases hb : b = a
  · subst hb; simp [ht, hna, hno]
  · rw [setTimer_object_of_ne t hb, ← h.armed b, List.mem_cons, setTimer_timers]
    simp [hb]

theorem Ordered.setKey_ok (h : Ordered m (a :: out)) (t : Timer Cb) :
    m.setKey a t = .ok (m.setTimer a t) := by
  rw [setKey, if_neg (h.taken a List.mem_cons_self)]

theorem Ordered.of_set_eq {m' : TimerManager Cb} (h : Ordered m out)
    (ho : m'.object = m.object) (ht : m'.timers = m.timers) : Ordered m' out := by
  refine ⟨?_, by rw [ho, ht]; exact h.armed, by rw [ht]; exact h.taken, h.nodup⟩
  rw [ht]
  apply h.sorted.congr
  intro b _ c _
  exact less_congr (by rw [ho]) (by rw [ho])

theorem Ordered.addTimerLocked (h : Ordered m (a :: out)) :
    Ordered (m.addTimerLocked a).2 out := by
  unfold TimerManager.addTimerLocked
  dsimp only
  split_ifs
  · exact h.putBack.of_set_eq rfl rfl
  · exact h.putBack

end Primitives

section Operations

variable {m : TimerManager Cb} {a : ℕ}

/-- A new timer lives at an address that no stored timer has; only then may the memory of an
old timer have been given back. -/
theorem addTimer_invariant (h : Invariant m) (ha : a ∉ m.timers) (now ms : UInt64) (cb : Cb)
    (recurring : Bool) : Invariant (m.addTimer a now ms (some cb) recurring).2 := by
  apply Ordered.addTimerLocked
  refine ⟨setTimer_sorted h.sorted ha _, ?_, ?_, by simp⟩
  · intro b
    by_cases hb : b = a
    · subst hb; simp
    · rw [setTimer_object_of_ne _ hb, ← h.mem_iff b]
      simp [hb]
  · intro b hb
    rw [List.mem_singleton] at hb
    rw [hb]
    exact ha

theorem cancel_spec (h : Invariant m) (a : ℕ) :
    ∃ r m', m.cancel a = .ok (r, m') ∧ Invariant m' := by
  unfold TimerManager.cancel
  by_cases hcb : (m.object a).cb.isSome = true
  · rw [if_pos hcb]
    have hmem : a ∈ m.timers := (h.mem_iff a).mpr hcb
    -- clearing the callback does not move the key, so the search still succeeds
    have hless : (m.setTimer a { m.object a with cb := none }).less = m.less := by
      funext b c
      have hkey : ∀ d, ((m.setTimer a { m.object a with cb := none }).object d).next =
          (m.object d).next := by
        intro d
        by_cases hd : d = a
        · subst hd; simp
        · rw [setTimer_object_of_ne _ hd]
      exact less_congr (hkey b) (hkey c)
    have hfind : (m.setTimer a { m.object a with cb := none }).find a = some a := by
      unfold TimerManager.find
      rw [hless]
      exact OrderedSet.find_of_mem (less_strictTotal m) h.sorted hmem
    refine ⟨true, (m.setTimer a { m.object a with cb := none }).erase a,
      by simp only [hfind], ?_⟩
    have hgive := (Ordered.takeOut h hmem).giveUp (t := { m.object a with cb := none }) rfl
    exact hgive.of_set_eq rfl (by simp only [TimerManager.erase, hless, setTimer_timers])
  · rw [if_neg hcb]
    exact ⟨false, m, rfl, h⟩

theorem refresh_spec (h : Invariant m) (a : ℕ) (now : UInt64) :
    ∃ r m', m.refresh a now = .ok (r, m') ∧ Invariant m' := by
  unfold TimerManager.refresh
  by_cases hcb : (m.object a).cb.isNone = true
  · rw [if_pos hcb]
    exact ⟨false, m, rfl, h⟩
  have hsome : (m.object a).cb.isSome = true := by
    cases hc : (m.object a).cb <;> simp_all
  have hout := Ordered.takeOut h ((h.mem_iff a).mpr hsome)
  simp only [if_neg hcb, h.find_armed hsome, hout.setKey_ok]
  exact ⟨true, _, rfl, (hout.change (by exact hsome)).putBack⟩

theorem reset_spec (h : Invariant m) (a : ℕ) (now ms : UInt64) (fromNow : Bool) :
    ∃ r m', m.reset a now ms fromNow = .ok (r, m') ∧ Invariant m' := by
  unfold TimerManager.reset
  by_cases hsame : (ms = (m.object a).ms && !fromNow) = true
  · rw [if_pos hsame]
    exact ⟨_, m, rfl, h⟩
  rw [if_neg hsame]
  by_cases hcb : (m.object a).cb.isNone = true
  · rw [if_pos hcb]
    exact ⟨_, m, rfl, h⟩
  have hsome : (m.object a).cb.isSome = true := by
    cases hc : (m.object a).cb <;> simp_all
  have hout := Ordered.takeOut h ((h.mem_iff a).mpr hsome)
  simp only [if_neg hcb, h.find_armed hsome, hout.setKey_ok]
  exact ⟨_, _, rfl, (hout.change (by exact hsome)).addTimerLocked⟩

/-- The loop of `listExpiredCb` puts the recurring timers back and gives the others up. -/
theorem expireLoop_spec (now : UInt64) {expired : List ℕ} (h : Ordered m expired) :
    ∃ cbs m', expireLoop now expired m = .ok (cbs, m') ∧ Invariant m' := by
  induction expired generalizing m with
  | nil => exact ⟨[], m, rfl, h⟩
  | cons a expired ih =>
    have hsome : (m.object a).cb.isSome = true := (h.armed a).mp (Or.inr List.mem_cons_self)
    rw [expireLoop]
    by_cases hrec : (m.object a).recurring = true
    · obtain ⟨cbs, m', hloop, hinv⟩ := ih (h.change
        (t := { m.object a with next := now + (m.object a).ms }) hsome).putBack
      simp only [if_pos hrec, h.setKey_ok]
      exact ⟨(m.object a).cb :: cbs, m', by simp only [bind, Except.bind, hloop], hinv⟩
    · obtain ⟨cbs, m', hloop, hinv⟩ := ih (h.giveUp
        (t := { m.object a with cb := none }) rfl)
      simp only [if_neg hrec]
      exact ⟨(m.object a).cb :: cbs, m', by simp only [bind, Except.bind, hloop], hinv⟩

theorem splitExpired_append (m : TimerManager Cb) (now : UInt64) (probe : ℕ)
    (rollover : Bool) :
    (m.splitExpired now probe rollover).1 ++ (m.splitExpired now probe rollover).2 =
      m.timers := by
  unfold splitExpired
  split_ifs
  · simp
  · simp only [List.append_assoc, List.takeWhile_append_dropWhile]

/-- Erasing an initial part of the set takes these timers out. -/
theorem Ordered.splitOff (h : Ordered m []) {expired rest : List ℕ}
    (hsplit : expired ++ rest = m.timers) : Ordered { m with timers := rest } expired := by
  have hsorted := h.sorted
  have hnodup := hsorted.nodup (less_strictTotal m)
  rw [← hsplit] at hsorted hnodup
  refine ⟨?_, ?_, ?_, (List.nodup_append.mp hnodup).1⟩
  · exact (List.pairwise_append.mp hsorted).2.1
  · intro b
    rw [← h.armed b, ← hsplit, List.mem_append]
    simp [or_comm]
  · intro b hb hr
    exact (List.nodup_append.mp hnodup).2.2 b hb b hr rfl

theorem listExpiredCb_spec (h : Invariant m) (now : UInt64) (probe : ℕ) :
    ∃ cbs m', m.listExpiredCb now probe = .ok (cbs, m') ∧ Invariant m' := by
  unfold TimerManager.listExpiredCb
  split
  · exact ⟨[], m, rfl, h⟩
  · have hroll : Invariant (m.detectedClockRollover now).2 := h.of_set_eq rfl rfl
    dsimp only
    split_ifs
    · exact ⟨[], _, rfl, hroll⟩
    · exact expireLoop_spec now (hroll.splitOff (splitExpired_append _ now probe _))

end Operations

inductive Op (Cb : Type) where
  | addTimer (a : ℕ) (now ms : UInt64) (cb : Cb) (recurring : Bool)
  | cancel (a : ℕ)
  | refresh (a : ℕ) (now : UInt64)
  | reset (a : ℕ) (now ms : UInt64) (fromNow : Bool)
  | getNextTimer (now : UInt64)
  | listExpiredCb (now : UInt64) (probe : ℕ)
  deriving DecidableEq, Repr

/-- What a call returns; the second flag of `added` and `reset` is the call of
`onTimerInsertedAtFront`. -/
inductive Answer (Cb : Type) where
  | added (atFront : Bool)
  | result (r : Bool)
  | reset (r atFront : Bool)
  | timeout (ms : UInt64)
  | callbacks (cbs : List (Option Cb))
  deriving DecidableEq, Repr

def step (m : TimerManager Cb) : Op Cb → Option (Answer Cb × TimerManager Cb)
  | .addTimer a now ms cb recurring =>
    let r := m.addTimer a now ms (some cb) recurring
    some (.added r.1, r.2)
  | .cancel a => (m.cancel a).toOption.map fun r => (.result r.1, r.2)
  | .refresh a now => (m.refresh a now).toOption.map fun r => (.result r.1, r.2)
  | .reset a now ms fromNow =>
    (m.reset a now ms fromNow).toOption.map fun r => (.reset r.1.1 r.1.2, r.2)
  | .getNextTimer now =>
    let r := m.getNextTimer now
    some (.timeout r.1, r.2)
  | .listExpiredCb now probe =>
    (m.listExpiredCb now probe).toOption.map fun r => (.callbacks r.1, r.2)

/-- The allocator does not hand out the memory of a timer that the set still owns. -/
def Fresh (m : TimerManager Cb) : Op Cb → Prop
  | .addTimer a _ _ _ _ => a ∉ m.timers
  | _ => True

instance (m : TimerManager Cb) (op : Op Cb) : Decidable (Fresh m op) :=
  match op with
  | .addTimer a _ _ _ _ => inferInstanceAs (Decidable (a ∉ m.timers))
  | .cancel _ | .refresh _ _ | .reset _ _ _ _ | .getNextTimer _ | .listExpiredCb _ _ =>
    isTrue trivial

theorem step_invariant {m : TimerManager Cb} {op : Op Cb} (h : Invariant m) (hf : Fresh m op) :
    ∃ r m', step m op = some (r, m') ∧ Invariant m' := by
  cases op with
  | addTimer a now ms cb recurring =>
    exact ⟨_, _, rfl, addTimer_invariant h hf now ms cb recurring⟩
  | cancel a =>
    obtain ⟨r, m', hc, hinv⟩ := cancel_spec h a
    exact ⟨.result r, m', by simp only [step, hc]; rfl, hinv⟩
  | refresh a now =>
    obtain ⟨r, m', hc, hinv⟩ := refresh_spec h a now
    exact ⟨.result r, m', by simp only [step, hc]; rfl, hinv⟩
  | reset a now ms fromNow =>
    obtain ⟨r, m', hc, hinv⟩ := reset_spec h a now ms fromNow
    exact ⟨.reset r.1 r.2, m', by simp only [step, hc]; rfl, hinv⟩
  | getNextTimer now =>
    refine ⟨_, _, rfl, ?_⟩
    unfold TimerManager.getNextTimer
    dsimp only
    split
    · exact h.of_set_eq rfl rfl
    · split_ifs
      · exact h.of_set_eq rfl rfl
      · exact h.of_set_eq rfl rfl
  | listExpiredCb now probe =>
    obtain ⟨cbs, m', hc, hinv⟩ := listExpiredCb_spec h now probe
    exact ⟨.callbacks cbs, m', by simp only [step, hc]; rfl, hinv⟩

/-- In every run no end iterator is erased and no stored key is changed; at its end the
stored timers are those with a callback, each once, in the order of their current keys. -/
theorem timer_store_invariant (now : UInt64) {ops : List (Op Cb)}
    (hf : StepRuns.Guarded Fresh step (construct now) ops) :
    ∃ rs m, StepRuns.run step (construct now : TimerManager Cb) ops = some (rs, m) ∧
      (∀ a, a ∈ m.timers ↔ (m.object a).cb ≠ none) ∧
      (∀ a ∈ m.timers, m.timers.count a = 1) ∧
      m.timers.Pairwise (fun a b => (m.object a).next < (m.object b).next ∨
        ((m.object a).next = (m.object b).next ∧ a < b)) ∧
      (∀ a, (m.object a).cb ≠ none → m.find a = some a) := by
  obtain ⟨rs, m, hrun, hinv⟩ := StepRuns.run_total (P := Invariant)
    (fun m op hm hok => step_invariant hm hok) (construct_invariant now) hf
  refine ⟨rs, m, hrun, ?_, ?_, ?_, ?_⟩
  · intro a
    rw [hinv.mem_iff a, Option.isSome_iff_ne_none]
  · intro a ha
    exact List.count_eq_one_of_mem (hinv.sorted.nodup (less_strictTotal m)) ha
  · apply hinv.sorted.imp
    intro a b hab
    rw [less_iff] at hab
    rw [UInt64.lt_iff_toNat_lt, ← UInt64.toNat_inj]
    exact hab
  · intro a ha
    exact hinv.find_armed (Option.isSome_iff_ne_none.mpr ha)

/-- Two timers with one deadline, of which a refresh moves one; the other expires. -/
theorem timer_store_small_run :
    ∃ rs m, StepRuns.run step (construct 100 : TimerManager ℕ)
        [.addTimer 8 100 50 1 true, .addTimer 4 100 50 2 false, .refresh 8 110,
          .listExpiredCb 150 6] = some (rs, m) ∧
      (∀ a, a ∈ m.timers ↔ (m.object a).cb ≠ none) ∧ m.find 8 = some 8 := by
  have hf : StepRuns.Guarded Fresh step (construct 100 : TimerManager ℕ)
      [.addTimer 8 100 50 1 true, .addTimer 4 100 50 2 false, .refresh 8 110,
        .listExpiredCb 150 6] := by
    refine ⟨by decide, ?_⟩
    intro _ m h
    cases h
    exact ⟨by decide, fun _ _ _ => ⟨trivial, fun _ _ _ => ⟨trivial, fun _ _ _ => trivial⟩⟩⟩
  obtain ⟨rs, m, hrun, hmem, -, -, hfind⟩ := timer_store_invariant 100 hf
  have hcb : (StepRuns.run step (construct 100 : TimerManager ℕ)
      [.addTimer 8 100 50 1 true, .addTimer 4 100 50 2 false, .refresh 8 110,
        .listExpiredCb 150 6]).map (fun r => (r.2.object 8).cb) = some (some 1) := by decide
  rw [hrun, Option.map_some, Option.some.injEq] at hcb
  exact ⟨rs, m, hrun, hmem, hfind 8 (by rw [hcb]; simp)⟩

end TimerStore
