import Mathlib.Algebra.Order.Group.Nat
import Mathlib.Data.List.Perm.Lattice
import Mathlib.Logic.Function.Basic
import SylarNet.StepRuns

/-!
# The pool of connections

`HttpConnectionPool::getConnection` and `ReleasePtr`, the deleter of the pointers it returns.
Connections are numbered in the order of their creation, whatever memory they get. What
`isConnected` answers, the readings of the clock and the outcome of an attempt to connect are
left open.
-/
namespace HttpConnectionPool

/-- What the pool keeps in an `HttpConnection`. -/
structure Connection where
  createdTime : UInt64
  request : UInt64
  deriving DecidableEq, Repr

def Connection.construct : Connection := ⟨0, 0⟩

structure Limits where
  maxAliveTime : UInt32
  maxRequest : UInt32
  deriving DecidableEq, Repr

/-- A finished call. Of `getConnection`: the reading at which it hands out its connection, what it
took out of the list and what it deleted. Of `ReleasePtr`: `m_request` as it was compared. -/
inductive Event where
  | got (reading : UInt64) (returned : Option ℕ) (removed deleted : List ℕ)
  | released (conn : ℕ) (reading : UInt64) (connected : Bool) (request : UInt64) (kept : Bool)
  deriving DecidableEq, Repr

structure PoolState where
  conns : List ℕ
  total : Int32
  object : ℕ → Connection
  /-- How many connections were made, and when each of them was. -/
  created : ℕ
  born : ℕ → UInt64
  /-- Returned and not yet released. -/
  leased : List ℕ
  destroyed : List ℕ
  log : List Event

def initial : PoolState := ⟨[], 0, fun _ => .construct, 0, fun _ => 0, [], [], []⟩

inductive Fault where
  | popEmpty
  | useAfterFree
  deriving DecidableEq, Repr

/-- The loop over `m_conns`: the connection to return, `invalid_conns` and what stays in the
list. -/
def search (expired isConnected : ℕ → Bool) :
    List ℕ → Except Fault (Option ℕ × List ℕ × List ℕ)
  | [] => .ok (none, [], [])
  | conn :: rest =>
    if !isConnected conn then
      (search expired isConnected rest).map fun r => (r.1, conn :: r.2.1, r.2.2)
    else if expired conn then
      -- The second `pop_front` drops the next connection, and there is no `continue`.
      match rest with
      | [] => .error .popEmpty
      | _ :: rest => .ok (some conn, [conn], rest)
    else .ok (some conn, [], rest)

section Calls

variable (l : Limits)

/-- The test of `getConnection`. -/
def expired (now : UInt64) (k : Connection) : Bool :=
  decide (k.createdTime + l.maxAliveTime.toUInt64 > now)

/-- `now` is read before the lock is taken, `createdAt` when a new connection is made; `connects`
says that the address, the socket and the connection are there for it. -/
def getConnection (s : PoolState) (now createdAt : UInt64) (isConnected : ℕ → Bool)
    (connects : Bool) : Except Fault (Option ℕ × PoolState) := do
  let (ptr, invalid, conns) ←
    search (fun conn => expired l now (s.object conn)) isConnected s.conns
  let removed := s.conns.take (s.conns.length - conns.length)
  let s := { s with
    conns := conns
    destroyed := s.destroyed ++ invalid
    total := s.total - Int32.ofNat invalid.length }
  match ptr with
  | some conn =>
    .ok (some conn, { s with
      leased := s.leased ++ [conn]
      log := s.log ++ [.got now (some conn) removed invalid] })
  | none =>
    if !connects then
      .ok (none, { s with log := s.log ++ [.got now none removed invalid] })
    else
      .ok (some s.created, { s with
        object := Function.update s.object s.created .construct
        born := Function.update s.born s.created createdAt
        created := s.created + 1
        total := s.total + 1
        leased := s.leased ++ [s.created]
        log := s.log ++ [.got createdAt (some s.created) removed invalid] })

/-- The test of `ReleasePtr`, after it has counted the request. -/
def spent (k : Connection) (now : UInt64) (isConnected : Bool) : Bool :=
  !isConnected || decide (k.createdTime + l.maxAliveTime.toUInt64 ≥ now) ||
    decide (k.request ≥ l.maxRequest.toUInt64)

/-- The connection still is in memory when its deleter is called. -/
def releasePtr (s : PoolState) (ptr : ℕ) (now : UInt64) (isConnected : Bool) :
    Except Fault PoolState :=
  if ptr ∈ s.destroyed then .error .useAfterFree
  else
    let k := { s.object ptr with request := (s.object ptr).request + 1 }
    let s := { s with
      object := Function.update s.object ptr k
      leased := s.leased.erase ptr }
    if spent l k now isConnected then
      .ok { s with
        destroyed := s.destroyed ++ [ptr]
        total := s.total - 1
        log := s.log ++ [.released ptr now isConnected k.request false] }
    else
      .ok { s with
        conns := s.conns ++ [ptr]
        log := s.log ++ [.released ptr now isConnected k.request true] }

end Calls

inductive Op where
  | getConnection (now createdAt : UInt64) (isConnected : ℕ → Bool) (connects : Bool)
  | release (ptr : ℕ) (now : UInt64) (isConnected : Bool)

/-- The connection that a call returns is its observation. -/
def step (l : Limits) (s : PoolState) : Op → Option (Option ℕ × PoolState)
  | .getConnection now createdAt isConnected connects =>
    (getConnection l s now createdAt isConnected connects).toOption
  | .release ptr now isConnected =>
    (releasePtr l s ptr now isConnected).toOption.map fun t => (none, t)

/-- The last pointer goes away once. -/
def Allowed (s : PoolState) : Op → Prop
  | .getConnection _ _ _ _ => True
  | .release ptr _ _ => ptr ∈ s.leased

instance (s : PoolState) : ∀ e, Decidable (Allowed s e)
  | .getConnection _ _ _ _ => .isTrue trivial
  | .release ptr _ _ => inferInstanceAs (Decidable (ptr ∈ s.leased))

/-!
## What the calls do
-/

/-- The state once `conn` is handed out; `rest` stays in the list. -/
def PoolState.handOut (s : PoolState) (now : UInt64) (conn : ℕ) (removed deleted rest : List ℕ) :
    PoolState :=
  { s with
    conns := rest
    destroyed := s.destroyed ++ deleted
    total := s.total - Int32.ofNat deleted.length
    leased := s.leased ++ [conn]
    log := s.log ++ [.got now (some conn) removed deleted] }

/-- The state once all connections of the list are deleted. -/
def PoolState.purge (s : PoolState) : PoolState :=
  { s with
    conns := []
    destroyed := s.destroyed ++ s.conns
    total := s.total - Int32.ofNat s.conns.length }

/-- The state with a new connection, handed out. -/
def PoolState.make (s : PoolState) (createdAt : UInt64) (removed deleted : List ℕ) : PoolState :=
  { s with
    object := Function.update s.object s.created .construct
    born := Function.update s.born s.created createdAt
    created := s.created + 1
    total := s.total + 1
    leased := s.leased ++ [s.created]
    log := s.log ++ [.got createdAt (some s.created) removed deleted] }

/-- The connection as `ReleasePtr` tests it. -/
def PoolState.counted (s : PoolState) (ptr : ℕ) : Connection :=
  { s.object ptr with request := (s.object ptr).request + 1 }

/-- The state once `ptr` is released and deleted. -/
def PoolState.discard (s : PoolState) (ptr : ℕ) (now : UInt64) (isConnected : Bool) : PoolState :=
  { s with
    object := Function.update s.object ptr (s.counted ptr)
    leased := s.leased.erase ptr
    destroyed := s.destroyed ++ [ptr]
    total := s.total - 1
    log := s.log ++ [.released ptr now isConnected (s.counted ptr).request false] }

/-- The state once `ptr` is released and back in the list. -/
def PoolState.putBack (s : PoolState) (ptr : ℕ) (now : UInt64) (isConnected : Bool) : PoolState :=
  { s with
    object := Function.update s.object ptr (s.counted ptr)
    leased := s.leased.erase ptr
    conns := s.conns ++ [ptr]
    log := s.log ++ [.released ptr now isConnected (s.counted ptr).request true] }

section Specs

variable {l : Limits} {s : PoolState} {now createdAt : UInt64} {isConnected : ℕ → Bool}

theorem search_of_none {expired : ℕ → Bool} {conns : List ℕ}
    (h : conns.find? isConnected = none) :
    search expired isConnected conns = .ok (none, conns, []) := by
  induction conns with
  | nil => rfl
  | cons conn rest ih =>
    cases hc : isConnected conn with
    | true => simp [hc] at h
    | false =>
      rw [List.find?_cons_of_neg (by simp [hc])] at h
      simp [search, hc, ih h, Except.map]

theorem search_of_some {conns : List ℕ} {conn : ℕ}
    (h : conns.find? isConnected = some conn) :
    ∃ pre rest, conns = pre ++ conn :: rest ∧ ∀ expired, search expired isConnected conns =
      if expired conn then
        match rest with
        | [] => .error .popEmpty
        | _ :: rest => .ok (some conn, pre ++ [conn], rest)
      else .ok (some conn, pre, rest) := by
  induction conns with
  | nil => cases h
  | cons first rest ih =>
    cases hc : isConnected first with
    | true =>
      rw [List.find?_cons_of_pos hc] at h
      cases h
      refine ⟨[], rest, rfl, ?_⟩
      intro expired
      cases rest <;> simp [search, hc]
    | false =>
      rw [List.find?_cons_of_neg (by simp [hc])] at h
      obtain ⟨pre, tail, rfl, hsearch⟩ := ih h
      refine ⟨first :: pre, tail, rfl, ?_⟩
      intro expired
      simp only [search, hc, Bool.not_false, if_true, hsearch]
      split
      · cases tail <;> rfl
      · rfl

/-- No idle connection is connected: all of them are deleted. -/
theorem getConnection_of_none (h : s.conns.find? isConnected = none) (connects : Bool) :
    getConnection l s now createdAt isConnected connects =
      if connects then
        .ok (some s.created, s.purge.make createdAt s.conns s.conns)
      else
        .ok (none, { s.purge with log := s.log ++ [.got now none s.conns s.conns] }) := by
  unfold getConnection
  rw [search_of_none h]
  cases connects <;> simp [bind, Except.bind, PoolState.purge, PoolState.make]

/-- The first connected one is returned; an expired one is deleted as well, and so the one
behind it is lost. -/
theorem getConnection_of_some {conn : ℕ} (h : s.conns.find? isConnected = some conn) :
    ∃ pre rest, s.conns = pre ++ conn :: rest ∧ ∀ l now createdAt connects,
      getConnection l s now createdAt isConnected connects =
        if expired l now (s.object conn) then
          match rest with
          | [] => .error .popEmpty
          | lost :: rest =>
            .ok (some conn, s.handOut now conn (pre ++ [conn, lost]) (pre ++ [conn]) rest)
        else .ok (some conn, s.handOut now conn (pre ++ [conn]) pre rest) := by
  obtain ⟨pre, rest, hconns, hsearch⟩ := search_of_some h
  refine ⟨pre, rest, hconns, ?_⟩
  intro l now createdAt connects
  -- What left the list is what stands before the tail that stays.
  have htake : ∀ front tail, s.conns = front ++ tail →
      s.conns.take (s.conns.length - tail.length) = front := by
    intro front tail heq
    rw [heq, List.length_append, Nat.add_sub_cancel, List.take_left]
  unfold getConnection
  rw [hsearch]
  by_cases he : expired l now (s.object conn) = true
  · cases rest with
    | nil => simp [he, bind, Except.bind]
    | cons lost rest =>
      have hfront := htake (pre ++ [conn, lost]) rest (by simp [hconns])
      simp only [he, if_true, bind, Except.bind, hfront, PoolState.handOut]
  · have hfront := htake (pre ++ [conn]) rest (by simp [hconns])
    rw [Bool.not_eq_true] at he
    simp only [he, Bool.false_eq_true, if_false, bind, Except.bind, hfront, PoolState.handOut]

theorem getConnection_cases {connects : Bool} {o : Option ℕ} {t : PoolState}
    (h : getConnection l s now createdAt isConnected connects = .ok (o, t)) :
    (s.conns.find? isConnected = none ∧ connects = true ∧ o = some s.created ∧
      t = s.purge.make createdAt s.conns s.conns) ∨
    (s.conns.find? isConnected = none ∧ o = none ∧
      t = { s.purge with log := s.log ++ [.got now none s.conns s.conns] }) ∨
    ∃ conn removed deleted rest, s.conns.find? isConnected = some conn ∧ o = some conn ∧
      s.conns = removed ++ rest ∧ conn ∈ removed ∧
      t = s.handOut now conn removed deleted rest := by
  cases hf : s.conns.find? isConnected with
  | none =>
    rw [getConnection_of_none hf] at h
    cases connects with
    | true =>
      cases h
      exact .inl ⟨rfl, rfl, rfl, rfl⟩
    | false =>
      cases h
      exact .inr (.inl ⟨rfl, rfl, rfl⟩)
  | some conn =>
    right; right
    obtain ⟨pre, rest, hconns, heq⟩ := getConnection_of_some hf
    rw [heq] at h
    split at h
    · cases rest with
      | nil => cases h
      | cons lost rest =>
        cases h
        exact ⟨conn, pre ++ [conn, lost], pre ++ [conn], rest, rfl, rfl, by simp [hconns],
          by simp, rfl⟩
    · cases h
      exact ⟨conn, pre ++ [conn], pre, rest, rfl, rfl, by simp [hconns], by simp, rfl⟩

theorem releasePtr_eq {ptr : ℕ} {now : UInt64} {isConnected : Bool} (h : ptr ∉ s.destroyed) :
    releasePtr l s ptr now isConnected =
      if spent l (s.counted ptr) now isConnected then .ok (s.discard ptr now isConnected)
      else .ok (s.putBack ptr now isConnected) := by
  unfold releasePtr
  rw [if_neg h]
  rfl

theorem releasePtr_cases {ptr : ℕ} {now : UInt64} {isConnected : Bool} {t : PoolState}
    (h : releasePtr l s ptr now isConnected = .ok t) :
    ptr ∉ s.destroyed ∧
      (spent l (s.counted ptr) now isConnected = true ∧ t = s.discard ptr now isConnected ∨
        spent l (s.counted ptr) now isConnected = false ∧ t = s.putBack ptr now isConnected) := by
  by_cases hd : ptr ∈ s.destroyed
  · rw [releasePtr, if_pos hd] at h
    cases h
  · refine ⟨hd, ?_⟩
    rw [releasePtr_eq hd] at h
    split at h
    · next hs =>
      cases h
      exact .inl ⟨hs, rfl⟩
    · next hs =>
      cases h
      exact .inr ⟨by simpa using hs, rfl⟩

theorem step_getConnection_iff {connects : Bool} {o : Option ℕ} {t : PoolState} :
    step l s (.getConnection now createdAt isConnected connects) = some (o, t) ↔
      getConnection l s now createdAt isConnected connects = .ok (o, t) := by
  cases hg : getConnection l s now createdAt isConnected connects <;>
    simp [step, hg, Except.toOption]

theorem step_release_iff {ptr : ℕ} {isConnected : Bool} {o : Option ℕ} {t : PoolState} :
    step l s (.release ptr now isConnected) = some (o, t) ↔
      o = none ∧ releasePtr l s ptr now isConnected = .ok t := by
  cases hr : releasePtr l s ptr now isConnected <;>
    simp [step, hr, Except.toOption, eq_comm]

end Specs

end HttpConnectionPool
