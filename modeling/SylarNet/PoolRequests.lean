import SylarNet.HttpResponseLoops
import SylarNet.PoolConnections

/-!
# Requests over the pool

`HttpConnectionPool::doRequest`: a connection of the pool, `sendRequest` and `recvResponse` on
it, and its release when the last pointer goes away at the end. What the network does in a call
is open; a connection stays connected until it is closed.
-/
namespace PoolRequests

open SylarStream HttpConnection
open HttpConnectionPool (PoolState Limits getConnection releasePtr)
open HttpSegmentation (arriving)
open StepRuns (run Guarded run_invariant)

/-- The results that `doRequest` can have; a connection of the pool has a socket. -/
inductive Status where
  | ok
  | sendCloseByPeer
  | sendSocketError
  | timeout
  | poolGetConnection
  deriving DecidableEq, Repr

inductive Fault where
  | pool (fault : HttpConnectionPool.Fault)
  | response (fault : Http11Parser.Fault)
  deriving DecidableEq, Repr

structure System where
  pool : PoolState
  /-- That of a connection which is not yet made is the one it will have. -/
  streams : ℕ → Stream
  /-- The finished calls, each with the connection it got. -/
  log : List (Option ℕ × Status)

/-- A call: the text of the request, the clock and what the network does meanwhile. -/
structure Exchange where
  data : List UInt8
  now : UInt64
  createdAt : UInt64
  releasedAt : UInt64
  connects : Bool
  incoming : List Segment
  readEnd : { r : Int32 // r.toInt ≤ 0 }
  accepts : List Int32
  status : Option ℤ

def connected (s : System) (conn : ℕ) : Bool := (s.streams conn).connected

/-- The stream of a connection as a call finds it. -/
def Exchange.meets (x : Exchange) (stream : Stream) : Stream :=
  { stream with incoming := x.incoming, readEnd := x.readEnd, accepts := x.accepts }

section Calls

variable (l : Limits) (lexicalCast : List UInt8 → Option UInt64) (buffSize : ℕ)

/-- `sendRequest` and what follows, up to the result. -/
def exchange (x : Exchange) (stream : Stream) : Except Fault (Status × Stream) :=
  let (rt, stream) := stream.writeFixSize x.data
  if rt = 0 then .ok (.sendCloseByPeer, stream)
  else if rt < 0 then .ok (.sendSocketError, stream)
  else
    match recvResponse lexicalCast buffSize x.status stream with
    | .error fault => .error (.response fault)
    | .ok (none, stream) => .ok (.timeout, stream)
    | .ok (some _, stream) => .ok (.ok, stream)

/-- A connection that `getConnection` has deleted is not to be used. -/
def doRequest (s : System) (x : Exchange) : Except Fault (Status × System) := do
  let (ptr, pool) ←
    (getConnection l s.pool x.now x.createdAt (connected s) x.connects).mapError .pool
  match ptr with
  | none =>
    .ok (.poolGetConnection, { s with
      pool := pool
      log := s.log ++ [(none, .poolGetConnection)] })
  | some conn =>
    if conn ∈ pool.destroyed then .error (.pool .useAfterFree)
    else
      let (status, stream) ← exchange lexicalCast buffSize x (x.meets (s.streams conn))
      let pool ← (releasePtr l pool conn x.releasedAt stream.connected).mapError .pool
      .ok (status, {
        pool := pool
        streams := Function.update s.streams conn stream
        log := s.log ++ [(some conn, status)] })

def step (s : System) (x : Exchange) : Option (Status × System) :=
  (doRequest l lexicalCast buffSize s x).toOption

end Calls

/-- No connection made yet, and what will be made is connected. -/
def initial : System where
  pool := HttpConnectionPool.initial
  streams := fun _ => arriving []
  log := []

/-!
## A response that does not come closes the connection
-/

section Failures

variable {lexicalCast : List UInt8 → Option UInt64} {buffSize : ℕ} {s t : Stream}

theorem recvHeader_none {fuel : ℕ} {parser : HttpResponseParser} {data : List UInt8}
    (h : recvHeader buffSize fuel parser data s = .ok (none, t)) : t.connected = false := by
  induction fuel generalizing parser data s with
  | zero => cases h
  | succ fuel ih =>
    cases recvHeader_pass buffSize fuel parser data s with
    | closed hr =>
      rw [h] at hr
      cases hr
      rfl
    | fault f _ hr =>
      rw [h] at hr
      cases hr
    | done p n _ _ _ _ hr =>
      rw [h] at hr
      cases hr
    | more p n _ _ hr => exact ih (hr.symm.trans h)

theorem recvChunkSize_none {fuel : ℕ} {begin : Bool} {parser : HttpResponseParser}
    {data : List UInt8} (h : recvChunkSize buffSize fuel begin parser data s = .ok (none, t)) :
    t.connected = false := by
  induction fuel generalizing begin parser data s with
  | zero => cases h
  | succ fuel ih =>
    cases recvChunkSize_pass buffSize fuel begin parser data s with
    | closed hr =>
      rw [h] at hr
      cases hr
      rfl
    | fault f _ hr =>
      rw [h] at hr
      cases hr
    | done p n _ _ _ _ hr =>
      rw [h] at hr
      cases hr
    | more p n _ _ hr => exact ih (hr.symm.trans h)

theorem recvLeft_none {fuel : ℕ} {left : ℤ} {body : List UInt8}
    (h : recvLeft buffSize fuel left body s = (none, t)) : t.connected = false := by
  induction fuel generalizing left body s with
  | zero => cases h
  | succ fuel ih =>
    unfold recvLeft at h
    split at h
    · dsimp only at h
      generalize s.read _ = r at h
      split at h
      · cases h
        rfl
      · exact ih h
    · cases h

theorem recvChunk_none {contentLen : ℤ} {data body : List UInt8}
    (h : recvChunk buffSize contentLen data body s = .ok (none, t)) : t.connected = false := by
  cases recvChunk_content buffSize contentLen data body s with
  | closed fuel left t' hread hr =>
    rw [h] at hr
    cases hr
    exact recvLeft_none hread
  | fault f _ hr | buffered body' n hr | whole fuel left all body' t' _ hr =>
    rw [h] at hr
    cases hr

theorem recvChunks_none {fuel : ℕ} {parser : HttpResponseParser} {data body : List UInt8}
    (h : recvChunks buffSize fuel parser data body s = .ok (none, t)) : t.connected = false := by
  induction fuel generalizing parser data body s with
  | zero => cases h
  | succ fuel ih =>
    unfold recvChunks at h
    obtain ⟨⟨head, s'⟩, hhead, h⟩ := bind_ok h
    cases head with
    | none =>
      cases h
      exact recvChunkSize_none hhead
    | some head =>
      obtain ⟨⟨chunk, s''⟩, hchunk, h⟩ := bind_ok h
      cases chunk with
      | none =>
        cases h
        exact recvChunk_none hchunk
      | some chunk =>
        dsimp only at h
        split at h
        · cases h
        · exact ih h

theorem recvBody_none {bodyLength : ℤ} {data : List UInt8}
    (h : HttpSession.recvBody bodyLength data s = (none, t)) : t.connected = false := by
  unfold HttpSession.recvBody at h
  dsimp only at h
  split at h
  · generalize s.readFixSize _ = r at h
    split at h
    · cases h
      rfl
    · cases h
  · cases h

theorem recvRest_none {parser : HttpResponseParser} {data : List UInt8}
    (h : recvRest lexicalCast parser data s = (none, t)) : t.connected = false := by
  unfold recvRest at h
  generalize ((parser.getContentLength lexicalCast).toNat : ℤ).bmod (2 ^ 64) = bodyLength at h
  dsimp only at h
  split at h
  · split at h
    · next hbody =>
      cases h
      exact recvBody_none hbody
    · cases h
  · cases h

/-- Whatever goes wrong with a response, the connection is closed. -/
theorem recvResponse_none {status : Option ℤ}
    (h : recvResponse lexicalCast buffSize status s = .ok (none, t)) : t.connected = false := by
  unfold recvResponse at h
  obtain ⟨⟨header, s'⟩, hheader, h⟩ := bind_ok h
  cases header with
  | none =>
    cases h
    exact recvHeader_none hheader
  | some header =>
    dsimp only at h
    split at h
    · obtain ⟨⟨chunks, s''⟩, hchunks, h⟩ := bind_ok h
      cases chunks with
      | none =>
        cases h
        exact recvChunks_none hchunks
      | some chunks => cases h
    · exact recvRest_none (Except.ok.inj h)

theorem pool_of_mapError {α : Type} {r : Except HttpConnectionPool.Fault α} {f : Fault}
    (h : r.mapError .pool = .error f) : ∃ fault, f = .pool fault := by
  cases r with
  | error fault =>
    cases h
    exact ⟨fault, rfl⟩
  | ok a => cases h

theorem exchange_ne {x : Exchange} (hsize : buffSize < 2 ^ 31) :
    exchange lexicalCast buffSize x s ≠ .error (.response .outOfFuel) := by
  intro h
  unfold exchange at h
  dsimp only at h
  split at h
  · cases h
  · split at h
    · cases h
    · split at h
      · next hrecv =>
        cases h
        exact HttpResponseLoops.recvResponse_ne hsize hrecv
      · cases h
      · cases h

/-- A call goes on as long as it takes. -/
theorem doRequest_ne {l : Limits} {system : System} {x : Exchange} (hsize : buffSize < 2 ^ 31) :
    doRequest l lexicalCast buffSize system x ≠ .error (.response .outOfFuel) := by
  intro h
  rcases bind_error h with hget | ⟨⟨ptr, pool⟩, -, h⟩
  · obtain ⟨fault, hfault⟩ := pool_of_mapError hget
    cases hfault
  · cases ptr with
    | none => cases h
    | some conn =>
      dsimp only at h
      split at h
      · cases h
      · rcases bind_error h with hex | ⟨⟨status, stream⟩, -, h⟩
        · exact exchange_ne hsize hex
        · rcases bind_error h with hrel | ⟨pool', -, h⟩
          · obtain ⟨fault, hfault⟩ := pool_of_mapError hrel
            cases hfault
          · cases h

/-- All of the request goes out, and its length is no failure as an `int`. -/
def Sent (x : Exchange) : Prop :=
  Stream.takes x.accepts x.data.length = true ∧ 0 < Stream.toInt x.data.length

instance (x : Exchange) : Decidable (Sent x) := inferInstanceAs (Decidable (_ ∧ _))

theorem exchange_failed {x : Exchange} {status : Status} (hc : s.connected = true) (hx : Sent x)
    (h : exchange lexicalCast buffSize x (x.meets s) = .ok (status, t)) (hst : status ≠ .ok) :
    t.connected = false := by
  have hwrite : ((x.meets s).writeFixSize x.data).1 = Stream.toInt x.data.length := by
    rw [Stream.writeFixSize_takes (s := x.meets s) hc hx.1]
  unfold exchange at h
  dsimp only at h
  rw [hwrite, if_neg (ne_of_gt hx.2), if_neg (not_lt_of_gt hx.2)] at h
  split at h
  · cases h
  · next hrecv =>
    cases h
    exact recvResponse_none hrecv
  · cases h
    exact absurd rfl hst

end Failures

/-!
## No reuse after a failure
-/

/-- A connection of a call that failed is not the one of a later call. -/
def NotReused (log : List (Option ℕ × Status)) : Prop :=
  log.Pairwise fun a b => a.2 ≠ .ok → ∀ conn, a.1 = some conn → b.1 ≠ some conn

/-- `m_request` of the connection of the next call, as `ReleasePtr` will compare it. -/
def requests (s : System) : UInt64 :=
  match s.pool.conns.find? (connected s) with
  | some conn => (s.pool.counted conn).request
  | none => 1

/-- The request goes out, or `ReleasePtr` has a reason of its own not to keep the connection. -/
def Harmless (l : Limits) (s : System) (x : Exchange) : Prop :=
  Sent x ∨ x.releasedAt.toNat ≤ l.maxAliveTime.toNat ∨ l.maxRequest.toNat ≤ (requests s).toNat

instance (l : Limits) (s : System) (x : Exchange) : Decidable (Harmless l s x) :=
  inferInstanceAs (Decidable (_ ∨ _ ∨ _))

structure Fit (s : System) : Prop where
  unset : PoolConnections.Unset s.pool
  nodup : s.pool.conns.Nodup
  made : ∀ conn ∈ s.pool.conns, conn < s.pool.created
  fresh : ∀ conn, s.pool.created ≤ conn → connected s conn = true
  apart : ∀ entry ∈ s.log, entry.2 ≠ .ok → ∀ conn, entry.1 = some conn →
    conn < s.pool.created ∧ conn ∉ s.pool.conns
  notReused : NotReused s.log

section Runs

variable {l : Limits} {lexicalCast : List UInt8 → Option UInt64} {buffSize : ℕ} {s t : System}
  {x : Exchange} {status : Status}

theorem mapError_ok {ε ε' α : Type} {f : ε → ε'} {r : Except ε α} {a : α}
    (h : r.mapError f = .ok a) : r = .ok a := by
  cases r with
  | error e => cases h
  | ok b => exact congrArg _ (Except.ok.inj h)

theorem step_cases (h : step l lexicalCast buffSize s x = some (status, t)) :
    (∃ pool, getConnection l s.pool x.now x.createdAt (connected s) x.connects = .ok (none, pool) ∧
      t = { s with pool := pool, log := s.log ++ [(none, .poolGetConnection)] }) ∨
    ∃ conn pool stream pool',
      getConnection l s.pool x.now x.createdAt (connected s) x.connects = .ok (some conn, pool) ∧
      exchange lexicalCast buffSize x (x.meets (s.streams conn)) = .ok (status, stream) ∧
      releasePtr l pool conn x.releasedAt stream.connected = .ok pool' ∧
      t = ⟨pool', Function.update s.streams conn stream, s.log ++ [(some conn, status)]⟩ := by
  have hdo : doRequest l lexicalCast buffSize s x = .ok (status, t) := by
    unfold step at h
    cases hd : doRequest l lexicalCast buffSize s x with
    | error fault => simp [hd, Except.toOption] at h
    | ok r =>
      rw [hd] at h
      exact congrArg _ (Option.some.inj h)
  unfold doRequest at hdo
  obtain ⟨⟨ptr, pool⟩, hget, hdo⟩ := bind_ok hdo
  have hget := mapError_ok hget
  cases ptr with
  | none =>
    cases hdo
    exact .inl ⟨pool, hget, rfl⟩
  | some conn =>
    dsimp only at hdo
    split at hdo
    · cases hdo
    · obtain ⟨⟨status', stream⟩, hex, hdo⟩ := bind_ok hdo
      obtain ⟨pool', hrel, hdo⟩ := bind_ok hdo
      cases hdo
      exact .inr ⟨conn, pool, stream, pool', hget, hex, mapError_ok hrel, rfl⟩

theorem fit_initial : Fit initial :=
  ⟨fun _ => rfl, List.nodup_nil, nofun, fun _ _ => rfl, nofun, List.Pairwise.nil⟩

/-- What `getConnection` has done when it returns `conn`. -/
structure Lent (s : System) (conn : ℕ) (pool : PoolState) : Prop where
  unset : PoolConnections.Unset pool
  origin : conn ∈ s.pool.conns ∨ s.pool.created ≤ conn
  isConnected : connected s conn = true
  counted : (pool.counted conn).request = requests s
  created : s.pool.created ≤ pool.created
  known : conn < pool.created
  nodup : pool.conns.Nodup
  others : ∀ c ∈ pool.conns, c ∈ s.pool.conns ∧ c ≠ conn

theorem Fit.lent {conn : ℕ} {pool : PoolState} (h : Fit s)
    (hget : getConnection l s.pool x.now x.createdAt (connected s) x.connects =
      .ok (some conn, pool)) : Lent s conn pool := by
  have hunset := PoolConnections.unset_step h.unset
    (HttpConnectionPool.step_getConnection_iff.2 hget)
  rcases HttpConnectionPool.getConnection_cases hget with
    ⟨hf, -, hconn, rfl⟩ | ⟨-, hconn, -⟩ | ⟨found, removed, deleted, rest, hf, hconn, hs, hmem, rfl⟩
  · cases hconn
    refine ⟨hunset, .inr (le_refl _), h.fresh _ (le_refl _), ?_, Nat.le_succ _,
      Nat.lt_succ_self _, List.nodup_nil, nofun⟩
    simp [requests, hf, PoolState.counted, PoolState.make, PoolState.purge,
      HttpConnectionPool.Connection.construct]
  · cases hconn
  · cases hconn
    have hin := List.mem_of_find?_eq_some hf
    have hnd := h.nodup
    rw [hs, List.nodup_append] at hnd
    refine ⟨hunset, .inl hin, List.find?_some hf, by simp only [requests, hf]; rfl, le_refl _,
      h.made conn hin, hnd.2.1, ?_⟩
    intro c hc
    exact ⟨hs ▸ List.mem_append_right _ hc, fun heq => hnd.2.2 conn hmem c hc heq.symm⟩

/-- What a failed call had is not what the next one gets. -/
theorem Fit.ne_lent {conn : ℕ} {pool : PoolState} (h : Fit s) (hl : Lent s conn pool)
    {entry : Option ℕ × Status} (he : entry ∈ s.log) (hst : entry.2 ≠ .ok) {c : ℕ}
    (hc : entry.1 = some c) : c ≠ conn := by
  rintro rfl
  have hapart := h.apart entry he hst c hc
  rcases hl.origin with hin | hge
  · exact hapart.2 hin
  · exact absurd hapart.1 (Nat.not_lt.2 hge)

theorem notReused_concat {log : List (Option ℕ × Status)} {entry : Option ℕ × Status}
    (h : NotReused log) (hnew : ∀ a ∈ log, a.2 ≠ .ok → ∀ conn, a.1 = some conn →
      entry.1 ≠ some conn) : NotReused (log ++ [entry]) := by
  rw [NotReused, List.pairwise_append]
  refine ⟨h, List.pairwise_singleton _ _, ?_⟩
  intro a ha b hb
  rw [List.mem_singleton] at hb
  subst hb
  exact hnew a ha

theorem Fit.refused {pool : PoolState} (h : Fit s)
    (hget : getConnection l s.pool x.now x.createdAt (connected s) x.connects =
      .ok (none, pool)) :
    Fit { s with pool := pool, log := s.log ++ [(none, .poolGetConnection)] } := by
  have hunset := PoolConnections.unset_step h.unset
    (HttpConnectionPool.step_getConnection_iff.2 hget)
  rcases HttpConnectionPool.getConnection_cases hget with
    ⟨-, -, hconn, -⟩ | ⟨-, -, rfl⟩ | ⟨_, _, _, _, -, hconn, -⟩
  · cases hconn
  · refine ⟨hunset, List.nodup_nil, nofun, h.fresh, ?_, notReused_concat h.notReused nofun⟩
    refine PoolConnections.forall_mem_concat.2 ⟨?_, nofun⟩
    intro entry he hst c hc
    exact ⟨(h.apart entry he hst c hc).1, List.not_mem_nil⟩
  · cases hconn

/-- A failed call does not put its connection back. -/
theorem Lent.ok_of_kept {conn : ℕ} {pool : PoolState} {stream : Stream} (hl : Lent s conn pool)
    (hx : Harmless l s x)
    (hex : exchange lexicalCast buffSize x (x.meets (s.streams conn)) = .ok (status, stream))
    (hspent : HttpConnectionPool.spent l (pool.counted conn) x.releasedAt stream.connected =
      false) : status = .ok := by
  by_contra hst
  have hzero : (pool.counted conn).createdTime = 0 := hl.unset conn
  obtain ⟨hc, hlate, hreq⟩ := (PoolConnections.spent_iff hzero).1 hspent
  rw [hl.counted] at hreq
  rcases hx with hsent | hold | hmany
  · rw [exchange_failed hl.isConnected hsent hex hst] at hc
    cases hc
  · omega
  · omega

theorem Fit.step (h : Fit s) (hx : Harmless l s x)
    (hs : step l lexicalCast buffSize s x = some (status, t)) : Fit t := by
  rcases step_cases hs with ⟨pool, hget, rfl⟩ | ⟨conn, pool, stream, pool', hget, hex, hrel, rfl⟩
  · exact h.refused hget
  · have hl := h.lent hget
    have hunset : PoolConnections.Unset pool' := PoolConnections.unset_step hl.unset
      (HttpConnectionPool.step_release_iff.2 ⟨rfl, hrel⟩)
    have hne : ∀ entry ∈ s.log, entry.2 ≠ .ok → ∀ c, entry.1 = some c → c ≠ conn :=
      fun entry he hst c hc => h.ne_lent hl he hst hc
    have hunused : NotReused (s.log ++ [(some conn, status)]) := by
      apply notReused_concat h.notReused
      intro a ha hst c hc heq
      exact hne a ha hst c hc (Option.some.inj heq).symm
    have hfresh : ∀ c, pool.created ≤ c →
        (Function.update s.streams conn stream c).connected = true := by
      intro c hc
      rw [Function.update_of_ne (by have := hl.known; omega)]
      exact h.fresh c (le_trans hl.created hc)
    have hmade : ∀ c ∈ pool.conns, c < pool.created :=
      fun c hc => lt_of_lt_of_le (h.made c (hl.others c hc).1) hl.created
    have hapart : ∀ entry ∈ s.log, entry.2 ≠ .ok → ∀ c, entry.1 = some c →
        c < pool.created ∧ c ∉ pool.conns := by
      intro entry he hst c hc
      have hold := h.apart entry he hst c hc
      exact ⟨lt_of_lt_of_le hold.1 hl.created, fun hin => hold.2 (hl.others c hin).1⟩
    rcases (HttpConnectionPool.releasePtr_cases hrel).2 with ⟨-, rfl⟩ | ⟨hspent, rfl⟩
    · refine ⟨hunset, hl.nodup, hmade, hfresh, ?_, hunused⟩
      refine PoolConnections.forall_mem_concat.2 ⟨hapart, ?_⟩
      rintro - _ ⟨⟩
      exact ⟨hl.known, fun hin => (hl.others conn hin).2 rfl⟩
    · refine ⟨hunset, ?_, PoolConnections.forall_mem_concat.2 ⟨hmade, hl.known⟩, hfresh, ?_,
        hunused⟩
      · apply List.Nodup.append hl.nodup (List.nodup_singleton _)
        intro c hc hc'
        rw [List.mem_singleton] at hc'
        exact (hl.others c hc).2 hc'
      · refine PoolConnections.forall_mem_concat.2
          ⟨?_, fun hst => absurd (hl.ok_of_kept hx hex hspent) hst⟩
        intro entry he hst c hc
        refine ⟨(hapart entry he hst c hc).1, ?_⟩
        intro hin
        rcases List.mem_append.1 hin with hin | hin
        · exact (hapart entry he hst c hc).2 hin
        · exact hne entry he hst c hc (List.mem_singleton.1 hin)

/-- In every sequence of calls in which no request gets stuck on a connection that `ReleasePtr`
then keeps, the connection of a failed call is not returned again. -/
theorem failed_connection_not_reused (l : Limits) (lexicalCast : List UInt8 → Option UInt64)
    (buffSize : ℕ) (xs : List Exchange) (statuses : List Status) (t : System)
    (hxs : Guarded (Harmless l) (step l lexicalCast buffSize) initial xs)
    (hrun : run (step l lexicalCast buffSize) initial xs = some (statuses, t)) :
    NotReused t.log := by
  have hfit : Fit t := run_invariant (P := Fit) (fun s x status t hs hx ht => hs.step hx ht)
    fit_initial hxs hrun
  exact hfit.notReused

/-- A request that finds the network in this state, on a connection made at 20. -/
def request (now : UInt64) (accepts : List Int32) : Exchange where
  data := [71, 69, 84]
  now := now
  createdAt := now
  releasedAt := now
  connects := true
  incoming := []
  readEnd := (arriving []).readEnd
  accepts := accepts
  status := none

theorem timed_out_not_reused :
    ∃ t, run (step ⟨10, 5⟩ (fun _ => none) 4096) initial [request 20 [1, 2], request 30 []] =
      some ([.timeout, .timeout], t) ∧ NotReused t.log :=
  ⟨_, rfl, failed_connection_not_reused ⟨10, 5⟩ (fun _ => none) 4096
    [request 20 [1, 2], request 30 []] [.timeout, .timeout] _ (by decide) rfl⟩

/-- One byte of the request goes out and then there is an error; the next request goes out on the
same connection. -/
theorem half_sent_reused :
    ∃ t, run (step ⟨10, 5⟩ (fun _ => none) 4096) initial [request 20 [1, -1], request 30 []] =
        some ([.sendSocketError, .timeout], t) ∧
      t.log = [(some 0, .sendSocketError), (some 0, .timeout)] ∧ ¬ NotReused t.log := by
  refine ⟨_, rfl, rfl, ?_⟩
  intro h
  exact List.rel_of_pairwise_cons h List.mem_cons_self nofun 0 rfl rfl

end Runs

end PoolRequests
