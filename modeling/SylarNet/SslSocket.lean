import Mathlib.Algebra.Group.Int.Defs
import SylarNet.ByteArrayViews
import SylarNet.DescriptorTables

/-!
# Several buffers over TLS

`SSLSocket` has a call of the library for each buffer and adds up what they return. A call that
fails is the result of the whole, whatever was moved before it, and `SocketStream` leaves the
position of its array where it was.
-/
namespace SslSocket

open ListOverwrite SylarByteArray SylarByteArray.ByteArrayState ByteArrayRefinement
  ByteArrayWriteBuffers ByteArrayViews
open DescriptorTables (castInt lt_of_lt_castInt)

/-- What `SSL_write` or `SSL_read` returns, call after call, for the length it is given. -/
structure Ssl where
  answer : ℕ → ℤ → ℤ
  le_length : ∀ i num, answer i num ≤ max 0 num

/-- The loop of `send` and of `recv`. `none`: the sum has no room in an `int`. -/
def gatherLoop (ssl : Ssl) : ℕ → ℤ → List Iovec → Option ℤ
  | _, total, [] => some total
  | i, total, v :: vs =>
    let tmp := ssl.answer i (castInt v.len)
    if tmp ≤ 0 then some tmp
    else if 2 ^ 31 ≤ total + tmp then none
    else if tmp ≠ castInt v.len then some (total + tmp)
    else gatherLoop ssl (i + 1) (total + tmp) vs

def send (m_ssl : Option Ssl) (buffers : List Iovec) : Option ℤ :=
  match m_ssl with
  | none => some (-1)
  | some ssl => gatherLoop ssl 0 0 buffers

def recv (m_ssl : Option Ssl) (buffers : List Iovec) : Option ℤ :=
  match m_ssl with
  | none => some (-1)
  | some ssl => gatherLoop ssl 0 0 buffers

/-- The buffers that bytes went through, with their numbers. -/
def moves (ssl : Ssl) : ℕ → List Iovec → List (Iovec × ℕ)
  | _, [] => []
  | i, v :: vs =>
    let tmp := ssl.answer i (castInt v.len)
    if tmp ≤ 0 then []
    else if tmp ≠ castInt v.len then [(v, tmp.toNat)]
    else (v, tmp.toNat) :: moves ssl (i + 1) vs

def total (ms : List (Iovec × ℕ)) : ℕ := (ms.map Prod.snd).sum

def transferred (ssl : Ssl) (buffers : List Iovec) : ℕ := total (moves ssl 0 buffers)

section Stream

inductive StreamOutcome where
  | returned (rt : ℤ) (s : ByteArrayState)
  | outOfRange (what : String) (s : ByteArrayState)
  | nullDeref
  | overrun
  | overflow
  deriving DecidableEq, Repr

/-- What both functions do with the result. -/
def advance (s : ByteArrayState) : Option ℤ → StreamOutcome
  | none => .overflow
  | some rt =>
    if 0 < rt then
      match s.setPosition (s.getPosition + rt.toNat) with
      | .nullDeref => .nullDeref
      | .outOfRange what s => .outOfRange what s
      | .ok _ s => .returned rt s
    else .returned rt s

def write (isConnected : Bool) (ba : ByteArrayState) (length : ℕ) (m_ssl : Option Ssl) :
    StreamOutcome :=
  if !isConnected then .returned (-1) ba
  else
    match ba.getReadBuffers length with
    | .nullDeref => .nullDeref
    | .outOfRange what s => .outOfRange what s
    | .ok (_, iovs) s => advance s (send m_ssl iovs)

/-- The library stores what arrives, `incoming` from the place `k` on, behind the pointers it is
given. `none`: outside of a block. -/
def deliver (incoming : ℕ → UInt8) : ℕ → List Node → List (Iovec × ℕ) → Option (List Node)
  | _, nodes, [] => some nodes
  | k, nodes, (v, n) :: ms =>
    match nodes[v.node]? with
    | none => none
    | some block =>
      if v.offset + n ≤ block.length then
        deliver incoming (k + n)
          (nodes.set v.node (overwrite block v.offset ((List.range' k n).map incoming))) ms
      else none

def read (heap : Heap) (isConnected : Bool) (ba : ByteArrayState) (length : ℕ)
    (m_ssl : Option Ssl) (incoming : ℕ → UInt8) : StreamOutcome :=
  if !isConnected then .returned (-1) ba
  else
    match ba.getWriteBuffers heap length with
    | .nullDeref => .nullDeref
    | .outOfRange what s => .outOfRange what s
    | .ok (_, iovs) s =>
      match deliver incoming 0 s.nodes (m_ssl.elim [] fun ssl => moves ssl 0 iovs) with
      | none => .overrun
      | some nodes => advance { s with nodes := nodes } (recv m_ssl iovs)

end Stream

section Loop

variable {ssl : Ssl} {i n : ℕ} {sum : ℤ} {v : Iovec} {vs : List Iovec}

/-- The call takes all that it is given. -/
def Whole (ssl : Ssl) (i : ℕ) (v : Iovec) : Prop :=
  0 < ssl.answer i (castInt v.len) ∧ ssl.answer i (castInt v.len) = castInt v.len

/-- The call for the buffer at `n`, when the first call is that of number `i`, fails after calls
that took all they were given. -/
def FailsAt (ssl : Ssl) (i n : ℕ) (buffers : List Iovec) : Prop :=
  (∀ j < n, ∀ w, buffers[j]? = some w → Whole ssl (i + j) w) ∧
  ∃ v, buffers[n]? = some v ∧ ssl.answer (i + n) (castInt v.len) ≤ 0

/-- A call fails when an earlier one has moved bytes. -/
def Stalls (ssl : Ssl) (buffers : List Iovec) : Prop := ∃ n, 0 < n ∧ FailsAt ssl 0 n buffers

theorem castInt_le (len : ℕ) : castInt len ≤ len := by
  by_contra h
  exact absurd (lt_of_lt_castInt (by omega : (len : ℤ) < castInt len)) (lt_irrefl _)

theorem castInt_of_lt {len : ℕ} (h : len < 2 ^ 31) : castInt len = len := by
  unfold castInt
  rw [Int.bmod_def]
  split <;> omega

theorem answer_le (ssl : Ssl) (i len : ℕ) : ssl.answer i (castInt len) ≤ len := by
  have hle := ssl.le_length i (castInt len)
  have hcast := castInt_le len
  omega

theorem not_failsAt_nil : ¬ FailsAt ssl i n [] := by
  rintro ⟨-, v, hv, -⟩
  simp at hv

theorem failsAt_zero : FailsAt ssl i 0 (v :: vs) ↔ ssl.answer i (castInt v.len) ≤ 0 := by
  simp [FailsAt]

theorem failsAt_succ :
    FailsAt ssl i (n + 1) (v :: vs) ↔ Whole ssl i v ∧ FailsAt ssl (i + 1) n vs := by
  have hnext (j : ℕ) : i + 1 + j = i + (j + 1) := by omega
  simp only [FailsAt, hnext, List.getElem?_cons_succ]
  constructor
  · rintro ⟨hall, hfail⟩
    refine ⟨hall 0 (by omega) v rfl, fun j hj w hw => ?_, hfail⟩
    exact hall (j + 1) (by omega) w hw
  · rintro ⟨hfirst, hall, hfail⟩
    refine ⟨fun j hj w hw => ?_, hfail⟩
    cases j with
    | zero =>
      cases hw
      exact hfirst
    | succ j => exact hall j (by omega) w hw

theorem gatherLoop_whole (h : Whole ssl i v) : gatherLoop ssl i sum (v :: vs) =
    if 2 ^ 31 ≤ sum + castInt v.len then none
    else gatherLoop ssl (i + 1) (sum + castInt v.len) vs := by
  obtain ⟨hpos, hall⟩ := h
  rw [hall] at hpos
  simp only [gatherLoop, hall, if_neg (not_le.2 hpos), ne_eq, not_true, if_false]

theorem moves_whole (h : Whole ssl i v) (vs : List Iovec) :
    moves ssl i (v :: vs) = (v, (castInt v.len).toNat) :: moves ssl (i + 1) vs := by
  obtain ⟨hpos, hall⟩ := h
  rw [hall] at hpos
  simp only [moves, hall, if_neg (not_le.2 hpos), ne_eq, not_true, if_false]

theorem gatherLoop_part (hpos : 0 < ssl.answer i (castInt v.len)) (h : ¬ Whole ssl i v) :
    gatherLoop ssl i sum (v :: vs) = if 2 ^ 31 ≤ sum + ssl.answer i (castInt v.len) then none
      else some (sum + ssl.answer i (castInt v.len)) := by
  have hpart : ssl.answer i (castInt v.len) ≠ castInt v.len := fun hall => h ⟨hpos, hall⟩
  simp only [gatherLoop, if_neg (not_le.2 hpos), hpart, ne_eq, not_false_eq_true, if_true]

theorem moves_part (hpos : 0 < ssl.answer i (castInt v.len)) (h : ¬ Whole ssl i v)
    (vs : List Iovec) :
    moves ssl i (v :: vs) = [(v, (ssl.answer i (castInt v.len)).toNat)] := by
  have hpart : ssl.answer i (castInt v.len) ≠ castInt v.len := fun hall => h ⟨hpos, hall⟩
  simp only [moves, if_neg (not_le.2 hpos), hpart, ne_eq, not_false_eq_true, if_true]

theorem total_cons (m : Iovec × ℕ) (ms : List (Iovec × ℕ)) : total (m :: ms) = m.2 + total ms := by
  simp [total]

/-- A loop in which a call fails has no positive result. -/
theorem gatherLoop_fails (h : FailsAt ssl i n vs) {r : ℤ} (hr : gatherLoop ssl i sum vs = some r) :
    r ≤ 0 := by
  induction vs generalizing i n sum with
  | nil => exact absurd h not_failsAt_nil
  | cons v vs ih =>
    cases n with
    | zero =>
      rw [failsAt_zero] at h
      simp only [gatherLoop, if_pos h, Option.some.injEq] at hr
      omega
    | succ n =>
      obtain ⟨hwhole, hrest⟩ := failsAt_succ.1 h
      rw [gatherLoop_whole hwhole] at hr
      split_ifs at hr with hover
      exact ih hrest hr

/-- Any other returns what was there before with what it has moved. -/
theorem gatherLoop_moves (h : ∀ n, ¬ FailsAt ssl i n vs) (hsum : sum < 2 ^ 31) :
    gatherLoop ssl i sum vs = if sum + total (moves ssl i vs) < 2 ^ 31
      then some (sum + total (moves ssl i vs)) else none := by
  induction vs generalizing i sum with
  | nil =>
    have hnil : sum + (total (moves ssl i []) : ℕ) = sum := by simp [moves, total]
    rw [hnil, if_pos hsum, gatherLoop]
  | cons v vs ih =>
    have hpos : 0 < ssl.answer i (castInt v.len) :=
      not_le.1 fun hle => h 0 (failsAt_zero.2 hle)
    have htoNat : ((ssl.answer i (castInt v.len)).toNat : ℤ) = ssl.answer i (castInt v.len) :=
      Int.toNat_of_nonneg hpos.le
    by_cases hwhole : Whole ssl i v
    · have hrest : ∀ n, ¬ FailsAt ssl (i + 1) n vs :=
        fun n hn => h (n + 1) (failsAt_succ.2 ⟨hwhole, hn⟩)
      rw [hwhole.2] at htoNat
      have hsplit : sum + (total ((v, (castInt v.len).toNat) :: moves ssl (i + 1) vs) : ℕ) =
          sum + castInt v.len + (total (moves ssl (i + 1) vs) : ℕ) := by
        rw [total_cons]
        dsimp only
        omega
      rw [gatherLoop_whole hwhole, moves_whole hwhole, hsplit]
      by_cases hover : 2 ^ 31 ≤ sum + castInt v.len
      · rw [if_pos hover, if_neg (by omega)]
      · rw [if_neg hover, ih hrest (by omega)]
    · rw [gatherLoop_part hpos hwhole, moves_part hpos hwhole, total_cons]
      simp only [total, List.map_nil, List.sum_nil, add_zero, htoNat]
      split_ifs <;> first | rfl | omega

/-- Bytes were moved before a call that fails unless it is the first. -/
theorem total_pos_of_failsAt (h : FailsAt ssl i n vs) : 0 < total (moves ssl i vs) ↔ 0 < n := by
  cases vs with
  | nil => exact absurd h not_failsAt_nil
  | cons v vs =>
    cases n with
    | zero =>
      rw [failsAt_zero] at h
      simp [moves, h, total]
    | succ n =>
      obtain ⟨hwhole, -⟩ := failsAt_succ.1 h
      have hpos := hwhole.1
      rw [hwhole.2] at hpos
      rw [moves_whole hwhole, total_cons]
      dsimp only
      omega

/-- What is counted on: the result is the number of the bytes that were moved, if there are any. -/
def Counted (ssl : Ssl) (vs : List Iovec) (r : Option ℤ) : Prop :=
  0 < transferred ssl vs → r = some (transferred ssl vs : ℤ)

/-- No call fails after one that moved bytes, and there is room for their number. -/
def Unbroken (ssl : Ssl) (vs : List Iovec) : Prop :=
  ¬ Stalls ssl vs ∧ transferred ssl vs < 2 ^ 31

theorem counted_iff : Counted ssl vs (gatherLoop ssl 0 0 vs) ↔ Unbroken ssl vs := by
  by_cases hfails : ∃ n, FailsAt ssl 0 n vs
  · obtain ⟨n, hn⟩ := hfails
    have hmoved := total_pos_of_failsAt hn
    rcases Nat.eq_zero_or_pos n with rfl | hpos
    · have hnone : transferred ssl vs = 0 :=
        Nat.eq_zero_of_not_pos fun h => absurd (hmoved.1 h) (by decide)
      refine iff_of_true (fun h => by omega) ⟨?_, by omega⟩
      rintro ⟨m, hm, hmfails⟩
      have := (total_pos_of_failsAt hmfails).2 hm
      unfold transferred at hnone
      omega
    · refine iff_of_false ?_ fun h => h.1 ⟨n, hpos, hn⟩
      intro h
      have hr := gatherLoop_fails hn (h (hmoved.2 hpos))
      have := hmoved.2 hpos
      unfold transferred at hr
      omega
  · have hnone : ∀ n, ¬ FailsAt ssl 0 n vs := fun n hn => hfails ⟨n, hn⟩
    have hloop := gatherLoop_moves hnone (show (0 : ℤ) < 2 ^ 31 by decide)
    rw [Int.zero_add] at hloop
    have hstalls : ¬ Stalls ssl vs := fun ⟨n, _, hn⟩ => hnone n hn
    rw [Counted, Unbroken, hloop, transferred]
    constructor
    · intro h
      refine ⟨hstalls, ?_⟩
      by_contra hlarge
      rw [if_neg (by omega)] at h
      cases h (by omega)
    · rintro ⟨-, hlt⟩ -
      rw [if_pos (by omega)]

/-- When nothing was moved the result is not positive. -/
theorem gatherLoop_idle (h : transferred ssl vs = 0) :
    ∃ r ≤ 0, gatherLoop ssl 0 0 vs = some r := by
  cases vs with
  | nil => exact ⟨0, le_refl 0, rfl⟩
  | cons v vs =>
    by_cases hfail : ssl.answer 0 (castInt v.len) ≤ 0
    · exact ⟨_, hfail, by simp only [gatherLoop, if_pos hfail]⟩
    · rw [transferred] at h
      by_cases hwhole : Whole ssl 0 v
      · have hpos := hwhole.1
        rw [hwhole.2] at hpos
        rw [moves_whole hwhole, total_cons] at h
        dsimp only at h
        omega
      · rw [moves_part (not_le.1 hfail) hwhole, total_cons] at h
        dsimp only at h
        omega

end Loop

section Array

variable {ssl : Ssl} {heap : Heap} {s t u : ByteArrayState} {vs : List Iovec} {len : ℕ}

def entries : Outcome (ℕ × List Iovec) → List Iovec
  | .ok (_, iovs) _ => iovs
  | _ => []

/-- The array is left behind the bytes that were moved. -/
def Advanced (s : ByteArrayState) (moved : ℕ) (o : StreamOutcome) : Prop :=
  ∃ rt u, o = .returned rt u ∧ u.position = s.position + moved

theorem advance_spec (ht : Invariant t) {n : ℕ} (hn : 0 < n) (hcap : t.position + n ≤ t.capacity) :
    ∃ u, advance t (some (n : ℤ)) = .returned n u ∧ u.position = t.position + n ∧
      storage u = storage t := by
  obtain ⟨u, hu, -, hposition, -, -, hstorage⟩ := setPosition_spec ht hcap
  refine ⟨u, ?_, hposition, hstorage⟩
  simp only [advance, if_pos (show (0 : ℤ) < n by omega), getPosition, Int.toNat_natCast, hu]

/-- With room for them the position goes behind the bytes exactly where they are counted. -/
theorem advanced_iff (ht : Invariant t) (hcap : t.position + transferred ssl vs ≤ t.capacity) :
    Advanced t (transferred ssl vs) (advance t (gatherLoop ssl 0 0 vs)) ↔ Unbroken ssl vs := by
  rw [← counted_iff]
  constructor
  · rintro ⟨rt, u, hreturned, hposition⟩ hpos
    cases hloop : gatherLoop ssl 0 0 vs with
    | none =>
      rw [hloop] at hreturned
      cases hreturned
    | some r =>
      by_cases hr : 0 < r
      · have hnone : ∀ n, ¬ FailsAt ssl 0 n vs :=
          fun n hn => absurd (gatherLoop_fails hn hloop) (not_le.2 hr)
        rw [gatherLoop_moves hnone (by decide), Int.zero_add] at hloop
        split_ifs at hloop
        exact hloop.symm
      · rw [hloop, advance, if_neg hr] at hreturned
        cases hreturned
        omega
  · intro hcounted
    rcases Nat.eq_zero_or_pos (transferred ssl vs) with hzero | hpos
    · obtain ⟨r, hr, hloop⟩ := gatherLoop_idle hzero
      refine ⟨r, t, ?_, by rw [hzero, Nat.add_zero]⟩
      rw [hloop, advance, if_neg (not_lt.2 hr)]
    · rw [hcounted hpos]
      obtain ⟨u, hu, hposition, -⟩ := advance_spec ht hpos hcap
      exact ⟨_, u, hu, hposition⟩

theorem total_le (ssl : Ssl) (i : ℕ) (vs : List Iovec) :
    total (moves ssl i vs) ≤ (vs.map Iovec.len).sum := by
  induction vs generalizing i with
  | nil => exact le_refl _
  | cons v vs ih =>
    have hle := answer_le ssl i v.len
    rw [List.map_cons, List.sum_cons]
    by_cases hfail : ssl.answer i (castInt v.len) ≤ 0
    · simp [moves, hfail, total]
    · by_cases hwhole : Whole ssl i v
      · have hrest := ih (i + 1)
        rw [moves_whole hwhole, total_cons]
        rw [hwhole.2] at hle
        dsimp only
        omega
      · rw [moves_part (not_le.1 hfail) hwhole, total_cons]
        simp only [total, List.map_nil, List.sum_nil]
        omega

theorem length_positions (b : ℕ) (vs : List Iovec) :
    (vs.flatMap (positions b)).length = (vs.map Iovec.len).sum := by
  rw [List.length_flatMap]
  simp [positions]

/-- Writing from an array moves no more than there is behind the cursor. -/
theorem write_iff (hs : Invariant s) (len : ℕ) :
    Advanced s (transferred ssl (entries (s.getReadBuffers len))) (write true s len (some ssl)) ↔
      Unbroken ssl (entries (s.getReadBuffers len)) := by
  obtain ⟨iovs, hbuffers, hcovers, -⟩ := getReadBuffers_spec hs len
  have hsum := length_positions s.baseSize iovs
  rw [hcovers.positions_eq, List.length_range'] at hsum
  have hle := total_le ssl 0 iovs
  have hleft : s.getReadSize = s.size - s.position := rfl
  have hmin : min len s.getReadSize ≤ s.getReadSize := Nat.min_le_right _ _
  have hsize := hs.size_le
  have hposition := hs.position_le
  simp only [write, hbuffers, entries, send, Bool.not_true, Bool.false_eq_true, if_false]
  apply advanced_iff hs
  unfold transferred
  omega

/-- The bytes that were taken are those in front of the new position. -/
theorem taken_eq {b : ℕ} (hb : b < 2 ^ 31) (i : ℕ) (h : ∀ v ∈ vs, v.len ≤ b) :
    (moves ssl i vs).flatMap (fun m => (positions b m.1).take m.2) =
      (vs.flatMap (positions b)).take (total (moves ssl i vs)) := by
  induction vs generalizing i with
  | nil => rfl
  | cons v vs ih =>
    rw [List.forall_mem_cons] at h
    have hcast := castInt_of_lt (lt_of_le_of_lt h.1 hb)
    have hlength : (positions b v).length = v.len := by simp [positions]
    have hle := answer_le ssl i v.len
    by_cases hfail : ssl.answer i (castInt v.len) ≤ 0
    · simp [moves, hfail, total]
    · by_cases hwhole : Whole ssl i v
      · rw [moves_whole hwhole, total_cons, List.flatMap_cons, List.flatMap_cons, ih (i + 1) h.2,
          hcast, Int.toNat_natCast, ← hlength, List.take_length, List.take_length_add_append]
      · rw [moves_part (not_le.1 hfail) hwhole, total_cons, List.flatMap_singleton,
          List.flatMap_cons]
        simp only [total, List.map_nil, List.sum_nil, Nat.add_zero]
        rw [List.take_append_of_le_length (by omega)]

/-- No byte of an array is sent twice and none is left out. -/
theorem write_taken (hs : Invariant s) (hb : s.baseSize < 2 ^ 31) (len : ℕ) :
    (moves ssl 0 (entries (s.getReadBuffers len))).flatMap
        (fun m => (positions s.baseSize m.1).take m.2) =
      List.range' s.position (transferred ssl (entries (s.getReadBuffers len))) := by
  obtain ⟨iovs, hbuffers, hcovers, -⟩ := getReadBuffers_spec hs len
  have hsum := length_positions s.baseSize iovs
  have hshort : ∀ v ∈ iovs, v.len ≤ s.baseSize := by
    intro v hv
    obtain ⟨block, hblock, hle⟩ := hcovers.inside v hv
    have hlen := hs.blocks block (List.mem_of_getElem? hblock)
    omega
  rw [hcovers.positions_eq, List.length_range'] at hsum
  have hle := total_le ssl 0 iovs
  rw [hbuffers, entries, taken_eq hb 0 hshort, hcovers.positions_eq, transferred]
  rw [List.take_range'_of_length_ge (by omega)]

section Receiving

variable {b i k npos n : ℕ} {chain nodes : List Node} {ms : List (Iovec × ℕ)}
  {incoming : ℕ → UInt8}

/-- Each call of the library stays in the block that its pointer points into. -/
def Fits (nodes : List Node) (ms : List (Iovec × ℕ)) : Prop :=
  ∀ m ∈ ms, ∃ block, nodes[m.1.node]? = some block ∧ m.1.offset + m.2 ≤ block.length

theorem fits_iff (hb : ∀ x ∈ nodes, x.length = b) :
    Fits nodes ms ↔ ∀ m ∈ ms, m.1.node < nodes.length ∧ m.1.offset + m.2 ≤ b := by
  apply forall₂_congr
  intro m _
  constructor
  · rintro ⟨block, hblock, hle⟩
    rw [← hb block (List.mem_of_getElem? hblock)]
    exact ⟨(List.getElem?_eq_some_iff.1 hblock).1, hle⟩
  · rintro ⟨hlt, hle⟩
    refine ⟨nodes[m.1.node], List.getElem?_eq_getElem hlt, ?_⟩
    rw [hb _ (List.getElem_mem hlt)]
    exact hle

theorem blocks_set (hb : ∀ x ∈ nodes, x.length = b) {m : Iovec × ℕ} {block : Node}
    (hblock : nodes[m.1.node]? = some block) (hle : m.1.offset + m.2 ≤ block.length)
    (incoming : ℕ → UInt8) (k : ℕ) :
    ∀ x ∈ nodes.set m.1.node (overwrite block m.1.offset ((List.range' k m.2).map incoming)),
      x.length = b := by
  have hinside : m.1.offset + ((List.range' k m.2).map incoming).length ≤ block.length := by
    rwa [List.length_map, List.length_range']
  intro x hx
  rcases List.mem_or_eq_of_mem_set hx with hx | rfl
  · exact hb x hx
  · rw [length_overwrite hinside]
    exact hb block (List.mem_of_getElem? hblock)

theorem deliver_some (hb : ∀ x ∈ nodes, x.length = b) (h : Fits nodes ms) (k : ℕ) :
    ∃ new, deliver incoming k nodes ms = some new ∧ (∀ x ∈ new, x.length = b) ∧
      new.length = nodes.length := by
  rw [fits_iff hb] at h
  induction ms generalizing nodes k with
  | nil => exact ⟨nodes, rfl, hb, rfl⟩
  | cons m ms ih =>
    rw [List.forall_mem_cons] at h
    obtain ⟨⟨hlt, hle⟩, hrest⟩ := h
    have hblock := List.getElem?_eq_getElem hlt
    rw [← hb _ (List.getElem_mem hlt)] at hle
    obtain ⟨new, hnew, hlens, hlength⟩ :=
      ih (blocks_set hb hblock hle incoming k) (by simpa using hrest) (k + m.2)
    refine ⟨new, ?_, hlens, by simpa using hlength⟩
    simp only [deliver, hblock, if_pos hle, hnew]

theorem deliver_none (hb : ∀ x ∈ nodes, x.length = b) (h : ¬ Fits nodes ms) (k : ℕ) :
    deliver incoming k nodes ms = none := by
  rw [fits_iff hb] at h
  induction ms generalizing nodes k with
  | nil => exact absurd (by simp) h
  | cons m ms ih =>
    simp only [deliver]
    cases hblock : nodes[m.1.node]? with
    | none => rfl
    | some block =>
      dsimp only
      split_ifs with hle
      · apply ih (blocks_set hb hblock hle incoming k)
        intro hrest
        refine h (List.forall_mem_cons.2 ⟨⟨?_, ?_⟩, by simpa using hrest⟩)
        · exact (List.getElem?_eq_some_iff.1 hblock).1
        · rwa [← hb block (List.mem_of_getElem? hblock)]
      · rfl

/-- A move through the first buffer, and those that may follow it. -/
theorem moves_cons (ssl : Ssl) (k : ℕ) (v : Iovec) (vs : List Iovec) :
    moves ssl k (v :: vs) = [] ∨ ∃ r ms, moves ssl k (v :: vs) = (v, r) :: ms ∧
      (ms = [] ∨ ms = moves ssl (k + 1) vs) := by
  by_cases hfail : ssl.answer k (castInt v.len) ≤ 0
  · exact .inl (by simp only [moves, if_pos hfail])
  · by_cases hwhole : Whole ssl k v
    · exact .inr ⟨_, _, moves_whole hwhole vs, .inr rfl⟩
    · exact .inr ⟨_, _, moves_part (not_le.1 hfail) hwhole vs, .inl rfl⟩

/-- The room in the blocks from the cursor on bounds what fits. -/
theorem total_le_room (hc : ∀ x ∈ chain, x.length = b) (hn : npos < b) {iovs : List Iovec}
    (hloop : writeBuffersLoop chain i npos n = some iovs)
    (hfits : ∀ m ∈ moves ssl k iovs, m.1.offset + m.2 ≤ b) :
    total (moves ssl k iovs) ≤ chain.length * b - npos := by
  induction chain generalizing i k npos n iovs with
  | nil =>
    cases n with
    | zero =>
      cases hloop
      exact Nat.zero_le _
    | succ n => cases hloop
  | cons node rest ih =>
    have hlen : node.length = b := hc node List.mem_cons_self
    rw [List.length_cons, Nat.succ_mul]
    cases n with
    | zero =>
      rw [writeBuffersLoop, Option.some.injEq] at hloop
      subst hloop
      exact Nat.zero_le _
    | succ n =>
      -- In either branch of the loop the first buffer lies behind the cursor in this block.
      have hfirst : ∃ vs, iovs = ⟨i, npos, n + 1⟩ :: vs ∧ ∀ k,
          (∀ m ∈ moves ssl k vs, m.1.offset + m.2 ≤ b) →
          total (moves ssl k vs) ≤ rest.length * b := by
        rw [writeBuffersLoop] at hloop
        split_ifs at hloop with hin
        · cases hloop
          exact ⟨[], rfl, fun k _ => Nat.zero_le _⟩
        · obtain ⟨vs, hvs, rfl⟩ := Option.map_eq_some_iff.1 hloop
          refine ⟨vs, rfl, fun k hk => ?_⟩
          exact ih (fun x hx => hc x (List.mem_cons_of_mem node hx)) (by omega) hvs hk
      obtain ⟨vs, rfl, hvs⟩ := hfirst
      rcases moves_cons ssl k ⟨i, npos, n + 1⟩ vs with hnil | ⟨r, ms, hcons, hms⟩
      · rw [hnil]
        exact Nat.zero_le _
      · rw [hcons, List.forall_mem_cons] at hfits
        obtain ⟨hr, hrest⟩ := hfits
        dsimp only at hr
        rw [hcons, total_cons]
        dsimp only
        rcases hms with rfl | rfl
        · simp only [total, List.map_nil, List.sum_nil]
          omega
        · have := hvs (k + 1) hrest
          omega

theorem getWriteBuffers_entries (heap : Heap) (hs : Invariant s) (len : ℕ) : ∃ iovs,
    s.getWriteBuffers heap len = .ok (len, iovs) (s.addCapaticy heap len) ∧
    writeBuffersLoop ((s.addCapaticy heap len).nodes.drop (s.position / s.baseSize))
      (s.position / s.baseSize) (s.position % s.baseSize) len = some iovs := by
  by_cases hl : len = 0
  · subst hl
    exact ⟨[], rfl, by rw [writeBuffersLoop]⟩
  · exact getWriteBuffers_spec heap hs hl

/-- Reading into an array is right where it moves no byte out of a block and none is uncounted. -/
theorem read_iff (heap : Heap) (hs : Invariant s) (len : ℕ) (incoming : ℕ → UInt8) :
    Advanced s (transferred ssl (entries (s.getWriteBuffers heap len)))
      (read heap true s len (some ssl) incoming) ↔
    Unbroken ssl (entries (s.getWriteBuffers heap len)) ∧
      Fits (s.addCapaticy heap len).nodes (moves ssl 0 (entries (s.getWriteBuffers heap len))) := by
  obtain ⟨iovs, hbuffers, hloop⟩ := getWriteBuffers_entries heap hs len
  obtain ⟨ht, hpos, -, hbase, -, -⟩ := addCapaticy_spec heap hs len
  simp only [read, hbuffers, entries, recv, Option.elim_some, Bool.not_true, Bool.false_eq_true,
    if_false]
  generalize s.addCapaticy heap len = t at *
  by_cases hfits : Fits t.nodes (moves ssl 0 iovs)
  · obtain ⟨new, hnew, hlens, hlength⟩ := @deliver_some _ _ _ incoming ht.blocks hfits 0
    have hinv : Invariant { t with nodes := new } := invariant_of_nodes ht hlens hlength
    have hroom : total (moves ssl 0 iovs) ≤
        (t.nodes.drop (s.position / s.baseSize)).length * s.baseSize - s.position % s.baseSize := by
      apply total_le_room _ (Nat.mod_lt _ hs.base_pos) hloop
      · intro m hm
        have hm := (fits_iff ht.blocks).1 hfits m hm
        rw [← hbase]
        exact hm.2
      · intro x hx
        rw [← hbase]
        exact ht.blocks x (List.mem_of_mem_drop hx)
    have hcap : t.position + transferred ssl iovs ≤ t.capacity := by
      have hsize := ht.size_le
      have hle := ht.position_le
      have hdiv := Nat.div_add_mod' s.position s.baseSize
      rw [List.length_drop, Nat.sub_mul, ← hbase, ← ht.capacity_eq, hbase] at hroom
      unfold transferred
      omega
    have hadvanced := advanced_iff hinv hcap
    simp only [hnew, hfits, and_true, ← hadvanced, Advanced, hpos]
  · rw [deliver_none ht.blocks hfits]
    refine iff_of_false ?_ fun h => hfits h.2
    rintro ⟨rt, u, hreturned, -⟩
    cases hreturned

/-- The first entry has the whole length, and it is the only one where the block has room. -/
theorem first_entry (heap : Heap) (hs : Invariant s) (hl : 1 ≤ len) : ∃ vs,
    entries (s.getWriteBuffers heap len) =
      ⟨s.position / s.baseSize, s.position % s.baseSize, len⟩ :: vs ∧
    (s.position % s.baseSize + len ≤ s.baseSize → vs = []) := by
  by_cases hfit : s.position % s.baseSize + len ≤ s.baseSize
  · exact ⟨[], by rw [single_entry heap hs hl hfit, entries], fun _ => rfl⟩
  · obtain ⟨vs, hvs⟩ := crossing_entry heap hs hl (not_le.1 hfit)
    exact ⟨vs, by rw [hvs, entries], fun h => absurd h hfit⟩

/-- A call that fits in its block ends the loop. -/
theorem moves_first {v : Iovec} (hlen : v.len < 2 ^ 31)
    (hfits : ∀ m ∈ moves ssl 0 (v :: vs), m.1.offset + m.2 ≤ b)
    (hsingle : v.offset + v.len ≤ b → vs = []) :
    Unbroken ssl (v :: vs) ∧
      (moves ssl 0 (v :: vs) = [] ∨ ∃ r, moves ssl 0 (v :: vs) = [(v, r)]) := by
  have hwhole_of_stalls : Stalls ssl (v :: vs) → Whole ssl 0 v ∧ ∃ n, FailsAt ssl 1 n vs := by
    rintro ⟨n, hn, hfails⟩
    obtain ⟨m, rfl⟩ := Nat.exists_eq_succ_of_ne_zero hn.ne'
    obtain ⟨hwhole, hrest⟩ := failsAt_succ.1 hfails
    exact ⟨hwhole, m, hrest⟩
  have htotal := total_le ssl 0 (v :: vs)
  by_cases hwhole : Whole ssl 0 v
  · have hcast := castInt_of_lt hlen
    have hmoves := moves_whole hwhole vs
    rw [hmoves, List.forall_mem_cons, hcast, Int.toNat_natCast] at hfits
    obtain rfl := hsingle hfits.1
    rw [hcast, Int.toNat_natCast] at hmoves
    refine ⟨⟨fun h => ?_, ?_⟩, .inr ⟨_, hmoves⟩⟩
    · obtain ⟨-, n, hn⟩ := hwhole_of_stalls h
      exact not_failsAt_nil hn
    · rw [transferred]
      simp only [List.map_cons, List.map_nil, List.sum_cons, List.sum_nil] at htotal
      omega
  · have hstalls : ¬ Stalls ssl (v :: vs) := fun h => hwhole (hwhole_of_stalls h).1
    by_cases hfail : ssl.answer 0 (castInt v.len) ≤ 0
    · have hnone : moves ssl 0 (v :: vs) = [] := by simp only [moves, if_pos hfail]
      refine ⟨⟨hstalls, ?_⟩, .inl hnone⟩
      rw [transferred, hnone]
      decide
    · have hpart := moves_part (not_le.1 hfail) hwhole vs
      have hle := answer_le ssl 0 v.len
      refine ⟨⟨hstalls, ?_⟩, .inr ⟨_, hpart⟩⟩
      rw [transferred, hpart]
      simp only [total, List.map_cons, List.map_nil, List.sum_cons, List.sum_nil]
      omega

theorem advance_storage {r : Option ℤ} {rt : ℤ} (ht : Invariant t)
    (h : advance t r = .returned rt u) : storage u = storage t := by
  cases r with
  | none => cases h
  | some r =>
    simp only [advance] at h
    split_ifs at h with hr
    · by_cases hv : t.getPosition + r.toNat ≤ t.capacity
      · obtain ⟨w, hw, -, -, -, -, hstorage⟩ := setPosition_spec ht hv
        rw [hw] at h
        cases h
        exact hstorage
      · rw [setPosition, if_pos (not_le.1 hv)] at h
        cases h
    · cases h
      rfl

/-- What arrives is stored from the cursor on. -/
theorem read_stored (heap : Heap) (hs : Invariant s) (hlen : len < 2 ^ 31)
    (incoming : ℕ → UInt8)
    (hfits : Fits (s.addCapaticy heap len).nodes
      (moves ssl 0 (entries (s.getWriteBuffers heap len)))) :
    ∃ rt u, read heap true s len (some ssl) incoming = .returned rt u ∧
      u.position = s.position + transferred ssl (entries (s.getWriteBuffers heap len)) ∧
      storage u = overwrite (storage (s.addCapaticy heap len)) s.position ((List.range
        (transferred ssl (entries (s.getWriteBuffers heap len)))).map incoming) := by
  rcases Nat.eq_zero_or_pos len with rfl | hl
  · exact ⟨0, s, rfl, rfl, (overwrite_nil _ _).symm⟩
  obtain ⟨vs, hentries, hsingle⟩ := first_entry heap hs hl
  obtain ⟨ht, hpos, -, hbase, hcap, -⟩ := addCapaticy_spec heap hs len
  have hin := (fits_iff ht.blocks).1 hfits
  rw [hentries, hbase] at hin
  obtain ⟨hunbroken, hmoves⟩ := moves_first hlen (fun m hm => (hin m hm).2) hsingle
  rw [← hentries] at hunbroken hmoves
  obtain ⟨rt, u, hreturned, hposition⟩ := (read_iff heap hs len incoming).2 ⟨hunbroken, hfits⟩
  refine ⟨rt, u, hreturned, hposition, ?_⟩
  obtain ⟨iovs, hbuffers, -⟩ := getWriteBuffers_entries heap hs len
  obtain ⟨block, -, -, hblock, -⟩ := current_block ht (by omega)
  simp only [read, hbuffers, Option.elim_some, Bool.not_true, Bool.false_eq_true, if_false]
    at hreturned
  rw [hbuffers, entries] at hmoves hfits ⊢
  generalize s.addCapaticy heap len = t at *
  rcases hmoves with hnone | ⟨r, hone⟩
  · rw [hnone, deliver] at hreturned
    rw [transferred, hnone, advance_storage ht hreturned]
    exact (overwrite_nil _ _).symm
  · rw [hone] at hreturned hfits
    obtain ⟨block', hblock', hle⟩ := hfits _ (List.mem_singleton_self _)
    rw [hpos, hbase] at hblock
    obtain rfl : block = block' := Option.some.inj (hblock.symm.trans hblock')
    simp only [deliver, hblock, if_pos hle] at hreturned
    generalize hnew : t.nodes.set (s.position / s.baseSize) (overwrite block
      (s.position % s.baseSize) ((List.range' 0 r).map incoming)) = new at hreturned
    rw [ht.blocks block (List.mem_of_getElem? hblock)] at hle
    rw [← hpos, ← hbase] at hblock hnew
    rw [← hpos] at hle
    obtain ⟨hinv, hflat⟩ := overwrite_cursor ht hblock (by simpa [hbase] using hle) hnew
    rw [advance_storage hinv hreturned, transferred, hone, ← hpos, storage, hflat]
    simp [total, List.range_eq_range']

end Receiving

/-- The result is the number of the bytes that were moved exactly where no call fails behind one
that moved some, and then the position of an array is behind them. -/
theorem ssl_accounting_iff (heap : Heap) {base : ℕ} (hb : 1 ≤ base) {s : ByteArrayState}
    (hr : Reachable heap base s) (ssl : Ssl) (buffers : List Iovec) (len : ℕ)
    (incoming : ℕ → UInt8) :
    (Counted ssl buffers (send (some ssl) buffers) ∧ Counted ssl buffers (recv (some ssl) buffers) ↔
      Unbroken ssl buffers) ∧
    (Advanced s (transferred ssl (entries (s.getReadBuffers len))) (write true s len (some ssl)) ↔
      Unbroken ssl (entries (s.getReadBuffers len))) ∧
    (Advanced s (transferred ssl (entries (s.getWriteBuffers heap len)))
        (read heap true s len (some ssl) incoming) ↔
      Unbroken ssl (entries (s.getWriteBuffers heap len)) ∧
        Fits (s.addCapaticy heap len).nodes
          (moves ssl 0 (entries (s.getWriteBuffers heap len)))) ∧
    (base < 2 ^ 31 → (moves ssl 0 (entries (s.getReadBuffers len))).flatMap
        (fun m => (positions base m.1).take m.2) =
      List.range' s.position (transferred ssl (entries (s.getReadBuffers len)))) ∧
    (len < 2 ^ 31 → Fits (s.addCapaticy heap len).nodes
        (moves ssl 0 (entries (s.getWriteBuffers heap len))) →
      ∃ rt u, read heap true s len (some ssl) incoming = .returned rt u ∧
        u.position = s.position + transferred ssl (entries (s.getWriteBuffers heap len)) ∧
        storage u = overwrite (storage (s.addCapaticy heap len)) s.position ((List.range
          (transferred ssl (entries (s.getWriteBuffers heap len)))).map incoming)) := by
  obtain ⟨hs, rfl⟩ := reachable_invariant hb hr
  refine ⟨?_, write_iff hs len, read_iff heap hs len incoming, fun hshort => ?_, fun hlen h => ?_⟩
  · rw [send, recv, counted_iff, and_self]
  · exact write_taken hs hshort len
  · exact read_stored heap hs hlen incoming h

/-- A library that moves all it is given takes two bytes from blocks of two. -/
theorem ssl_accounting_two_blocks :
    let ssl : Ssl := ⟨fun _ num => num, fun _ num => le_max_right 0 num⟩
    let s : ByteArrayState := ⟨2, 1, 4, 3, .big, [[1, 2], [3, 0]], some 0⟩
    (moves ssl 0 (entries (s.getReadBuffers 2))).flatMap
        (fun m => (positions 2 m.1).take m.2) =
      List.range' 1 (transferred ssl (entries (s.getReadBuffers 2))) :=
  (ssl_accounting_iff (fun _ _ => 0) (show 1 ≤ 2 by decide)
    (s := ⟨2, 1, 4, 3, .big, [[1, 2], [3, 0]], some 0⟩)
    ⟨[.write [1, 2, 3], .setPosition 1], [.done, .done], by decide⟩
    ⟨fun _ num => num, fun _ num => le_max_right 0 num⟩ [] 2 fun _ => 0).2.2.2.1 (by decide)

/-- The second of two calls fails, and four bytes are not counted. -/
theorem stalled_send : ¬ ∀ ssl buffers, Counted ssl buffers (send (some ssl) buffers) := by
  intro h
  have hfour : castInt 4 = 4 := castInt_of_lt (by decide)
  have hle (i : ℕ) (num : ℤ) : (if i = 0 then num else -1) ≤ max 0 num := by
    split_ifs <;> omega
  have hcounted := h ⟨fun i num => if i = 0 then num else -1, hle⟩ [⟨0, 0, 4⟩, ⟨1, 0, 4⟩]
  simp [Counted, transferred, moves, total, send, gatherLoop, hfour] at hcounted

end Array

end SslSocket
