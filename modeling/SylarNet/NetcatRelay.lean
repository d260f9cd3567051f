import SylarNet.StepRuns
import Mathlib.Data.Int.Notation
import Mathlib.Data.List.Basic
import Mathlib.Data.List.Nodup
import Mathlib.Logic.Function.Basic

/-!
# The relay of the non-blocking netcat

`relay` of `netcat_nonblocking.py`: back-pressure between stdin and the socket by registering
one or the other with `poll`. The model keeps Python's exceptions; stdout takes any text.
-/
namespace NetcatRelay

open StepRuns

inductive Descriptor where
  | sock
  | stdin
  deriving DecidableEq, Repr

/-- What is passed where a descriptor is expected: `sock.fileno()` or the method itself. -/
inductive FileArgument where
  | descriptor (fd : Descriptor)
  | method
  deriving DecidableEq, Repr

inductive Fault where
  | typeError
  | unicodeDecodeError
  | assertionError
  | keyError
  deriving DecidableEq, Repr

structure Mask where
  pollin : Bool
  pollout : Bool
  deriving DecidableEq, Repr

inductive Write where
  | wrote (nw : ℕ)
  | wouldBlock
  | failed
  deriving DecidableEq, Repr

/-- One pair of a poll result, with what the calls made for it meet. -/
structure PollEvent where
  fileno : Descriptor
  event : Mask
  /-- What `recv` or `os.read` returns; nothing at the end of the stream. -/
  data : List UInt8
  /-- What `os.write` to the socket does. -/
  write : Write
  deriving DecidableEq, Repr

/-- The variables of `relay`, the registrations of `poll`, and what went through so far. -/
structure State where
  socketEvents : Mask
  registered : Descriptor → Option Mask
  done : Bool
  socketoutputBuffer : List UInt8
  stdinEnded : Bool
  stdinRead : List UInt8
  socketWritten : List UInt8
  stdout : String

def initial : State :=
  { socketEvents := ⟨true, false⟩
    registered := fun _ => some ⟨true, false⟩
    done := false
    socketoutputBuffer := []
    stdinEnded := false
    stdinRead := []
    socketWritten := []
    stdout := "" }

def decode (data : List UInt8) : Option String := String.fromUTF8? ⟨data.toArray⟩

/-- The result of the call, `None` included, and the bytes that went out. Only an `OSError` is
caught. -/
def nonBlcokingWrite (fd : FileArgument) (w : Write) (data : List UInt8) :
    Except Fault (Option ℤ × List UInt8) :=
  match fd with
  | .method => .error .typeError
  | .descriptor _ =>
    match w with
    | .wrote nw => .ok (some nw, data.take nw)
    | .wouldBlock => .ok (some (-1), [])
    | .failed => .ok (none, [])

/-- Comparing `None` with a number raises. -/
def number : Option ℤ → Except Fault ℤ
  | none => .error .typeError
  | some nw => .ok nw

def registerPoll (s : State) (fd : Descriptor) (mask : Mask) : State :=
  { s with registered := Function.update s.registered fd (some mask) }

def unregisterPoll (s : State) (fd : Descriptor) : Except Fault State :=
  match s.registered fd with
  | none => .error .keyError
  | some _ => .ok { s with registered := Function.update s.registered fd none }

def socketInput (s : State) (data : List UInt8) : Except Fault State :=
  if data = [] then .ok { s with done := true }
  else
    match decode data with
    | none => .error .unicodeDecodeError
    | some text => .ok { s with stdout := s.stdout ++ text }

def stdinInput (s : State) (data : List UInt8) (w : Write) : Except Fault State :=
  if data = [] then unregisterPoll { s with stdinEnded := true } .stdin
  else if s.socketoutputBuffer ≠ [] then .error .assertionError
  else do
    let (result, sent) ← nonBlcokingWrite (.descriptor .sock) w data
    let nw ← number result
    let s := { s with
      stdinRead := s.stdinRead ++ data
      socketWritten := s.socketWritten ++ sent }
    if nw < data.length then
      let nw := if nw < 0 then 0 else nw
      let s := { s with
        socketoutputBuffer := data.drop nw.toNat
        socketEvents := { s.socketEvents with pollout := true } }
      unregisterPoll (registerPoll s .sock s.socketEvents) .stdin
    else .ok s

/-- The first argument of the write is the method, it is not called. -/
def socketOutput (s : State) (w : Write) : Except Fault State :=
  if s.socketoutputBuffer = [] then .error .assertionError
  else do
    let (result, sent) ← nonBlcokingWrite .method w s.socketoutputBuffer
    let nw ← number result
    let s := { s with socketWritten := s.socketWritten ++ sent }
    if nw < s.socketoutputBuffer.length then
      if nw ≤ 0 then .error .assertionError
      else .ok { s with socketoutputBuffer := s.socketoutputBuffer.drop nw.toNat }
    else
      let s := { s with
        socketoutputBuffer := []
        socketEvents := { s.socketEvents with pollout := false } }
      .ok (registerPoll (registerPoll s .sock s.socketEvents) .stdin ⟨true, false⟩)

/-- The body of the `for` loop. -/
def handle (s : State) (e : PollEvent) : Except Fault State := do
  let s ←
    if e.event.pollin then
      match e.fileno with
      | .sock => socketInput s e.data
      | .stdin => stdinInput s e.data e.write
    else .ok s
  if e.event.pollout then
    match e.fileno with
    | .sock => socketOutput s e.write
    | .stdin => .ok s
  else .ok s

/-- One pass of the `while` loop; it ends the run when it raises. -/
def pass (s : State) (events : List PollEvent) : Option (Unit × State) :=
  match events.foldlM handle s with
  | .error _ => none
  | .ok t => some ((), t)

/-- What a poll event can say about a descriptor in this state, and what the calls then do:
socket writes may be short or block after an input event and take something after an output
event. -/
structure Possible (s : State) (e : PollEvent) : Prop where
  reported : ∃ mask, s.registered e.fileno = some mask ∧
    (e.event.pollin → mask.pollin) ∧ (e.event.pollout → mask.pollout)
  chunk : e.data.length ≤ 8192
  input_write : e.fileno = .stdin → e.write = .wouldBlock ∨
    ∃ nw, e.write = .wrote nw ∧ nw ≤ e.data.length
  output_write : e.fileno = .sock → e.event.pollout → ∃ nw, e.write = .wrote nw ∧
    0 < nw ∧ nw ≤ s.socketoutputBuffer.length

/-- The poll results that the loop can meet; a descriptor is reported once. -/
structure PollResult (s : State) (events : List PollEvent) : Prop where
  running : s.done = false
  once : (events.map PollEvent.fileno).Nodup
  possible : ∀ e ∈ events, Possible s e

/-- What the relay promises at the loop boundary. -/
structure Intact (s : State) : Prop where
  nothing_lost : s.socketWritten ++ s.socketoutputBuffer = s.stdinRead
  pollout_iff : s.socketoutputBuffer ≠ [] ↔ (s.registered .sock).any Mask.pollout
  stdin_iff : (s.registered .stdin).isSome ↔ s.socketoutputBuffer = [] ∧ s.stdinEnded = false

/-- The socket is registered with the mask of the variable, stdin for input only. -/
structure Registrations (s : State) : Prop where
  sock : s.registered .sock = some s.socketEvents
  pollin : s.socketEvents.pollin = true
  stdin : ∀ mask, s.registered .stdin = some mask → mask = ⟨true, false⟩

/-- No output event for the socket, and what it sends is text. -/
def Clean (events : List PollEvent) : Prop :=
  ∀ e ∈ events, e.fileno = .sock →
    e.event.pollout = false ∧ (e.event.pollin → (decode e.data).isSome)

/-! The two ways in which the handling of an event raises, whatever the state. -/

theorem socketOutput_raises (s : State) (w : Write) : ∃ fault, socketOutput s w = .error fault := by
  rw [socketOutput]
  split
  · exact ⟨.assertionError, rfl⟩
  · exact ⟨.typeError, rfl⟩

theorem decode_nil : (decode []).isSome = true := by
  decide

theorem socketInput_ok_iff (s : State) (data : List UInt8) :
    (∃ t, socketInput s data = .ok t) ↔ (decode data).isSome := by
  rw [socketInput]
  split
  · rename_i h
    rw [h]
    exact iff_of_true ⟨_, rfl⟩ decode_nil
  · cases decode data with
    | none => simp
    | some text => simp

theorem handle_sock_raises {s : State} {e : PollEvent} (he : e.fileno = .sock)
    (hclean : ¬ (e.event.pollout = false ∧ (e.event.pollin → (decode e.data).isSome))) :
    ∃ fault, handle s e = .error fault := by
  simp only [handle, he]
  cases hin : e.event.pollin with
  | false =>
    have hout : e.event.pollout = true := by simpa [hin] using hclean
    simp only [hout, if_true]
    exact socketOutput_raises s e.write
  | true =>
    simp only [if_true]
    cases hok : socketInput s e.data with
    | error fault => exact ⟨fault, rfl⟩
    | ok t =>
      have htext := (socketInput_ok_iff s e.data).1 ⟨t, hok⟩
      have hout : e.event.pollout = true := by simpa [hin, htext] using hclean
      simp only [hout, if_true]
      exact socketOutput_raises t e.write

/-- A clean event for the socket changes neither the buffer nor a registration. -/
theorem handle_sock {s : State} {e : PollEvent} (he : e.fileno = .sock)
    (hout : e.event.pollout = false) (htext : e.event.pollin → (decode e.data).isSome) :
    ∃ done stdout, handle s e = .ok { s with done := done, stdout := stdout } := by
  simp only [handle, he, hout]
  cases hin : e.event.pollin with
  | false => exact ⟨s.done, s.stdout, rfl⟩
  | true =>
    simp only [if_true, socketInput]
    by_cases hdata : e.data = []
    · rw [if_pos hdata]
      exact ⟨true, s.stdout, rfl⟩
    · obtain ⟨text, hdecode⟩ := Option.isSome_iff_exists.1 (htext hin)
      rw [if_neg hdata, hdecode]
      exact ⟨s.done, s.stdout ++ text, rfl⟩

/-- After `k` bytes of a chunk went out, the rest waits for the socket instead of stdin. -/
def paused (s : State) (data : List UInt8) (k : ℕ) : State :=
  { s with
    stdinRead := s.stdinRead ++ data
    socketWritten := s.socketWritten ++ data.take k
    socketoutputBuffer := data.drop k
    socketEvents := { s.socketEvents with pollout := true }
    registered := Function.update
      (Function.update s.registered .sock (some { s.socketEvents with pollout := true }))
      .stdin none }

/-- A blocked write is a short write of nothing. -/
theorem stdinInput_eq {s : State} {data : List UInt8} {w : Write}
    (hstdin : (s.registered .stdin).isSome) (hdata : data ≠ [])
    (hbuffer : s.socketoutputBuffer = [])
    (hw : w = .wouldBlock ∨ ∃ nw, w = .wrote nw ∧ nw ≤ data.length) :
    stdinInput s data w = .ok { s with
        stdinRead := s.stdinRead ++ data
        socketWritten := s.socketWritten ++ data } ∨
      ∃ k, k < data.length ∧ stdinInput s data w = .ok (paused s data k) := by
  obtain ⟨mask, hmask⟩ := Option.isSome_iff_exists.1 hstdin
  have hpos : 0 < data.length := List.length_pos_iff.2 hdata
  rw [stdinInput, if_neg hdata, if_neg (not_not.2 hbuffer)]
  rcases hw with rfl | ⟨nw, rfl, hle⟩
  · right
    refine ⟨0, hpos, ?_⟩
    have hblocked : (-1 : ℤ) < data.length := by omega
    simp [nonBlcokingWrite, number, unregisterPoll, registerPoll, hmask, paused, bind,
      Except.bind, hblocked]
  · by_cases hshort : nw < data.length
    · right
      refine ⟨nw, hshort, ?_⟩
      have hnat : ¬ ((nw : ℤ) < 0) := by omega
      simp [nonBlcokingWrite, number, unregisterPoll, registerPoll, hmask, paused, bind,
        Except.bind, hshort, hnat]
    · left
      have hfull : data.take nw = data := List.take_of_length_le (by omega)
      simp [nonBlcokingWrite, number, bind, Except.bind, hshort, hfull]

theorem intact_paused {s : State} {data : List UInt8} {k : ℕ} (hs : Intact s)
    (hbuffer : s.socketoutputBuffer = []) (hk : k < data.length) : Intact (paused s data k) := by
  have hrest : data.drop k ≠ [] := by
    rw [Ne, List.drop_eq_nil_iff]
    omega
  have hwritten : s.socketWritten = s.stdinRead := by simpa [hbuffer] using hs.nothing_lost
  refine ⟨?_, ?_, ?_⟩
  · simp [paused, hwritten]
  · simpa [paused] using hrest
  · refine iff_of_false ?_ (fun h => hrest h.1)
    simp [paused]

theorem registrations_paused {s : State} {data : List UInt8} {k : ℕ} (hr : Registrations s) :
    Registrations (paused s data k) := by
  refine ⟨?_, hr.pollin, ?_⟩
  · simp [paused]
  · simp [paused]

/-- What a read from stdin and the write of it to the socket leave behind. -/
theorem stdinInput_intact {s : State} {data : List UInt8} {w : Write} (hs : Intact s)
    (hr : Registrations s) (hstdin : (s.registered .stdin).isSome)
    (hw : w = .wouldBlock ∨ ∃ nw, w = .wrote nw ∧ nw ≤ data.length) :
    ∃ t, stdinInput s data w = .ok t ∧ Intact t ∧ Registrations t := by
  obtain ⟨hbuffer, hended⟩ := hs.stdin_iff.1 hstdin
  by_cases hdata : data = []
  · obtain ⟨mask, hmask⟩ := Option.isSome_iff_exists.1 hstdin
    refine ⟨_, by rw [stdinInput, if_pos hdata, unregisterPoll, hmask], ?_, ?_⟩
    · exact ⟨hs.nothing_lost, by simpa using hs.pollout_iff, by simp⟩
    · exact ⟨by simpa using hr.sock, hr.pollin, by simp⟩
  · rcases stdinInput_eq hstdin hdata hbuffer hw with h | ⟨k, hk, h⟩
    · refine ⟨_, h, ⟨?_, hs.pollout_iff, hs.stdin_iff⟩, ⟨hr.sock, hr.pollin, hr.stdin⟩⟩
      have hwritten := hs.nothing_lost
      rw [hbuffer, List.append_nil] at hwritten
      simp [hbuffer, hwritten]
    · exact ⟨_, h, intact_paused hs hbuffer hk, registrations_paused hr⟩

/-- An event for stdin is always handled. -/
theorem handle_stdin {s : State} {e : PollEvent} (hs : Intact s) (hr : Registrations s)
    (he : e.fileno = .stdin) (hstdin : (s.registered .stdin).isSome)
    (hw : e.write = .wouldBlock ∨ ∃ nw, e.write = .wrote nw ∧ nw ≤ e.data.length) :
    ∃ t, handle s e = .ok t ∧ Intact t ∧ Registrations t := by
  simp only [handle, he, ite_self]
  cases hin : e.event.pollin with
  | false => exact ⟨s, rfl, hs, hr⟩
  | true =>
    obtain ⟨t, ht, hok⟩ := stdinInput_intact hs hr hstdin hw
    exact ⟨t, by simp only [if_true, ht]; rfl, hok⟩

/-! One pass handles the events in turn; what the poll said of the rest still holds, as a
descriptor comes once and only an event for stdin changes a registration. -/

theorem foldlM_intact {events : List PollEvent} {s : State} (hs : Intact s)
    (hr : Registrations s) (honce : (events.map PollEvent.fileno).Nodup)
    (hstdin : ∀ e ∈ events, e.fileno = .stdin → (s.registered .stdin).isSome ∧
      (e.write = .wouldBlock ∨ ∃ nw, e.write = .wrote nw ∧ nw ≤ e.data.length))
    (hclean : Clean events) :
    ∃ t, events.foldlM handle s = .ok t ∧ Intact t ∧ Registrations t := by
  induction events generalizing s with
  | nil => exact ⟨s, rfl, hs, hr⟩
  | cons e events ih =>
    rw [List.map_cons, List.nodup_cons] at honce
    rw [Clean, List.forall_mem_cons] at hclean
    rw [List.forall_mem_cons] at hstdin
    rw [List.foldlM_cons]
    cases he : e.fileno with
    | sock =>
      obtain ⟨hout, htext⟩ := hclean.1 he
      obtain ⟨done, stdout, hok⟩ := handle_sock (s := s) he hout htext
      rw [hok]
      refine ih (s := { s with done := done, stdout := stdout }) ?_ ?_ honce.2 hstdin.2 hclean.2
      · exact ⟨hs.nothing_lost, hs.pollout_iff, hs.stdin_iff⟩
      · exact ⟨hr.sock, hr.pollin, hr.stdin⟩
    | stdin =>
      obtain ⟨hreg, hw⟩ := hstdin.1 he
      obtain ⟨t, hok, ht, htr⟩ := handle_stdin hs hr he hreg hw
      rw [hok]
      refine ih ht htr honce.2 ?_ hclean.2
      intro e' he' heq
      exact absurd (List.mem_map.2 ⟨e', he', heq.trans he.symm⟩) honce.1

theorem clean_of_foldlM {events : List PollEvent} {s t : State}
    (h : events.foldlM handle s = .ok t) : Clean events := by
  induction events generalizing s with
  | nil => exact fun e he => absurd he (List.not_mem_nil)
  | cons e events ih =>
    rw [List.foldlM_cons] at h
    cases hok : handle s e with
    | error fault => rw [hok] at h; cases h
    | ok u =>
      rw [hok] at h
      rw [Clean, List.forall_mem_cons]
      refine ⟨?_, ih h⟩
      intro he
      by_contra hclean
      obtain ⟨fault, hraise⟩ := handle_sock_raises (s := s) he hclean
      cases hok.symm.trans hraise

theorem pass_eq_some {s t : State} {events : List PollEvent} {o : Unit} :
    pass s events = some (o, t) ↔ events.foldlM handle s = .ok t := by
  rw [pass]
  cases events.foldlM handle s with
  | error fault => simp
  | ok u => simp

theorem intact_initial : Intact initial := by
  constructor <;> simp [initial]

theorem registrations_initial : Registrations initial := by
  constructor <;> simp [initial]

theorem PollResult.stdin {s : State} {events : List PollEvent} (hpoll : PollResult s events) :
    ∀ e ∈ events, e.fileno = .stdin → (s.registered .stdin).isSome ∧
      (e.write = .wouldBlock ∨ ∃ nw, e.write = .wrote nw ∧ nw ≤ e.data.length) := by
  intro e he heq
  obtain ⟨mask, hmask, -⟩ := (hpoll.possible e he).reported
  refine ⟨?_, (hpoll.possible e he).input_write heq⟩
  rw [← heq, hmask]
  rfl

/-- A pass that the poll result allows keeps the promise exactly when its events are clean. -/
theorem pass_intact_iff {s : State} {events : List PollEvent} (hs : Intact s)
    (hr : Registrations s) (hpoll : PollResult s events) :
    (∃ o t, pass s events = some (o, t) ∧ Intact t) ↔ Clean events := by
  constructor
  · rintro ⟨o, t, hpass, -⟩
    exact clean_of_foldlM (pass_eq_some.1 hpass)
  · intro hclean
    obtain ⟨t, hok, ht, -⟩ := foldlM_intact hs hr hpoll.once hpoll.stdin hclean
    exact ⟨(), t, pass_eq_some.2 hok, ht⟩

theorem pass_keeps {s t : State} {events : List PollEvent} {o : Unit}
    (hs : Intact s ∧ Registrations s) (hpoll : PollResult s events)
    (hpass : pass s events = some (o, t)) : Intact t ∧ Registrations t := by
  have hok := pass_eq_some.1 hpass
  obtain ⟨u, hok', hu⟩ := foldlM_intact hs.1 hs.2 hpoll.once hpoll.stdin (clean_of_foldlM hok)
  cases hok.symm.trans hok'
  exact hu

/-- In every run over possible poll results: the relay does not raise and keeps its promise at
every loop boundary exactly when the socket never reports output and only sends text. -/
theorem relay_intact_iff_clean (polls : List (List PollEvent))
    (hpolls : Guarded PollResult pass initial polls) :
    (∀ n, ∃ os t, run pass initial (polls.take n) = some (os, t) ∧ Intact t) ↔
      ∀ events ∈ polls, Clean events := by
  have hinitial : Intact initial ∧ Registrations initial :=
    ⟨intact_initial, registrations_initial⟩
  have hguarded := forall_run_total_iff_guarded (I := fun s => Intact s ∧ Registrations s)
    (P := Intact) (fun s events o t => pass_keeps)
    (fun s events hs _ hpoll => pass_intact_iff hs.1 hs.2 hpoll)
    hinitial intact_initial hpolls
  rw [hguarded]
  constructor
  · intro hclean
    obtain ⟨os, t, hrun, -⟩ := hguarded.2 hclean polls.length
    rw [List.take_length] at hrun
    exact (guarded_iff_forall hrun).1 hclean
  · intro hclean
    exact guarded_of_forall fun events hmem _ => hclean events hmem

/-- Two bytes of input of which the socket takes one. -/
def shortWrite : PollEvent := ⟨.stdin, ⟨true, false⟩, [104, 105], .wrote 1⟩

/-- The socket is ready for the rest. -/
def outputReady : PollEvent := ⟨.sock, ⟨false, true⟩, [], .wrote 1⟩

theorem pass_shortWrite : pass initial [shortWrite] = some ((), paused initial [104, 105] 1) := rfl

theorem pollResult_shortWrite : PollResult initial [shortWrite] := by
  refine ⟨rfl, List.nodup_singleton _, ?_⟩
  intro e he
  rw [List.mem_singleton.1 he]
  exact ⟨⟨⟨true, false⟩, rfl, by decide, by decide⟩, by decide,
    fun _ => Or.inr ⟨1, rfl, by decide⟩, fun h => by cases h⟩

theorem pollResult_outputReady : PollResult (paused initial [104, 105] 1) [outputReady] := by
  refine ⟨rfl, List.nodup_singleton _, ?_⟩
  intro e he
  rw [List.mem_singleton.1 he]
  exact ⟨⟨⟨true, true⟩, rfl, by decide, by decide⟩, by decide, fun h => (by cases h),
    fun _ _ => ⟨1, rfl, by decide, by decide⟩⟩

/-- After a short write the relay raises as soon as the socket is ready again. -/
theorem relay_raises_on_pollout :
    ¬ ∀ polls, Guarded PollResult pass initial polls →
      ∀ n, ∃ os t, run pass initial (polls.take n) = some (os, t) ∧ Intact t := by
  intro h
  have hpolls : Guarded PollResult pass initial [[shortWrite], [outputReady]] := by
    refine ⟨pollResult_shortWrite, ?_⟩
    intro o t hpass
    cases pass_shortWrite.symm.trans hpass
    exact ⟨pollResult_outputReady, fun _ _ _ => trivial⟩
  obtain ⟨os, t, hrun, -⟩ := h _ hpolls 2
  cases (show run pass initial [[shortWrite], [outputReady]] = none from rfl).symm.trans hrun

/-- A short write alone is taken care of. -/
theorem relay_intact_shortWrite :
    ∃ os t, run pass initial [[shortWrite]] = some (os, t) ∧ Intact t := by
  have hclean : ∀ events ∈ [[shortWrite]], Clean events := by
    intro events he e hmem heq
    rw [List.mem_singleton.1 he, List.mem_singleton] at hmem
    rw [hmem] at heq
    cases heq
  exact (relay_intact_iff_clean [[shortWrite]]
    ⟨pollResult_shortWrite, fun _ _ _ => trivial⟩).2 hclean 1

end NetcatRelay
