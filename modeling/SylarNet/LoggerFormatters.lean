import Mathlib.Data.Fintype.Basic
import Mathlib.Data.List.Induction
import Mathlib.Logic.Function.Basic
import SylarNet.LogFormatter
import SylarNet.StepRuns

/-!
# The formatters of loggers and appenders

A logger gives its formatter to the appenders that have none of their own, when they are added and
when it is set anew. A pattern is only installed if the formatter *in place* has no error, and an
appender keeps an inherited formatter wherever it goes.
-/
namespace LoggerFormatters

open SylarHttp (bytes)
open StepRuns

variable {ι α : Type*}

/-- A `LogFormatter` never changes; two of one pattern are told apart by where they are. -/
structure Formatter where
  address : ℕ
  m_pattern : List UInt8
  deriving DecidableEq, Repr

def Formatter.isError (formatter : Formatter) : Bool :=
  (LogFormatter.init formatter.m_pattern).2

structure LogAppender where
  m_formatter : Option Formatter
  m_hasFormatter : Bool
  deriving DecidableEq, Repr

structure Logger (α : Type*) where
  m_appenders : List α
  m_formatter : Option Formatter

structure State (ι α : Type*) where
  loggers : ι → Logger α
  appenders : α → LogAppender

def defaultPattern : List UInt8 :=
  bytes "%d{%Y-%m-%d %H:%M:%S}%T%t%T%N%T%F%T[%p]%T[%c]%T%f:%l%T%m%n"

def Logger.new (address : ℕ) : Logger α := ⟨[], some ⟨address, defaultPattern⟩⟩

def LogAppender.new : LogAppender := ⟨none, false⟩

/-- Every logger has a default formatter of its own. -/
def initial (address : ι → ℕ) : State ι α :=
  ⟨fun l => Logger.new (address l), fun _ => LogAppender.new⟩

/-- The body of the loop over the appenders of a logger. -/
def LogAppender.inherit (formatter : Option Formatter) (a : LogAppender) : LogAppender :=
  if a.m_hasFormatter = false then { a with m_formatter := formatter } else a

def inheritAll [DecidableEq α] (formatter : Option Formatter) (m_appenders : List α)
    (appenders : α → LogAppender) : α → LogAppender :=
  m_appenders.foldl (fun as a => Function.update as a ((as a).inherit formatter)) appenders

/-- `Logger::setFormatter` of a pointer. -/
def setFormatter [DecidableEq ι] [DecidableEq α] (s : State ι α) (l : ι)
    (formatter : Option Formatter) : State ι α where
  loggers := Function.update s.loggers l { s.loggers l with m_formatter := formatter }
  appenders := inheritAll formatter (s.loggers l).m_appenders s.appenders

/-- `Logger::setFormatter` of a pattern, whose formatter is allocated at `address`. -/
def setPattern [DecidableEq ι] [DecidableEq α] (s : State ι α) (l : ι) (address : ℕ)
    (pattern : List UInt8) : Option (State ι α) :=
  let formatter : Formatter := ⟨address, pattern⟩
  match (s.loggers l).m_formatter with
  | none => none
  | some m_formatter =>
    if m_formatter.isError then some s else some (setFormatter s l (some formatter))

def addAppender [DecidableEq ι] [DecidableEq α] (s : State ι α) (l : ι) (appender : α) :
    State ι α where
  loggers := Function.update s.loggers l
    { s.loggers l with m_appenders := (s.loggers l).m_appenders ++ [appender] }
  appenders :=
    if (s.appenders appender).m_formatter = none then
      Function.update s.appenders appender
        { s.appenders appender with m_formatter := (s.loggers l).m_formatter }
    else s.appenders

/-- The first occurrence is erased. -/
def delAppender [DecidableEq ι] [DecidableEq α] (s : State ι α) (l : ι) (appender : α) :
    State ι α :=
  { s with
    loggers := Function.update s.loggers l
      { s.loggers l with m_appenders := (s.loggers l).m_appenders.erase appender } }

def clearAppenders [DecidableEq ι] (s : State ι α) (l : ι) : State ι α :=
  { s with loggers := Function.update s.loggers l { s.loggers l with m_appenders := [] } }

/-- `LogAppender::setFormatter` -/
def setAppenderFormatter [DecidableEq α] (s : State ι α) (appender : α)
    (formatter : Option Formatter) : State ι α :=
  { s with appenders := Function.update s.appenders appender ⟨formatter, formatter.isSome⟩ }

section Fields

variable [DecidableEq ι] {s : State ι α} {l l' : ι} {a b : α} {formatter : Option Formatter}

/-- What an update of one logger leaves as it is in that one, it leaves in all of them. -/
theorem update_keeps {β : Type*} (f : Logger α → β) {loggers : ι → Logger α} {x : Logger α}
    (h : f x = f (loggers l)) (l' : ι) : f (Function.update loggers l x l') = f (loggers l') := by
  by_cases hl : l' = l
  · subst hl
    rw [Function.update_self, h]
  · rw [Function.update_of_ne hl]

theorem mem_of_mem_update {loggers : ι → Logger α} {x : Logger α}
    (hx : ∀ b ∈ x.m_appenders, b ∈ (loggers l).m_appenders)
    (h : b ∈ (Function.update loggers l x l').m_appenders) : b ∈ (loggers l').m_appenders := by
  by_cases hl : l' = l
  · subst hl
    rw [Function.update_self] at h
    exact hx b h
  · rwa [Function.update_of_ne hl] at h

theorem mem_clearAppenders (h : b ∈ ((clearAppenders s l).loggers l').m_appenders) :
    b ∈ (s.loggers l').m_appenders :=
  mem_of_mem_update (fun _ hb => absurd hb List.not_mem_nil) h

@[simp] theorem clearAppenders_formatter :
    ((clearAppenders s l).loggers l').m_formatter = (s.loggers l').m_formatter := by
  apply update_keeps Logger.m_formatter
  rfl

theorem inherit_inherit (x : LogAppender) :
    (x.inherit formatter).inherit formatter = x.inherit formatter := by
  cases hown : x.m_hasFormatter <;> simp [LogAppender.inherit, hown]

variable [DecidableEq α]

/-- However often an appender is in the list, it inherits once. -/
theorem inheritAll_apply (m_appenders : List α) (appenders : α → LogAppender) (a : α) :
    inheritAll formatter m_appenders appenders a =
      if a ∈ m_appenders then (appenders a).inherit formatter else appenders a := by
  induction m_appenders generalizing appenders with
  | nil => rfl
  | cons b rest ih =>
    have hstep : inheritAll formatter (b :: rest) appenders =
        inheritAll formatter rest
          (Function.update appenders b ((appenders b).inherit formatter)) := rfl
    rw [hstep, ih]
    by_cases hab : a = b
    · subst hab
      simp [inherit_inherit]
    · simp [hab]

@[simp] theorem setFormatter_appenders :
    ((setFormatter s l formatter).loggers l').m_appenders = (s.loggers l').m_appenders := by
  apply update_keeps Logger.m_appenders
  rfl

theorem setFormatter_formatter : ((setFormatter s l formatter).loggers l').m_formatter =
    if l' = l then formatter else (s.loggers l').m_formatter := by
  by_cases hl : l' = l
  · subst hl
    simp [setFormatter]
  · simp [setFormatter, hl]

theorem setFormatter_appender : (setFormatter s l formatter).appenders a =
    if a ∈ (s.loggers l).m_appenders then (s.appenders a).inherit formatter
    else s.appenders a :=
  inheritAll_apply _ _ _

theorem mem_addAppender : b ∈ ((addAppender s l a).loggers l').m_appenders ↔
    b ∈ (s.loggers l').m_appenders ∨ l' = l ∧ b = a := by
  by_cases hl : l' = l
  · subst hl
    simp [addAppender]
  · simp [addAppender, hl]

@[simp] theorem addAppender_formatter :
    ((addAppender s l a).loggers l').m_formatter = (s.loggers l').m_formatter := by
  apply update_keeps Logger.m_formatter
  rfl

theorem addAppender_self : (addAppender s l a).appenders a =
    if (s.appenders a).m_formatter = none then
      { s.appenders a with m_formatter := (s.loggers l).m_formatter }
    else s.appenders a := by
  simp only [addAppender]
  split_ifs <;> simp

theorem addAppender_other (h : b ≠ a) : (addAppender s l a).appenders b = s.appenders b := by
  simp only [addAppender]
  split_ifs <;> simp [h]

theorem mem_delAppender (h : b ∈ ((delAppender s l a).loggers l').m_appenders) :
    b ∈ (s.loggers l').m_appenders :=
  mem_of_mem_update (fun _ hb => List.mem_of_mem_erase hb) h

@[simp] theorem delAppender_formatter :
    ((delAppender s l a).loggers l').m_formatter = (s.loggers l').m_formatter := by
  apply update_keeps Logger.m_formatter
  rfl

end Fields

section Patterns

variable [DecidableEq ι] {s : State ι α} {l : ι}

/-- The logger with the formatter that it is constructed with. -/
def constructed (s : State ι α) (l : ι) (address : ℕ) : State ι α :=
  { s with
    loggers := Function.update s.loggers l
      { s.loggers l with m_formatter := some ⟨address, defaultPattern⟩ } }

theorem constructed_formatter (s : State ι α) (l : ι) (address : ℕ) :
    ((constructed s l address).loggers l).m_formatter = some ⟨address, defaultPattern⟩ := by
  simp [constructed]

variable [DecidableEq α]

/-- Calls of `setFormatter` on one logger: where the formatter is allocated, and the pattern. -/
def patternStep (l : ι) (s : State ι α) (call : ℕ × List UInt8) : Option (Unit × State ι α) :=
  (setPattern s l call.1 call.2).map fun t => ((), t)

def accepted (pattern : List UInt8) : Bool := !(LogFormatter.init pattern).2

/-- The last pattern that is accepted, or the default one. -/
def lastAccepted (calls : List (ℕ × List UInt8)) : List UInt8 :=
  (((calls.map Prod.snd).filter accepted).getLast?).getD defaultPattern

/-- What a call is to do to the state. -/
def Respects (l : ι) (s t : State ι α) (call : ℕ × List UInt8) : Prop :=
  if accepted call.2 then t = setFormatter s l (some ⟨call.1, call.2⟩) else t = s

/-- After every call the last accepted pattern is in place; no other call changes anything. -/
structure Validated (s : State ι α) (l : ι) (calls : List (ℕ × List UInt8)) : Prop where
  pattern : ∀ n, ∃ os t formatter, run (patternStep l) s (calls.take n) = some (os, t) ∧
    (t.loggers l).m_formatter = some formatter ∧
    formatter.m_pattern = lastAccepted (calls.take n)
  call : ∀ front call rest os t, calls = front ++ call :: rest →
    run (patternStep l) s front = some (os, t) →
    ∃ u, patternStep l t call = some ((), u) ∧ Respects l t u call

theorem defaultPattern_accepted : accepted defaultPattern = true := by decide

theorem accepted_iff {address : ℕ} {pattern : List UInt8} :
    accepted pattern = true ↔ (⟨address, pattern⟩ : Formatter).isError = false := by
  simp [accepted, Formatter.isError]

theorem patternStep_installs {formatter : Formatter}
    (h : (s.loggers l).m_formatter = some formatter) (hok : formatter.isError = false)
    (call : ℕ × List UInt8) :
    patternStep l s call = some ((), setFormatter s l (some ⟨call.1, call.2⟩)) := by
  simp [patternStep, setPattern, h, hok]

/-- While the patterns are accepted, each is installed. -/
theorem run_accepted {calls : List (ℕ × List UInt8)} {formatter : Formatter}
    (hcalls : ∀ call ∈ calls, accepted call.2 = true)
    (h : (s.loggers l).m_formatter = some formatter) (hok : formatter.isError = false) :
    ∃ os t last, run (patternStep l) s calls = some (os, t) ∧
      (t.loggers l).m_formatter = some last ∧ last.isError = false ∧
      last.m_pattern = ((calls.map Prod.snd).getLast?).getD formatter.m_pattern := by
  induction calls generalizing s formatter with
  | nil => exact ⟨[], s, formatter, rfl, h, hok, rfl⟩
  | cons call calls ih =>
    rw [List.forall_mem_cons] at hcalls
    obtain ⟨hcall, hrest⟩ := hcalls
    have hnext : ((setFormatter s l (some ⟨call.1, call.2⟩)).loggers l).m_formatter =
        some ⟨call.1, call.2⟩ := by
      rw [setFormatter_formatter, if_pos rfl]
    obtain ⟨os, t, last, hrun, hlast, herror, hpattern⟩ :=
      ih hrest hnext (accepted_iff.1 hcall)
    refine ⟨() :: os, t, last, ?_, hlast, herror, ?_⟩
    · rw [run_cons calls (patternStep_installs h hok call), hrun]
      rfl
    · rw [hpattern, List.map_cons, List.getLast?_cons]
      rfl

theorem accepted_of_validated {calls : List (ℕ × List UInt8)} {address : ℕ}
    (h : Validated (constructed s l address) l calls) (front rest : List (ℕ × List UInt8))
    (hcalls : calls = front ++ rest) : ∀ call ∈ front, accepted call.2 = true := by
  induction front using List.reverseRecOn generalizing rest with
  | nil => simp
  | append_singleton front call ih =>
    have hfront := ih (call :: rest) (by simpa using hcalls)
    obtain ⟨os, t, last, hrun, hlast, hok, -⟩ := run_accepted hfront
      (constructed_formatter s l address) (accepted_iff.1 defaultPattern_accepted)
    obtain ⟨u, hstep, hrespects⟩ := h.call front call rest os t (by simpa using hcalls) hrun
    rw [List.forall_mem_append, List.forall_mem_singleton]
    refine ⟨hfront, ?_⟩
    by_contra hnot
    rw [Respects, if_neg hnot] at hrespects
    subst hrespects
    -- the call is rejected, and yet its formatter is in place
    rw [patternStep_installs hlast hok, Option.some.injEq, Prod.mk.injEq] at hstep
    have hcall : ((setFormatter u l (some ⟨call.1, call.2⟩)).loggers l).m_formatter =
        some ⟨call.1, call.2⟩ := by
      rw [setFormatter_formatter, if_pos rfl]
    rw [hstep.2, hlast, Option.some.injEq] at hcall
    subst hcall
    exact hnot (accepted_iff.2 hok)

theorem lastAccepted_of_forall {calls : List (ℕ × List UInt8)}
    (h : ∀ call ∈ calls, accepted call.2 = true) :
    lastAccepted calls = ((calls.map Prod.snd).getLast?).getD defaultPattern := by
  rw [lastAccepted, List.filter_eq_self.2]
  intro pattern hmem
  obtain ⟨call, hcall, rfl⟩ := List.mem_map.1 hmem
  exact h call hcall

/-- Every call does what it is to do exactly if no pattern is rejected. -/
theorem patterns_validated_iff (s : State ι α) (l : ι) (address : ℕ)
    (calls : List (ℕ × List UInt8)) : Validated (constructed s l address) l calls ↔
      ∀ call ∈ calls, accepted call.2 = true := by
  have hnew := constructed_formatter s l address
  have hdefault : (⟨address, defaultPattern⟩ : Formatter).isError = false :=
    accepted_iff.1 defaultPattern_accepted
  constructor
  · intro h
    exact accepted_of_validated h calls [] (List.append_nil calls).symm
  · intro h
    constructor
    · intro n
      have hn : ∀ call ∈ calls.take n, accepted call.2 = true :=
        fun call hmem => h call (List.mem_of_mem_take hmem)
      obtain ⟨os, t, last, hrun, hlast, -, hpattern⟩ := run_accepted hn hnew hdefault
      exact ⟨os, t, last, hrun, hlast, by rw [hpattern, lastAccepted_of_forall hn]⟩
    · intro front call rest os t hcalls hrun
      rw [hcalls, List.forall_mem_append, List.forall_mem_cons] at h
      obtain ⟨hfront, hcall, -⟩ := h
      obtain ⟨os', t', last, hrun', hlast, hok, -⟩ := run_accepted hfront hnew hdefault
      cases hrun.symm.trans hrun'
      exact ⟨_, patternStep_installs hlast hok call, by rw [Respects, if_pos hcall]⟩

/-- `%q` has no item, and is in place at once. -/
theorem unknown_installed : ¬ ∀ (s : State Unit Unit) (l : Unit) (address : ℕ)
    (calls : List (ℕ × List UInt8)), Validated (constructed s l address) l calls := by
  intro h
  have hvalid := h (initial fun _ => 0) () 0 [(1, bytes "%q")]
  have haccepted := accepted_of_validated hvalid [(1, bytes "%q")] [] rfl
  exact absurd (haccepted (1, bytes "%q") (by simp)) (by decide)

/-- From then on no pattern is installed. -/
theorem run_blocked {formatter : Formatter} (h : (s.loggers l).m_formatter = some formatter)
    (herror : formatter.isError = true) (calls : List (ℕ × List UInt8)) :
    ∃ os, run (patternStep l) s calls = some (os, s) := by
  induction calls with
  | nil => exact ⟨[], rfl⟩
  | cons call calls ih =>
    obtain ⟨os, hrun⟩ := ih
    have hstep : patternStep l s call = some ((), s) := by simp [patternStep, setPattern, h, herror]
    exact ⟨() :: os, by rw [run_cons calls hstep, hrun]; rfl⟩

end Patterns

section Inheritance

inductive Op (ι α : Type*) where
  | addAppender (l : ι) (appender : α)
  | delAppender (l : ι) (appender : α)
  | clearAppenders (l : ι)
  | setFormatter (l : ι) (formatter : Formatter)
  | setAppenderFormatter (appender : α) (formatter : Option Formatter)
  deriving DecidableEq

/-- No appender is in two loggers. -/
def Apart (s : State ι α) : Prop :=
  ∀ a l l', a ∈ (s.loggers l).m_appenders → a ∈ (s.loggers l').m_appenders → l = l'

/-- What `log` relies on when it dereferences the formatter of an appender. -/
def Inherited (s : State ι α) : Prop :=
  ∀ l, ∀ a ∈ (s.loggers l).m_appenders, (s.appenders a).m_formatter ≠ none ∧
    ((s.appenders a).m_hasFormatter = false →
      (s.appenders a).m_formatter = (s.loggers l).m_formatter)

/-- What no operation breaks. -/
structure Kept (s : State ι α) : Prop where
  apart : Apart s
  logger : ∀ l, (s.loggers l).m_formatter ≠ none
  own : ∀ a, (s.appenders a).m_hasFormatter = true → (s.appenders a).m_formatter ≠ none

/-- An appender is added with a formatter of its own, with none or with that of the logger, and
is not left without one while it is in a logger. -/
def Clean (s : State ι α) : Op ι α → Prop
  | .addAppender l a => (s.appenders a).m_hasFormatter = true ∨
      (s.appenders a).m_formatter = none ∨
      (s.appenders a).m_formatter = (s.loggers l).m_formatter
  | .setAppenderFormatter a none => ∀ l, a ∉ (s.loggers l).m_appenders
  | _ => True

theorem initial_kept (address : ι → ℕ) : Kept (initial address : State ι α) := by
  constructor
  · intro a l l' h
    cases h
  · intro l h
    cases h
  · intro a h
    cases h

theorem initial_inherited (address : ι → ℕ) : Inherited (initial address : State ι α) :=
  fun _ _ h => nomatch h

variable {s : State ι α} {l : ι} {a : α}

theorem inherit_own {formatter : Option Formatter} {x : LogAppender}
    (h : x.m_hasFormatter = true) : x.inherit formatter = x := by
  simp [LogAppender.inherit, h]

theorem inherit_none {formatter : Option Formatter} {x : LogAppender}
    (h : x.m_hasFormatter = false) : x.inherit formatter = ⟨formatter, false⟩ := by
  simp [LogAppender.inherit, ← h]

variable [DecidableEq α]

theorem inherited_setAppenderFormatter (h : Inherited s) (formatter : Option Formatter) :
    Inherited (setAppenderFormatter s a formatter) ↔
      Clean s (.setAppenderFormatter a formatter) := by
  have hother (b : α) (hba : b ≠ a) :
      (setAppenderFormatter s a formatter).appenders b = s.appenders b :=
    Function.update_of_ne hba _ _
  have hself : (setAppenderFormatter s a formatter).appenders a = ⟨formatter, formatter.isSome⟩ :=
    Function.update_self a _ _
  constructor
  · intro hnext
    cases formatter with
    | some formatter => trivial
    | none =>
      intro l hmem
      apply (hnext l a hmem).1
      rw [hself]
  · intro hclean l b hb
    by_cases hba : b = a
    · subst hba
      rw [hself]
      cases formatter with
      | some formatter => exact ⟨Option.some_ne_none formatter, nofun⟩
      | none => exact absurd hb (hclean l)
    · rw [hother b hba]
      exact h l b hb

variable [DecidableEq ι]

def apply (s : State ι α) : Op ι α → State ι α
  | .addAppender l appender => addAppender s l appender
  | .delAppender l appender => delAppender s l appender
  | .clearAppenders l => clearAppenders s l
  | .setFormatter l formatter => setFormatter s l (some formatter)
  | .setAppenderFormatter appender formatter => setAppenderFormatter s appender formatter

def step (s : State ι α) (op : Op ι α) : Option (Unit × State ι α) := some ((), apply s op)

/-- The operation puts no appender into a second logger. -/
def Allowed (s : State ι α) (op : Op ι α) : Prop := Apart (apply s op)

theorem apply_logger (op : Op ι α) (h : ∀ l, (s.loggers l).m_formatter ≠ none) (l : ι) :
    ((apply s op).loggers l).m_formatter ≠ none := by
  cases op with
  | addAppender l' a => simpa [apply] using h l
  | delAppender l' a => simpa [apply] using h l
  | clearAppenders l' => simpa [apply] using h l
  | setFormatter l' formatter =>
    simp only [apply, setFormatter_formatter]
    split_ifs
    · simp
    · exact h l
  | setAppenderFormatter a formatter => exact h l

/-- A formatter of an appender's own is never lost. -/
theorem apply_own (op : Op ι α)
    (h : ∀ a, (s.appenders a).m_hasFormatter = true → (s.appenders a).m_formatter ≠ none) (a : α)
    (hown : ((apply s op).appenders a).m_hasFormatter = true) :
    ((apply s op).appenders a).m_formatter ≠ none := by
  cases op with
  | addAppender l b =>
    simp only [apply] at hown ⊢
    by_cases hab : a = b
    · subst hab
      rw [addAppender_self] at hown ⊢
      split_ifs at hown ⊢ with hnone
      · exact absurd hnone (h a hown)
      · exact hnone
    · rw [addAppender_other hab] at hown ⊢
      exact h a hown
  | delAppender l b => exact h a hown
  | clearAppenders l => exact h a hown
  | setFormatter l formatter =>
    simp only [apply, setFormatter_appender] at hown ⊢
    split_ifs at hown ⊢
    · cases hhas : (s.appenders a).m_hasFormatter with
      | true =>
        rw [inherit_own hhas]
        exact h a hhas
      | false => simp [inherit_none hhas]
    · exact h a hown
  | setAppenderFormatter b formatter =>
    simp only [apply, setAppenderFormatter] at hown ⊢
    by_cases hab : a = b
    · subst hab
      simpa [Option.isSome_iff_ne_none] using hown
    · simp only [Function.update_of_ne hab] at hown ⊢
      exact h a hown

theorem apply_kept {op : Op ι α} (h : Kept s) (hallowed : Allowed s op) : Kept (apply s op) :=
  ⟨hallowed, apply_logger op h.logger, apply_own op h.own⟩

theorem inherited_addAppender (hs : Kept s) (h : Inherited s)
    (hallowed : Allowed s (.addAppender l a)) :
    Inherited (addAppender s l a) ↔ Clean s (.addAppender l a) := by
  have hmem : a ∈ ((addAppender s l a).loggers l).m_appenders :=
    mem_addAppender.2 (Or.inr ⟨rfl, rfl⟩)
  constructor
  · intro hnext
    have hinherits := (hnext l a hmem).2
    rw [addAppender_self, addAppender_formatter] at hinherits
    split_ifs at hinherits with hnone
    · exact Or.inr (Or.inl hnone)
    · cases hhas : (s.appenders a).m_hasFormatter with
      | true => exact Or.inl hhas
      | false => exact Or.inr (Or.inr (hinherits hhas))
  · intro hclean l' b hb
    rw [addAppender_formatter]
    by_cases hba : b = a
    · subst hba
      obtain rfl : l' = l := hallowed b l' l hb hmem
      rw [addAppender_self]
      split_ifs with hnone
      · exact ⟨hs.logger l', fun _ => rfl⟩
      · refine ⟨hnone, ?_⟩
        intro hhas
        rcases hclean with hown | hnone' | heq
        · exact absurd (hown.symm.trans hhas) (by decide)
        · exact absurd hnone' hnone
        · exact heq
    · rw [addAppender_other hba]
      rcases mem_addAppender.1 hb with hb | ⟨-, hb⟩
      · exact h l' b hb
      · exact absurd hb hba

theorem inherited_setFormatter (hs : Kept s) (h : Inherited s) (formatter : Formatter) :
    Inherited (setFormatter s l (some formatter)) := by
  intro l' b hb
  rw [setFormatter_appenders] at hb
  rw [setFormatter_formatter, setFormatter_appender]
  by_cases hl : l' = l
  · subst hl
    rw [if_pos hb, if_pos rfl]
    cases hhas : (s.appenders b).m_hasFormatter with
    | true =>
      rw [inherit_own hhas, hhas]
      exact ⟨hs.own b hhas, fun hfalse => absurd hfalse (by decide)⟩
    | false =>
      rw [inherit_none hhas]
      exact ⟨Option.some_ne_none formatter, fun _ => rfl⟩
  · rw [if_neg fun hmem => hl (hs.apart b l' l hb hmem), if_neg hl]
    exact h l' b hb

theorem inherited_apply (op : Op ι α) (hs : Kept s) (h : Inherited s) (hallowed : Allowed s op) :
    Inherited (apply s op) ↔ Clean s op := by
  cases op with
  | addAppender l a => exact inherited_addAppender hs h hallowed
  | delAppender l a =>
    refine iff_of_true ?_ trivial
    intro l' b hb
    rw [apply, delAppender_formatter]
    exact h l' b (mem_delAppender hb)
  | clearAppenders l =>
    refine iff_of_true ?_ trivial
    intro l' b hb
    rw [apply, clearAppenders_formatter]
    exact h l' b (mem_clearAppenders hb)
  | setFormatter l formatter => exact iff_of_true (inherited_setFormatter hs h formatter) trivial
  | setAppenderFormatter a formatter => exact inherited_setAppenderFormatter h formatter

/-- Over every sequence that keeps the appenders apart. -/
theorem appenders_inherit_iff (address : ι → ℕ) (ops : List (Op ι α))
    (h : Guarded Allowed step (initial address) ops) :
    (∀ n os t, run step (initial address) (ops.take n) = some (os, t) → Inherited t) ↔
      Guarded Clean step (initial address) ops := by
  refine forall_prefix_iff_guarded (I := Kept) ?_ ?_ (initial_kept address) ?_ h
  · intro s op hs hallowed
    exact ⟨(), apply s op, rfl, apply_kept hs hallowed⟩
  · intro s op o t hs hinherited hallowed hstep
    cases hstep
    exact inherited_apply op hs hinherited hallowed
  · exact initial_inherited address

instance decidableApart [Fintype ι] [Fintype α] (s : State ι α) : Decidable (Apart s) :=
  inferInstanceAs (Decidable (∀ a l l', a ∈ (s.loggers l).m_appenders →
    a ∈ (s.loggers l').m_appenders → l = l'))

instance decidableAllowed [Fintype ι] [Fintype α] (s : State ι α) (op : Op ι α) :
    Decidable (Allowed s op) :=
  inferInstanceAs (Decidable (Apart (apply s op)))

/-- An appender is moved from one logger to another. -/
def moved : List (Op Bool Unit) :=
  [.addAppender false (), .delAppender false (), .addAppender true ()]

theorem moved_inherits_iff : (∀ n os t,
    run step (initial Bool.toNat) (moved.take n) = some (os, t) → Inherited t) ↔
      Guarded Clean step (initial Bool.toNat) moved :=
  appenders_inherit_iff Bool.toNat moved (by decide)

/-- It goes on with the formatter of the first. -/
theorem moved_keeps_formatter : ¬ ∀ ops : List (Op Bool Unit),
    Guarded Allowed step (initial Bool.toNat) ops →
    ∀ n os t, run step (initial Bool.toNat) (ops.take n) = some (os, t) → Inherited t := by
  intro h
  have hinherited := h moved (by decide) 3 _ _ rfl
  exact absurd ((hinherited true () (by decide)).2 (by decide)) (by decide)

end Inheritance

end LoggerFormatters
