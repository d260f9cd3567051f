import SylarNet.StringSearch
import SylarNet.SylarHttp
import SylarNet.SylarStream
import SylarNet.TextExtraction

/-!
# The stat of a process

`ProcessInfo::procname` finds the name in the text of `/proc/<pid>/stat`, and `StatData::parse`
the numbers behind it. The name is whatever the process called itself, so it may hold blanks and
parentheses of its own.
-/
namespace ProcessStat

open DecimalText StringSearch SylarHttp TextExtraction
open SylarStream.Stream (toInt)

/-- A piece of a text: the pointer is an offset in it, or `NULL`. -/
structure StringPiece where
  ptr : Option ℕ
  length : ℤ
  deriving DecidableEq, Repr

/-- `std::string(data(), size())`, which throws where the size is negative. -/
def StringPiece.asString (piece : StringPiece) (text : List UInt8) : Option (List UInt8) :=
  if piece.length < 0 then none
  else some ((text.drop (piece.ptr.getD 0)).take piece.length.toNat)

/-- The offset of `end() + 1`. -/
def StringPiece.behind (piece : StringPiece) : Option ℤ :=
  piece.ptr.map fun (offset : ℕ) => (offset : ℤ) + piece.length + 1

/-- What a `const char*` at an offset of the text is read as; `none` outside of it. -/
def charsAt (text : List UInt8) (offset : ℤ) : Option (List UInt8) :=
  if 0 ≤ offset ∧ offset ≤ text.length then some (cStr (text.drop offset.toNat)) else none

def procname (stat : List UInt8) : StringPiece :=
  match search (here (· == 40)) stat, rfind (· == 41) stat with
  | some lp, some rp =>
    if lp < rp then ⟨some (lp + 1), toInt ((rp : ℤ) - lp - 1)⟩ else ⟨none, 0⟩
  | _, _ => ⟨none, 0⟩

structure StatData where
  state : UInt8
  ppid : Int32
  pgrp : Int32
  session : Int32
  tty_nr : Int32
  tpgid : Int32
  flags : Int32
  minflt : Int64
  cminflt : Int64
  majflt : Int64
  cmajflt : Int64
  utime : Int64
  stime : Int64
  cutime : Int64
  cstime : Int64
  priority : Int64
  nice : Int64
  num_threads : Int64
  itrealvalue : Int64
  starttime : Int64
  vsizeKb : Int64
  rssKb : Int64
  rsslim : Int64

/-- `iss >> v` for an `int`. -/
def extractInt (old : Int32) : StateM TextStream Int32 := do
  let v ← getNumber Int32.minValue.toInt Int32.maxValue.toInt old.toInt
  return Int32.ofInt v

/-- `iss >> v` for a `long`. -/
def extractLong (old : Int64) : StateM TextStream Int64 := do
  let v ← getNumber Int64.minValue.toInt Int64.maxValue.toInt old.toInt
  return Int64.ofInt v

/-- The extractions of `parse`, in the order of the source; `vsize` and `rss` are what the two
local variables hold that are not initialised. -/
def extractStat (old : StatData) (kbPerPage : Int32) (vsize rss : Int64) :
    StateM TextStream StatData := do
  let state ← getChar old.state
  let ppid ← extractInt old.ppid
  let pgrp ← extractInt old.pgrp
  let session ← extractInt old.session
  let tty_nr ← extractInt old.tty_nr
  let tpgid ← extractInt old.tpgid
  let flags ← extractInt old.flags
  let minflt ← extractLong old.minflt
  let cminflt ← extractLong old.cminflt
  let majflt ← extractLong old.majflt
  let cmajflt ← extractLong old.cmajflt
  let utime ← extractLong old.utime
  let stime ← extractLong old.stime
  let cutime ← extractLong old.cutime
  let cstime ← extractLong old.cstime
  let priority ← extractLong old.priority
  let nice ← extractLong old.nice
  let num_threads ← extractLong old.num_threads
  let itrealvalue ← extractLong old.itrealvalue
  let starttime ← extractLong old.starttime
  let vsize ← extractLong vsize
  let rss ← extractLong rss
  let rsslim ← extractLong old.rsslim
  let vsizeKb := vsize / 1024
  let rssKb := rss * kbPerPage.toInt64
  return ⟨state, ppid, pgrp, session, tty_nr, tpgid, flags, minflt, cminflt, majflt, cmajflt,
    utime, stime, cutime, cstime, priority, nice, num_threads, itrealvalue, starttime, vsizeKb,
    rssKb, rsslim⟩

def parse (old : StatData) (startAtState : List UInt8) (kbPerPage : Int32) (vsize rss : Int64) :
    StatData :=
  (extractStat old kbPerPage vsize rss ⟨startAtState, true⟩).1

/-- What the kernel writes of a process; the fields behind `rsslim` are not read. -/
structure ProcStat where
  pid : ℕ
  comm : List UInt8
  state : UInt8
  ppid : Int32
  pgrp : Int32
  session : Int32
  tty_nr : Int32
  tpgid : Int32
  flags : Int32
  minflt : Int64
  cminflt : Int64
  majflt : Int64
  cmajflt : Int64
  utime : Int64
  stime : Int64
  cutime : Int64
  cstime : Int64
  priority : Int64
  nice : Int64
  num_threads : Int64
  itrealvalue : Int64
  starttime : Int64
  vsize : Int64
  rss : Int64
  rsslim : Int64
  rest : List UInt8
  state_text : isSpace state = false ∧ state ≠ 0 ∧ state ≠ 41
  rest_text : Boundary rest ∧ 0 ∉ rest ∧ 41 ∉ rest

namespace ProcStat

def numbers (p : ProcStat) : List ℤ :=
  [p.ppid.toInt, p.pgrp.toInt, p.session.toInt, p.tty_nr.toInt, p.tpgid.toInt, p.flags.toInt,
    p.minflt.toInt, p.cminflt.toInt, p.majflt.toInt, p.cmajflt.toInt, p.utime.toInt,
    p.stime.toInt, p.cutime.toInt, p.cstime.toInt, p.priority.toInt, p.nice.toInt,
    p.num_threads.toInt, p.itrealvalue.toInt, p.starttime.toInt, p.vsize.toInt, p.rss.toInt,
    p.rsslim.toInt]

/-- Behind the name and its parenthesis. -/
def fields (p : ProcStat) : List UInt8 :=
  32 :: p.state :: (p.numbers.flatMap (fun v => 32 :: ofInt v) ++ p.rest)

def text (p : ProcStat) : List UInt8 :=
  decimal p.pid ++ bytes " (" ++ p.comm ++ 41 :: p.fields

/-- What `parse` makes of the fields. -/
def data (p : ProcStat) (kbPerPage : Int32) : StatData :=
  ⟨p.state, p.ppid, p.pgrp, p.session, p.tty_nr, p.tpgid, p.flags, p.minflt, p.cminflt, p.majflt,
    p.cmajflt, p.utime, p.stime, p.cutime, p.cstime, p.priority, p.nice, p.num_threads,
    p.itrealvalue, p.starttime, p.vsize / 1024, p.rss * kbPerPage.toInt64, p.rsslim⟩

end ProcStat

/-- The name is that of the process, and so are the fields, with sizes in the units they are
stored in. -/
structure Right (p : ProcStat) (kbPerPage : Int32) (old : StatData) (vsize rss : Int64) :
    Prop where
  name : (procname p.text).asString p.text = some p.comm
  parsed : ((procname p.text).behind.bind (charsAt p.text)).map
    (fun startAtState => parse old startAtState kbPerPage vsize rss) = some (p.data kbPerPage)
  vsizeKb : (p.data kbPerPage).vsizeKb.toInt = p.vsize.toInt.tdiv 1024
  rssKb : (p.data kbPerPage).rssKb.toInt = p.rss.toInt * kbPerPage.toInt

section Fields

theorem bind_apply {σ α β : Type} (m : StateM σ α) (f : α → StateM σ β) (s : σ) :
    (m >>= f) s = f (m s).1 (m s).2 := by
  cases h : m s
  simp [bind, StateT.bind, h]

theorem extractInt_text {rest : List UInt8} (v old : Int32) (h : Boundary rest) :
    extractInt old ⟨32 :: (ofInt v.toInt ++ rest), true⟩ = (v, ⟨rest, !rest.isEmpty⟩) := by
  have hnumber := getNumber_text v.minValue_le_toInt v.toInt_le h old.toInt
  simp only [extractInt, bind_apply, hnumber, Int32.ofInt_toInt]
  rfl

theorem extractLong_text {rest : List UInt8} (v old : Int64) (h : Boundary rest) :
    extractLong old ⟨32 :: (ofInt v.toInt ++ rest), true⟩ = (v, ⟨rest, !rest.isEmpty⟩) := by
  have hnumber := getNumber_text v.minValue_le_toInt v.toInt_le h old.toInt
  simp only [extractLong, bind_apply, hnumber, Int64.ofInt_toInt]
  rfl

theorem boundary_space (rest : List UInt8) : Boundary (32 :: rest) := by
  intro c hc
  cases hc
  rfl

theorem extractInt_field (v old : Int32) (rest : List UInt8) :
    extractInt old ⟨32 :: (ofInt v.toInt ++ 32 :: rest), true⟩ = (v, ⟨32 :: rest, true⟩) :=
  extractInt_text v old (boundary_space rest)

theorem extractLong_field (v old : Int64) (rest : List UInt8) :
    extractLong old ⟨32 :: (ofInt v.toInt ++ 32 :: rest), true⟩ = (v, ⟨32 :: rest, true⟩) :=
  extractLong_text v old (boundary_space rest)

variable (p : ProcStat)

/-- The extractions stay in step with the fields. -/
theorem parse_fields (old : StatData) (kbPerPage : Int32) (vsize rss : Int64) :
    parse old p.fields kbPerPage vsize rss = p.data kbPerPage := by
  simp only [parse, extractStat, ProcStat.fields, ProcStat.numbers, List.flatMap_cons,
    List.flatMap_nil, List.cons_append, List.append_assoc, List.append_nil, bind_apply,
    getChar_text p.state_text.1, extractInt_field, extractLong_field,
    extractLong_text p.rsslim _ p.rest_text.1]
  rfl

end Fields

section Name

variable (p : ProcStat)

/-- No field looks like the end of the name, or of a string. -/
theorem not_mem_fields {c : UInt8} (hc : c = 0 ∨ c = 41) : c ∉ p.fields := by
  have hnumber : ∀ v : ℤ, c ∉ 32 :: ofInt v := by
    intro v hmem
    have hdigit : isDigit c = false := by rcases hc with rfl | rfl <;> rfl
    have hother : c ≠ 32 ∧ c ≠ 45 := by rcases hc with rfl | rfl <;> decide
    have hdecimal : c ∉ decimal v.natAbs := fun h =>
      ne_of_isDigit (isDigit_of_mem_decimal h) hdigit rfl
    simp only [ofInt, List.mem_cons, hother.1, false_or] at hmem
    split_ifs at hmem
    · exact hdecimal ((List.mem_cons.1 hmem).resolve_left hother.2)
    · exact hdecimal hmem
  have hother : c ≠ 32 ∧ c ≠ p.state ∧ c ∉ p.rest := by
    rcases hc with rfl | rfl
    · exact ⟨by decide, p.state_text.2.1.symm, p.rest_text.2.1⟩
    · exact ⟨by decide, p.state_text.2.2.symm, p.rest_text.2.2⟩
  simp only [ProcStat.fields, List.mem_cons, List.mem_append, List.mem_flatMap, hother, false_or,
    or_false]
  rintro ⟨v, -, hmem⟩
  exact hnumber v (List.mem_cons_of_mem 32 hmem)

theorem procname_text :
    procname p.text = ⟨some ((decimal p.pid).length + 2), toInt p.comm.length⟩ := by
  have hpid : ∀ c ∈ decimal p.pid ++ [32], (c == 40) = false := by
    intro c hc
    rcases List.mem_append.1 hc with hdigit | hblank
    · exact beq_eq_false_iff_ne.2 (ne_of_isDigit (isDigit_of_mem_decimal hdigit) rfl)
    · simp [List.mem_singleton.1 hblank]
  have hfirst : p.text = (decimal p.pid ++ [32]) ++ 40 :: (p.comm ++ 41 :: p.fields) := by
    simp only [ProcStat.text, List.append_assoc]
    rfl
  have hlast : p.text = (decimal p.pid ++ bytes " (" ++ p.comm) ++ 41 :: p.fields := rfl
  have hlp : search (here (· == 40)) p.text = some ((decimal p.pid).length + 1) := by
    have hfind : search (here (· == 40))
        (decimal p.pid ++ [32] ++ 40 :: (p.comm ++ 41 :: p.fields)) =
          some (decimal p.pid ++ [32]).length :=
      search_here_append hpid (beq_self_eq_true (40 : UInt8))
    simpa only [← hfirst, List.length_append, List.length_singleton] using hfind
  have hrp : rfind (· == 41) p.text = some ((decimal p.pid).length + 2 + p.comm.length) := by
    have hfields : ∀ c ∈ p.fields, (c == 41) = false := by
      intro c hc
      apply beq_eq_false_iff_ne.2
      rintro rfl
      exact not_mem_fields p (.inr rfl) hc
    have hfind := rfind_append (p := (· == 41)) (decimal p.pid ++ bytes " (" ++ p.comm)
      (beq_self_eq_true (41 : UInt8)) hfields
    have hword : (bytes " (").length = 2 := rfl
    simpa only [← hlast, List.length_append, hword] using hfind
  have hlt : (decimal p.pid).length + 1 < (decimal p.pid).length + 2 + p.comm.length := by omega
  have hlength : (((decimal p.pid).length + 2 + p.comm.length : ℕ) : ℤ) -
      ((decimal p.pid).length + 1 : ℕ) - 1 = p.comm.length := by omega
  simp only [procname, hlp, hrp, hlt, if_true, hlength]

theorem drop_name : p.text.drop ((decimal p.pid).length + 2) = p.comm ++ 41 :: p.fields := by
  have hlength : (decimal p.pid ++ bytes " (").length = (decimal p.pid).length + 2 := by
    simp only [List.length_append]
    rfl
  simp only [ProcStat.text, List.append_assoc, ← hlength]
  simp

theorem asString_procname (h : p.comm.length < 2 ^ 31) :
    (procname p.text).asString p.text = some p.comm := by
  have hlength : toInt p.comm.length = p.comm.length := SylarStream.Stream.toInt_of_lt h
  have hnonneg : ¬(p.comm.length : ℤ) < 0 := by omega
  simp only [procname_text, StringPiece.asString, hlength, hnonneg, if_false, Option.getD_some,
    drop_name, Int.toNat_natCast]
  simp

theorem charsAt_behind (h : p.comm.length < 2 ^ 31) :
    (procname p.text).behind.bind (charsAt p.text) = some p.fields := by
  have hlength : toInt p.comm.length = p.comm.length := SylarStream.Stream.toInt_of_lt h
  have hoffset : (((decimal p.pid).length + 2 : ℕ) : ℤ) + p.comm.length + 1 =
      ((decimal p.pid).length + 2 + (p.comm.length + 1) : ℕ) := by omega
  have htext : p.text.length =
      (decimal p.pid).length + 2 + (p.comm.length + 1) + p.fields.length := by
    have hcount := congrArg List.length (drop_name p)
    have hpid : (decimal p.pid).length + 2 ≤ p.text.length := by
      simp only [ProcStat.text, List.length_append]
      have hword : (bytes " (").length = 2 := rfl
      omega
    simp only [List.length_drop, List.length_append, List.length_cons] at hcount
    omega
  have hdrop : p.text.drop ((decimal p.pid).length + 2 + (p.comm.length + 1)) = p.fields := by
    have hbehind := congrArg (List.drop (p.comm.length + 1)) (drop_name p)
    simpa [List.drop_drop] using hbehind
  have hstring : cStr p.fields = p.fields := cStr_of_notMem (not_mem_fields p (.inl rfl))
  simp only [procname_text, StringPiece.behind, hlength, Option.map_some, Option.bind_some,
    hoffset, charsAt, Int.toNat_natCast, hdrop, hstring]
  exact if_pos ⟨by omega, by omega⟩

end Name

/-- A `StringPiece` holds its length in an `int`, and the sizes are computed as `long`. -/
theorem stat_right (p : ProcStat) (kbPerPage : Int32) (old : StatData) (vsize rss : Int64)
    (hcomm : p.comm.length < 2 ^ 31) (hlow : -2 ^ 63 ≤ p.rss.toInt * kbPerPage.toInt)
    (hhigh : p.rss.toInt * kbPerPage.toInt < 2 ^ 63) : Right p kbPerPage old vsize rss where
  name := asString_procname p hcomm
  parsed := by
    simp only [charsAt_behind p hcomm, Option.map_some, parse_fields]
  vsizeKb := by
    change (p.vsize / 1024).toInt = p.vsize.toInt.tdiv 1024
    exact Int64.toInt_div_of_ne_right p.vsize 1024 (by decide)
  rssKb := by
    change (p.rss * kbPerPage.toInt64).toInt = p.rss.toInt * kbPerPage.toInt
    simp only [Int64.toInt_mul, Int32.toInt_toInt64]
    exact Int.bmod_eq_of_le (by omega) (by omega)

/-- `bzero(&sd, sizeof(sd))`. -/
def zeroed : StatData :=
  ⟨0, 0, 0, 0, 0, 0, 0, 0, 0, 0, 0, 0, 0, 0, 0, 0, 0, 0, 0, 0, 0, 0, 0⟩

/-- The example of the source, with another name and number of pages. -/
def dummyload (comm : List UInt8) (rss : Int64) : ProcStat :=
  ⟨3327, comm, 83, 3161, 3327, 3161, 34821, 3327, 4194304, 439, 0, 0, 0, 573, 10, 0, 0, 20, 0, 2, 0,
    135290, 24911872, rss, 9223372036854775807, [10], by decide, by decide⟩

theorem stat_right_of_parentheses :
    Right (dummyload (bytes "x) S (y") 2656) 4 zeroed 0 0 :=
  stat_right (dummyload (bytes "x) S (y") 2656) 4 zeroed 0 0 (by decide) (by decide) (by decide)

theorem not_right_of_length {p : ProcStat} {kbPerPage : Int32} {old : StatData} {vsize rss : Int64}
    (h : p.comm.length = 2 ^ 32) : ¬Right p kbPerPage old vsize rss := by
  intro hright
  have hname := hright.name
  have hzero : toInt p.comm.length = 0 := h ▸ rfl
  simp only [procname_text, StringPiece.asString, hzero, lt_irrefl, if_false, Int.toNat_zero,
    List.take_zero, Option.some.injEq] at hname
  simp [← hname] at h

/-- The size in memory overflows; a name of `2 ^ 32` bytes has the length 0. -/
theorem pages_overflow_and_name_lost :
    ¬Right (dummyload (bytes "dummyload") 9223372036854775807) 4 zeroed 0 0 ∧
      ¬Right (dummyload (List.replicate (2 ^ 32) 120) 2656) 4 zeroed 0 0 := by
  constructor
  · intro hright
    have hrss := hright.rssKb
    revert hrss
    decide
  · apply not_right_of_length
    exact List.length_replicate

end ProcessStat
