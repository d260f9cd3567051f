import SylarNet.LastWrites
import Mathlib.Data.Int.Notation
import Mathlib.Logic.Function.Basic

/-!
# Servlet routing

`ServletDispatch`: exact routes in a hash map, glob patterns in a vector, a default. Every call
holds the lock for its whole body, so a history of calls is a sequence. `fnmatch` is open, and
as the code passes `c_str()` it sees a pattern and a uri up to their first NUL.
-/
namespace ServletDispatch

open LastWrites

variable {S C : Type*}

/-- What a `Servlet::ptr` can point to: a servlet of the caller, one made around a callback,
and the `NotFoundServlet` of the constructor. -/
inductive Servlet (S C : Type*) where
  | own (servlet : S)
  | functionServlet (cb : C)
  | notFoundServlet (name : String)
  deriving DecidableEq, Repr

abbrev ServletPtr (S C : Type*) := Option (Servlet S C)

structure Dispatch (S C : Type*) where
  data : List UInt8 → Option (ServletPtr S C)
  globs : List (List UInt8 × ServletPtr S C)
  dflt : ServletPtr S C

def servletDispatch : Dispatch S C :=
  { data := fun _ => none
    globs := []
    dflt := some (.notFoundServlet "sylar/1.0") }

/-- The loop that erases the first pattern equal to `uri` and breaks. -/
def eraseGlob (globs : List (List UInt8 × ServletPtr S C)) (uri : List UInt8) :
    List (List UInt8 × ServletPtr S C) :=
  globs.eraseP fun glob => glob.1 = uri

/-- The two overloads of the adding calls differ in what they make the servlet of. -/
inductive Call (S C : Type*) where
  | addServlet (uri : List UInt8) (slt : ServletPtr S C)
  | addServletCallback (uri : List UInt8) (cb : C)
  | addGlobServlet (uri : List UInt8) (slt : ServletPtr S C)
  | addGlobServletCallback (uri : List UInt8) (cb : C)
  | delServlet (uri : List UInt8)
  | delGlobServlet (uri : List UInt8)
  | setDefault (v : ServletPtr S C)
  deriving DecidableEq, Repr

def addServlet (d : Dispatch S C) (uri : List UInt8) (slt : ServletPtr S C) : Dispatch S C :=
  { d with data := Function.update d.data uri (some slt) }

def addGlobServlet (d : Dispatch S C) (uri : List UInt8) (slt : ServletPtr S C) : Dispatch S C :=
  { d with globs := eraseGlob d.globs uri ++ [(uri, slt)] }

def delServlet (d : Dispatch S C) (uri : List UInt8) : Dispatch S C :=
  { d with data := Function.update d.data uri none }

def delGlobServlet (d : Dispatch S C) (uri : List UInt8) : Dispatch S C :=
  { d with globs := eraseGlob d.globs uri }

def call (d : Dispatch S C) : Call S C → Dispatch S C
  | .addServlet uri slt => addServlet d uri slt
  | .addServletCallback uri cb => addServlet d uri (some (.functionServlet cb))
  | .addGlobServlet uri slt => addGlobServlet d uri slt
  | .addGlobServletCallback uri cb => addGlobServlet d uri (some (.functionServlet cb))
  | .delServlet uri => delServlet d uri
  | .delGlobServlet uri => delGlobServlet d uri
  | .setDefault v => { d with dflt := v }

/-- The dispatch after a history of calls. -/
def after (history : List (Call S C)) : Dispatch S C := history.foldl call servletDispatch

def cStr (s : List UInt8) : List UInt8 := s.takeWhile (· ≠ 0)

section Matching

variable (fnmatch : List UInt8 → List UInt8 → ℤ)

/-- `fnmatch` returns zero for a match. -/
def matched (uri : List UInt8) (glob : List UInt8 × ServletPtr S C) : Bool :=
  fnmatch (cStr glob.1) (cStr uri) = 0

def getMatchedServlet (d : Dispatch S C) (uri : List UInt8) : ServletPtr S C :=
  match d.data uri with
  | some slt => slt
  | none =>
    match d.globs.find? (matched fnmatch uri) with
    | some glob => glob.2
    | none => d.dflt

/-! What the history alone says a uri is routed to. -/

def exactRoutes : Call S C → Option (List UInt8 × Option (ServletPtr S C))
  | .addServlet uri slt => some (uri, some slt)
  | .addServletCallback uri cb => some (uri, some (some (.functionServlet cb)))
  | .delServlet uri => some (uri, none)
  | _ => none

def globRoutes : Call S C → Option (List UInt8 × Option (ServletPtr S C))
  | .addGlobServlet uri slt => some (uri, some slt)
  | .addGlobServletCallback uri cb => some (uri, some (some (.functionServlet cb)))
  | .delGlobServlet uri => some (uri, none)
  | _ => none

def defaults : Call S C → Option (Unit × Option (ServletPtr S C))
  | .setDefault v => some ((), some v)
  | _ => none

/-- The servlet last added for exactly this uri if it was not deleted since, else that of the
first surviving pattern that matches, else the default last set. -/
def routed (history : List (Call S C)) (uri : List UInt8) : ServletPtr S C :=
  match lastWrite exactRoutes uri history with
  | some slt => slt
  | none =>
    match (survivors globRoutes history).find? (matched fnmatch uri) with
    | some glob => glob.2
    | none => (lastWrite defaults () history).getD (some (.notFoundServlet "sylar/1.0"))

end Matching

theorem call_data (d : Dispatch S C) (c : Call S C) (uri : List UInt8) :
    (call d c).data uri = overwrite exactRoutes c uri (d.data uri) := by
  cases c with
  | addServlet u slt =>
    simp [call, addServlet, overwrite, exactRoutes, Function.update_apply, eq_comm]
  | addServletCallback u cb =>
    simp [call, addServlet, overwrite, exactRoutes, Function.update_apply, eq_comm]
  | delServlet u => simp [call, delServlet, overwrite, exactRoutes, Function.update_apply, eq_comm]
  | addGlobServlet u slt => rfl
  | addGlobServletCallback u cb => rfl
  | delGlobServlet u => rfl
  | setDefault v => rfl

theorem call_globs (d : Dispatch S C) (c : Call S C) (hd : (d.globs.map Prod.fst).Nodup) :
    (call d c).globs = supersede globRoutes c d.globs := by
  have herase (u : List UInt8) : eraseGlob d.globs u = d.globs.filter fun s => s.1 ≠ u :=
    eraseP_eq_filter hd u
  cases c with
  | addGlobServlet u slt => simp [call, addGlobServlet, supersede, globRoutes, herase]
  | addGlobServletCallback u cb => simp [call, addGlobServlet, supersede, globRoutes, herase]
  | delGlobServlet u => simp [call, delGlobServlet, supersede, globRoutes, herase]
  | addServlet u slt => rfl
  | addServletCallback u cb => rfl
  | delServlet u => rfl
  | setDefault v => rfl

/-- The hash map holds what the history last wrote for each uri. -/
theorem after_data (history : List (Call S C)) (uri : List UInt8) :
    (after history).data uri = lastWrite exactRoutes uri history :=
  foldl_eq_lastWrite (fun d => d.data uri) rfl (fun d c => call_data d c uri) history

/-- The vector is the list of surviving patterns, in the order in which they were last added. -/
theorem after_globs (history : List (Call S C)) :
    (after history).globs = survivors globRoutes history :=
  foldl_eq_survivors Dispatch.globs rfl call_globs history

theorem after_default (history : List (Call S C)) :
    (after history).dflt =
      (lastWrite defaults () history).getD (some (.notFoundServlet "sylar/1.0")) := by
  induction history using List.reverseRecOn with
  | nil => rfl
  | append_singleton history c ih =>
    rw [lastWrite_concat, after, List.foldl_append]
    cases c with
    | setDefault v => rfl
    | addServlet u slt => exact ih
    | addServletCallback u cb => exact ih
    | delServlet u => exact ih
    | addGlobServlet u slt => exact ih
    | addGlobServletCallback u cb => exact ih
    | delGlobServlet u => exact ih

/-- After every history the patterns are distinct, and a uri goes where the history says. -/
theorem getMatchedServlet_after (fnmatch : List UInt8 → List UInt8 → ℤ)
    (history : List (Call S C)) (uri : List UInt8) :
    ((after history).globs.map Prod.fst).Nodup ∧
      getMatchedServlet fnmatch (after history) uri = routed fnmatch history uri := by
  constructor
  · rw [after_globs]
    exact survivors_keys_nodup history
  · rw [getMatchedServlet, routed, after_data, after_globs, after_default]

end ServletDispatch
