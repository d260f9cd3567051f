import SylarNet.LastWrites
import SylarNet.SylarHttp

/-!
# Headers, parameters and cookies of a request

Three maps with the same accessors. A lookup compares the iterator that `find` returned with the
end of a map, and reads through it if they differ; the ends of two maps differ.
-/
namespace HttpAttributes

open SylarHttp LastWrites

inductive AttributeMap where
  | headers
  | params
  | cookies
  deriving DecidableEq, Repr

inductive Fault where
  | endIterator
  deriving DecidableEq, Repr

/-- An iterator of a map: at an entry, or at the end. -/
structure Iterator where
  owner : AttributeMap
  entry : Option (List UInt8 × List UInt8)
  deriving DecidableEq, Repr

namespace Iterator

def endOf (k : AttributeMap) : Iterator := ⟨k, none⟩

/-- `it->second` -/
def second (it : Iterator) : Except Fault (List UInt8) :=
  match it.entry with
  | none => .error .endIterator
  | some e => .ok e.2

end Iterator

section Accessors

variable (r : HttpRequest)

def mapOf : AttributeMap → MapType
  | .headers => r.headers
  | .params => r.params
  | .cookies => r.cookies

def setMap (m : MapType) : AttributeMap → HttpRequest
  | .headers => { r with headers := m }
  | .params => { r with params := m }
  | .cookies => { r with cookies := m }

def find (k : AttributeMap) (key : List UInt8) : Iterator :=
  ⟨k, (mapOf r k).find? fun e => strcasecmp e.1 key = .eq⟩

/-- `auto it = searched.find(key); return it == compared.end() ? def : it->second;` -/
def get (searched compared : AttributeMap) (key dflt : List UInt8) : Except Fault (List UInt8) :=
  if find r searched key = .endOf compared then .ok dflt else (find r searched key).second

/-- What is stored through `val` when the result is true. -/
def has (k : AttributeMap) (key : List UInt8) : Except Fault (Option (List UInt8)) :=
  if find r k key = .endOf k then .ok none else (find r k key).second.map some

def getHeader (key dflt : List UInt8) : Except Fault (List UInt8) :=
  get r .headers .headers key dflt
def getParam (key dflt : List UInt8) : Except Fault (List UInt8) :=
  get r .params .headers key dflt
def getCookie (key dflt : List UInt8) : Except Fault (List UInt8) :=
  get r .cookies .headers key dflt

def setHeader (key val : List UInt8) : HttpRequest := setMap r (r.headers.assign key val) .headers
def setParam (key val : List UInt8) : HttpRequest := setMap r (r.params.assign key val) .params
def setCookie (key val : List UInt8) : HttpRequest := setMap r (r.cookies.assign key val) .cookies

def delHeader (key : List UInt8) : HttpRequest := setMap r (r.headers.erase key) .headers
def delParam (key : List UInt8) : HttpRequest := setMap r (r.params.erase key) .params
def delCookie (key : List UInt8) : HttpRequest := setMap r (r.cookies.erase key) .cookies

def hasHeader (key : List UInt8) : Except Fault (Option (List UInt8)) := has r .headers key
def hasParam (key : List UInt8) : Except Fault (Option (List UInt8)) := has r .params key
def hasCookie (key : List UInt8) : Except Fault (Option (List UInt8)) := has r .cookies key

end Accessors

inductive Op where
  | set (k : AttributeMap) (key val : List UInt8)
  | del (k : AttributeMap) (key : List UInt8)
  deriving DecidableEq, Repr

namespace Op

def target : Op → AttributeMap
  | .set k _ _ | .del k _ => k

/-- Keys that differ in case only are one key. -/
def touch : Op → Option ((AttributeMap × List UInt8) × Option (List UInt8))
  | .set k key val => some ((k, foldCase key), some val)
  | .del k key => some ((k, foldCase key), none)

end Op

def step (r : HttpRequest) : Op → HttpRequest
  | .set .headers key val => setHeader r key val
  | .set .params key val => setParam r key val
  | .set .cookies key val => setCookie r key val
  | .del .headers key => delHeader r key
  | .del .params key => delParam r key
  | .del .cookies key => delCookie r key

def getOf (r : HttpRequest) : AttributeMap → List UInt8 → List UInt8 → Except Fault (List UInt8)
  | .headers => getHeader r
  | .params => getParam r
  | .cookies => getCookie r

def hasOf (r : HttpRequest) : AttributeMap → List UInt8 → Except Fault (Option (List UInt8))
  | .headers => hasHeader r
  | .params => hasParam r
  | .cookies => hasCookie r

/-- The value last set under the key and not deleted since. -/
def lastSet (ops : List Op) (k : AttributeMap) (key : List UInt8) : Option (List UInt8) :=
  lastWrite Op.touch (k, foldCase key) ops

/-- The lookup gives that value, and the default if there is none. -/
def LookupRight (r : HttpRequest) (ops : List Op) (k : AttributeMap) (key dflt : List UInt8) :
    Prop :=
  getOf r k key dflt = .ok ((lastSet ops k key).getD dflt) ∧
    hasOf r k key = .ok (lastSet ops k key)

theorem step_eq (r : HttpRequest) (op : Op) :
    step r op = setMap r
      (match op with
        | .set k key val => (mapOf r k).assign key val
        | .del k key => (mapOf r k).erase key) op.target := by
  cases op with
  | set k key val => cases k <;> rfl
  | del k key => cases k <;> rfl

theorem mapOf_setMap (r : HttpRequest) (m : MapType) (k k' : AttributeMap) :
    mapOf (setMap r m k) k' = if k' = k then m else mapOf r k' := by
  cases k <;> cases k' <;> rfl

/-- Operations on one map leave the others as they are. -/
theorem mapOf_step_of_ne (r : HttpRequest) {op : Op} {k : AttributeMap} (h : k ≠ op.target) :
    mapOf (step r op) k = mapOf r k := by
  rw [step_eq, mapOf_setMap, if_neg h]

theorem find_step (r : HttpRequest) (op : Op) (k : AttributeMap) (key : List UInt8) :
    (mapOf (step r op) k).find key =
      overwrite Op.touch op (k, foldCase key) ((mapOf r k).find key) := by
  rw [step_eq, mapOf_setMap]
  cases op with
  | set k' key' val =>
    by_cases hk : k = k'
    · subst hk
      simp [Op.target, overwrite, Op.touch, MapType.find_assign]
    · simp [Op.target, overwrite, Op.touch, hk, Ne.symm hk]
  | del k' key' =>
    by_cases hk : k = k'
    · subst hk
      simp [Op.target, overwrite, Op.touch, MapType.find_erase]
    · simp [Op.target, overwrite, Op.touch, hk, Ne.symm hk]

/-- Any map of a new request is empty. -/
theorem mapOf_new (version : UInt8) (close : Bool) (k : AttributeMap) :
    mapOf (HttpRequest.new version close) k = [] := by
  cases k <;> rfl

theorem find_run (version : UInt8) (close : Bool) (ops : List Op) (k : AttributeMap)
    (key : List UInt8) :
    (mapOf (ops.foldl step (HttpRequest.new version close)) k).find key = lastSet ops k key := by
  apply foldl_eq_lastWrite (fun r => (mapOf r k).find key)
  · rw [mapOf_new]
    rfl
  · exact fun r op => find_step r op k key

section Lookups

variable {r : HttpRequest} {searched compared : AttributeMap} {key dflt : List UInt8}

theorem get_present {val : List UInt8} (h : (mapOf r searched).find key = some val) :
    get r searched compared key dflt = .ok val := by
  obtain ⟨e, he, rfl⟩ := Option.map_eq_some_iff.1 h
  have hfind : find r searched key = ⟨searched, some e⟩ := congrArg (Iterator.mk searched) he
  rw [get, hfind, if_neg]
  · rfl
  · intro heq
    cases heq

theorem find_absent (h : (mapOf r searched).find key = none) :
    find r searched key = .endOf searched :=
  congrArg (Iterator.mk searched) (Option.map_eq_none_iff.1 h)

/-- Without an entry the iterator is the end of the map that was searched. -/
theorem get_absent (h : (mapOf r searched).find key = none) :
    get r searched compared key dflt =
      if searched = compared then .ok dflt else .error .endIterator := by
  rw [get, find_absent h]
  by_cases hk : searched = compared
  · rw [if_pos hk, hk, if_pos rfl]
  · have hends : Iterator.endOf searched ≠ Iterator.endOf compared := by
      intro heq
      exact hk (congrArg Iterator.owner heq)
    rw [if_neg hk, if_neg hends]
    rfl

theorem has_eq (k : AttributeMap) : has r k key = .ok ((mapOf r k).find key) := by
  cases h : (mapOf r k).find key with
  | none => rw [has, find_absent h, if_pos rfl]
  | some val =>
    obtain ⟨e, he, rfl⟩ := Option.map_eq_some_iff.1 h
    have hfind : find r k key = ⟨k, some e⟩ := congrArg (Iterator.mk k) he
    rw [has, hfind, if_neg]
    · rfl
    · intro heq
      cases heq

theorem hasOf_eq (k : AttributeMap) : hasOf r k key = .ok ((mapOf r k).find key) := by
  cases k with
  | headers => exact has_eq .headers
  | params => exact has_eq .params
  | cookies => exact has_eq .cookies

theorem getOf_eq (k : AttributeMap) : getOf r k key dflt = get r k .headers key dflt := by
  cases k <;> rfl

end Lookups

/-- The lookups are right for the headers, and for the parameters and cookies as long as the key
is there; an absent one is read through the end of its map. -/
theorem lookups_right_iff (version : UInt8) (close : Bool) (ops : List Op) :
    (∀ k key dflt, LookupRight (ops.foldl step (HttpRequest.new version close)) ops k key dflt ↔
      k = .headers ∨ lastSet ops k key ≠ none) ∧
    ∀ op k, k ≠ op.target → mapOf (step (ops.foldl step (HttpRequest.new version close)) op) k =
      mapOf (ops.foldl step (HttpRequest.new version close)) k := by
  refine ⟨?_, fun op k h => mapOf_step_of_ne _ h⟩
  intro k key dflt
  have hfind := find_run version close ops k key
  rw [LookupRight, hasOf_eq, getOf_eq, hfind, and_iff_left rfl]
  cases hlast : lastSet ops k key with
  | none =>
    rw [hlast] at hfind
    rw [get_absent hfind, or_iff_left fun h => h rfl]
    by_cases hk : k = .headers
    · rw [if_pos hk]
      exact iff_of_true rfl hk
    · rw [if_neg hk]
      exact iff_of_false (fun h => by cases h) hk
  | some val =>
    rw [hlast] at hfind
    rw [get_present hfind]
    exact iff_of_true rfl (.inr (Option.some_ne_none val))

/-- A new request has no parameter of any name. -/
theorem absent_param_not_default :
    ¬ ∀ (ops : List Op) (k : AttributeMap) (key dflt : List UInt8),
      LookupRight (ops.foldl step (HttpRequest.new 0x11 true)) ops k key dflt := by
  intro h
  have hparam := (h [] .params (bytes "id") (bytes "0")).1
  exact absurd hparam (by decide)

end HttpAttributes
