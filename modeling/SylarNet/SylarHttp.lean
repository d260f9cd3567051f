import Mathlib.Data.List.Find
import Mathlib.Data.List.TakeWhile
import Mathlib.Data.Nat.Notation
import Mathlib.Tactic.Common

/-!
# HTTP requests and responses

What a parser collects, and the names of the methods. The header map compares its keys without
regard to case, as C strings.
-/
namespace SylarHttp

/-- The bytes of an ASCII text. -/
def bytes (s : String) : List UInt8 := s.toList.map fun c => UInt8.ofNat c.toNat

inductive HttpMethod where
  | DELETE | GET | HEAD | POST | PUT
  | CONNECT | OPTIONS | TRACE
  | COPY | LOCK | MKCOL | MOVE | PROPFIND | PROPPATCH | SEARCH | UNLOCK | BIND | REBIND | UNBIND
  | ACL
  | REPORT | MKACTIVITY | CHECKOUT | MERGE
  | MSEARCH | NOTIFY | SUBSCRIBE | UNSUBSCRIBE
  | PATCH | PURGE
  | MKCALENDAR
  | LINK | UNLINK
  | SOURCE
  | INVAILD_METHOD
  deriving DecidableEq, Repr

def HTTP_METHOD_MAP : List (HttpMethod × String) :=
  [(.DELETE, "DELETE"), (.GET, "GET"), (.HEAD, "HEAD"), (.POST, "POST"), (.PUT, "PUT"),
    (.CONNECT, "CONNECT"), (.OPTIONS, "OPTIONS"), (.TRACE, "TRACE"),
    (.COPY, "COPY"), (.LOCK, "LOCK"), (.MKCOL, "MKCOL"), (.MOVE, "MOVE"),
    (.PROPFIND, "PROPFIND"), (.PROPPATCH, "PROPPATCH"), (.SEARCH, "SEARCH"),
    (.UNLOCK, "UNLOCK"), (.BIND, "BIND"), (.REBIND, "REBIND"), (.UNBIND, "UNBIND"),
    (.ACL, "ACL"),
    (.REPORT, "REPORT"), (.MKACTIVITY, "MKACTIVITY"), (.CHECKOUT, "CHECKOUT"),
    (.MERGE, "MERGE"),
    (.MSEARCH, "M-SEARCH"), (.NOTIFY, "NOTIFY"), (.SUBSCRIBE, "SUBSCRIBE"),
    (.UNSUBSCRIBE, "UNSUBSCRIBE"),
    (.PATCH, "PATCH"), (.PURGE, "PURGE"),
    (.MKCALENDAR, "MKCALENDAR"),
    (.LINK, "LINK"), (.UNLINK, "UNLINK"),
    (.SOURCE, "SOURCE")]

/-- `strncmp` with the length of the name, so that it asks whether the text starts with it. -/
def charsToHttpMethod (m : List UInt8) : HttpMethod :=
  match HTTP_METHOD_MAP.find? fun x => (bytes x.2).isPrefixOf m with
  | some x => x.1
  | none => .INVAILD_METHOD

theorem isPrefixOf_append {name : List UInt8} {c : UInt8} (hc : c ∉ name) (t tail : List UInt8) :
    name.isPrefixOf (t ++ c :: tail) = name.isPrefixOf t := by
  induction name generalizing t with
  | nil => simp
  | cons x xs ih =>
    rw [List.mem_cons, not_or] at hc
    cases t with
    | nil => simp [List.isPrefixOf, Ne.symm hc.1]
    | cons y ys => simp [List.isPrefixOf, ih hc.2]

/-- No name has a space in it, so that the text is read up to a space at most. -/
theorem charsToHttpMethod_space (t tail : List UInt8) :
    charsToHttpMethod (t ++ 32 :: tail) = charsToHttpMethod t := by
  have hnames : ∀ x ∈ HTTP_METHOD_MAP, 32 ∉ bytes x.2 := by decide
  unfold charsToHttpMethod
  rw [List.find?_congr fun x hx => isPrefixOf_append (hnames x hx) t tail]

def tolower (c : UInt8) : UInt8 := if 65 ≤ c ∧ c ≤ 90 then c + 32 else c

/-- `c_str()` as the C functions see it. -/
def cStr (s : List UInt8) : List UInt8 := s.takeWhile (· != 0)

theorem cStr_of_notMem {s : List UInt8} (h : (0 : UInt8) ∉ s) : cStr s = s := by
  apply List.takeWhile_eq_self_iff.2
  intro c hc
  apply bne_iff_ne.2
  rintro rfl
  exact h hc

def compareBytes : List UInt8 → List UInt8 → Ordering
  | [], [] => .eq
  | [], _ :: _ => .lt
  | _ :: _, [] => .gt
  | x :: xs, y :: ys => (compare x y).then (compareBytes xs ys)

def strcasecmp (s t : List UInt8) : Ordering :=
  compareBytes ((cStr s).map tolower) ((cStr t).map tolower)

/-- What `strcasecmp` compares. -/
def foldCase (s : List UInt8) : List UInt8 := (cStr s).map tolower

theorem compareBytes_eq_iff (s t : List UInt8) : compareBytes s t = .eq ↔ s = t := by
  induction s generalizing t with
  | nil => cases t <;> simp [compareBytes]
  | cons x xs ih =>
    cases t with
    | nil => simp [compareBytes]
    | cons y ys => simp [compareBytes, Ordering.then_eq_eq, ih]

theorem strcasecmp_eq_iff (s t : List UInt8) :
    strcasecmp s t = .eq ↔ foldCase s = foldCase t :=
  compareBytes_eq_iff _ _

/-- In the order of the keys; of equivalent keys the first one given stays. -/
abbrev MapType := List (List UInt8 × List UInt8)

namespace MapType

def find (m : MapType) (key : List UInt8) : Option (List UInt8) :=
  (m.find? fun e => strcasecmp e.1 key = .eq).map (·.2)

/-- `m[key] = val` -/
def assign : MapType → List UInt8 → List UInt8 → MapType
  | [], key, val => [(key, val)]
  | e :: m, key, val =>
    match strcasecmp key e.1 with
    | .lt => (key, val) :: e :: m
    | .eq => (e.1, val) :: m
    | .gt => e :: assign m key val

/-- `erase(key)` takes out what is equivalent to the key. -/
def erase (m : MapType) (key : List UInt8) : MapType :=
  m.filter fun e => strcasecmp e.1 key ≠ .eq

theorem find_cons (e : List UInt8 × List UInt8) (m : MapType) (key : List UInt8) :
    find (e :: m) key = if foldCase e.1 = foldCase key then some e.2 else find m key := by
  unfold find
  rw [List.find?_cons]
  split
  · next h => rw [if_pos ((strcasecmp_eq_iff _ _).1 (of_decide_eq_true h)), Option.map_some]
  · next h => rw [if_neg fun he => of_decide_eq_false h ((strcasecmp_eq_iff _ _).2 he)]

theorem find_assign (m : MapType) (key val k : List UInt8) :
    (m.assign key val).find k = if foldCase key = foldCase k then some val else m.find k := by
  induction m with
  | nil => rw [assign, find_cons]
  | cons e m ih =>
    rw [assign]
    split
    · rw [find_cons]
    · next h =>
      have heq := (strcasecmp_eq_iff _ _).1 h
      simp only [find_cons, heq]
      split <;> rfl
    · next h =>
      have hne : foldCase key ≠ foldCase e.1 := fun he => by
        rw [(strcasecmp_eq_iff _ _).2 he] at h
        cases h
      rw [find_cons, find_cons, ih]
      by_cases hk : foldCase e.1 = foldCase k
      · rw [if_pos hk, if_pos hk, if_neg fun he => hne (he.trans hk.symm)]
      · rw [if_neg hk, if_neg hk]

theorem find_erase (m : MapType) (key k : List UInt8) :
    (m.erase key).find k = if foldCase key = foldCase k then none else m.find k := by
  induction m with
  | nil => exact (ite_self none).symm
  | cons e m ih =>
    unfold erase at ih ⊢
    by_cases he : foldCase e.1 = foldCase key
    · have hout : strcasecmp e.1 key = .eq := (strcasecmp_eq_iff _ _).2 he
      rw [List.filter_cons_of_neg (by simp [hout]), ih, find_cons, he]
      split <;> rfl
    · have hin : strcasecmp e.1 key ≠ .eq := fun h => he ((strcasecmp_eq_iff _ _).1 h)
      rw [List.filter_cons_of_pos (by simp [hin]), find_cons, find_cons, ih]
      by_cases hk : foldCase e.1 = foldCase k
      · rw [if_pos hk, if_pos hk, if_neg fun h => he (hk.trans h.symm)]
      · rw [if_neg hk, if_neg hk]

/-- The comparison is that of the folded names, byte by byte. -/
theorem compareBytes_eq_compareLex (s t : List UInt8) :
    compareBytes s t = List.compareLex compare s t := by
  induction s generalizing t with
  | nil => cases t <;> rfl
  | cons x xs ih =>
    cases t with
    | nil => rfl
    | cons y ys => simp only [compareBytes, List.compareLex_cons_cons, ih]

theorem strcasecmp_trans {s t u : List UInt8} (hst : strcasecmp s t = .lt)
    (htu : strcasecmp t u = .lt) : strcasecmp s u = .lt := by
  simp only [strcasecmp, compareBytes_eq_compareLex] at hst htu ⊢
  exact Std.TransCmp.lt_trans hst htu

theorem strcasecmp_gt {s t : List UInt8} : strcasecmp s t = .gt ↔ strcasecmp t s = .lt := by
  simp only [strcasecmp, compareBytes_eq_compareLex]
  exact Std.OrientedCmp.gt_iff_lt

/-- A map in the order of its keys, of which no two are equivalent. -/
def Sorted (m : MapType) : Prop := m.Pairwise fun a b => strcasecmp a.1 b.1 = .lt

theorem key_of_mem_assign {m : MapType} {key val : List UInt8} {e : List UInt8 × List UInt8}
    (h : e ∈ m.assign key val) : e.1 = key ∨ ∃ x ∈ m, x.1 = e.1 := by
  induction m with
  | nil => exact .inl (congrArg Prod.fst (List.mem_singleton.1 h))
  | cons x m ih =>
    unfold assign at h
    split at h
    · rcases List.mem_cons.1 h with rfl | h
      · exact .inl rfl
      · exact .inr ⟨e, h, rfl⟩
    · rcases List.mem_cons.1 h with rfl | h
      · exact .inr ⟨x, List.mem_cons_self, rfl⟩
      · exact .inr ⟨e, List.mem_cons_of_mem _ h, rfl⟩
    · rcases List.mem_cons.1 h with rfl | h
      · exact .inr ⟨e, List.mem_cons_self, rfl⟩
      · rcases ih h with hkey | ⟨y, hy, heq⟩
        · exact .inl hkey
        · exact .inr ⟨y, List.mem_cons_of_mem _ hy, heq⟩

theorem Sorted.assign {m : MapType} (h : Sorted m) (key val : List UInt8) :
    Sorted (m.assign key val) := by
  induction m with
  | nil => exact List.pairwise_singleton _ _
  | cons x m ih =>
    obtain ⟨hfirst, hrest⟩ := List.pairwise_cons.1 h
    unfold MapType.assign
    split
    · next hlt =>
      apply List.pairwise_cons.2
      refine ⟨?_, h⟩
      intro y hy
      rcases List.mem_cons.1 hy with rfl | hy
      · exact hlt
      · exact strcasecmp_trans hlt (hfirst y hy)
    · exact List.pairwise_cons.2 ⟨hfirst, hrest⟩
    · next hgt =>
      apply List.pairwise_cons.2
      refine ⟨?_, ih hrest⟩
      intro y hy
      rcases key_of_mem_assign hy with hkey | ⟨z, hz, heq⟩
      · exact hkey ▸ strcasecmp_gt.1 hgt
      · exact heq ▸ hfirst z hz

theorem Sorted.find_of_mem {m : MapType} (h : Sorted m) {e : List UInt8 × List UInt8}
    (he : e ∈ m) : m.find e.1 = some e.2 := by
  induction m with
  | nil => cases he
  | cons x m ih =>
    obtain ⟨hfirst, hrest⟩ := List.pairwise_cons.1 h
    rcases List.mem_cons.1 he with rfl | he
    · simp only [find_cons, if_true]
    · have hne : foldCase x.1 ≠ foldCase e.1 := by
        intro heq
        have hlt := hfirst e he
        simp [(strcasecmp_eq_iff x.1 e.1).2 heq] at hlt
      simp only [find_cons, hne, if_false, ih hrest he]

theorem find_congr (m : MapType) {key key' : List UInt8} (h : foldCase key = foldCase key') :
    m.find key = m.find key' := by
  induction m with
  | nil => rfl
  | cons x m ih => simp only [find_cons, h, ih]

theorem mem_of_find {m : MapType} {key val : List UInt8} (h : m.find key = some val) :
    ∃ e ∈ m, foldCase e.1 = foldCase key ∧ e.2 = val := by
  obtain ⟨e, he, hval⟩ := Option.map_eq_some_iff.1 h
  have hkey := List.find?_some he
  exact ⟨e, List.mem_of_find?_eq_some he,
    (strcasecmp_eq_iff _ _).1 (of_decide_eq_true hkey), hval⟩

/-- Entries under other keys stay as they are. -/
theorem mem_assign_of_ne {m : MapType} {key val : List UInt8} {e : List UInt8 × List UInt8}
    (he : e ∈ m) (hne : foldCase e.1 ≠ foldCase key) : e ∈ m.assign key val := by
  induction m with
  | nil => cases he
  | cons x m ih =>
    unfold assign
    split
    · exact List.mem_cons_of_mem _ he
    · next heq =>
      rcases List.mem_cons.1 he with rfl | he
      · exact absurd ((strcasecmp_eq_iff _ _).1 heq).symm hne
      · exact List.mem_cons_of_mem _ he
    · rcases List.mem_cons.1 he with rfl | he
      · exact List.mem_cons_self
      · exact List.mem_cons_of_mem _ (ih he)

theorem mem_assign_of_find {m : MapType} {key : List UInt8} (h : m.find key = none)
    (val : List UInt8) : (key, val) ∈ m.assign key val := by
  induction m with
  | nil => exact List.mem_cons_self
  | cons x m ih =>
    have hne : foldCase x.1 ≠ foldCase key := by
      intro heq
      simp only [find_cons, heq, if_true, reduceCtorEq] at h
    simp only [find_cons, hne, if_false] at h
    unfold assign
    split
    · exact List.mem_cons_self
    · next heq => exact absurd ((strcasecmp_eq_iff _ _).1 heq).symm hne
    · exact List.mem_cons_of_mem _ (ih h)

end MapType

structure HttpRequest where
  method : HttpMethod
  version : UInt8
  close : Bool
  websocket : Bool
  path : List UInt8
  query : List UInt8
  fragment : List UInt8
  body : List UInt8
  headers : MapType
  params : MapType
  cookies : MapType
  deriving DecidableEq, Repr

namespace HttpRequest

def new (version : UInt8) (close : Bool) : HttpRequest :=
  ⟨.GET, version, close, false, bytes "/", [], [], [], [], [], []⟩

def setHeader (r : HttpRequest) (key val : List UInt8) : HttpRequest :=
  { r with headers := r.headers.assign key val }

def getHeader (r : HttpRequest) (key : List UInt8) : List UInt8 := (r.headers.find key).getD []

/-- `getHeaderAs<uint64_t>`; what `lexical_cast` throws at gives the default. -/
def getHeaderAs (lexicalCast : List UInt8 → Option UInt64) (r : HttpRequest) (key : List UInt8)
    (dflt : UInt64) : UInt64 :=
  ((r.headers.find key).bind lexicalCast).getD dflt

def init (r : HttpRequest) : HttpRequest :=
  let conn := r.getHeader (bytes "connection")
  if conn.isEmpty then r
  else { r with close := strcasecmp conn (bytes "keep-alive") ≠ .eq }

end HttpRequest

/-- `status` is the `int` of an `HttpStatus`. -/
structure HttpResponse where
  status : ℤ
  version : UInt8
  close : Bool
  websocket : Bool
  body : List UInt8
  reason : List UInt8
  headers : MapType
  deriving DecidableEq, Repr

namespace HttpResponse

def new (version : UInt8) (close : Bool) : HttpResponse := ⟨200, version, close, false, [], [], []⟩

def setHeader (r : HttpResponse) (key val : List UInt8) : HttpResponse :=
  { r with headers := r.headers.assign key val }

def getHeaderAs (lexicalCast : List UInt8 → Option UInt64) (r : HttpResponse) (key : List UInt8)
    (dflt : UInt64) : UInt64 :=
  ((r.headers.find key).bind lexicalCast).getD dflt

end HttpResponse

end SylarHttp
