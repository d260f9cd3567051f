import SylarNet.DecimalText
import SylarNet.SylarHttp
import Mathlib.Data.Int.Notation
import Mathlib.Data.List.TakeWhile

/-!
# Uri objects and their text

`Uri::getPort`, `getPath`, `isDefaultPort` and `toString`, and the split of a text by the
generic syntax of RFC 3986 that they are compared with.
-/
namespace SylarUri

open SylarHttp (bytes)
open DecimalText

structure Uri where
  scheme : List UInt8
  userinfo : List UInt8
  host : List UInt8
  path : List UInt8
  query : List UInt8
  fragment : List UInt8
  port : Int32
  deriving DecidableEq, Repr

def getPort (u : Uri) : Int32 :=
  if u.port ≠ 0 then u.port
  else if u.scheme = bytes "http" ∨ u.scheme = bytes "ws" then 80
  else if u.scheme = bytes "https" ∨ u.scheme = bytes "wss" then 443
  else u.port

def getPath (u : Uri) : List UInt8 := if u.path = [] then bytes "/" else u.path

/-- For the secure schemes the number 443 itself is returned as the truth value. -/
def isDefaultPort (u : Uri) : Bool :=
  if u.port = 0 then true
  else if u.scheme = bytes "http" ∨ u.scheme = bytes "ws" then u.port = 80
  else if u.scheme = bytes "https" ∨ u.scheme = bytes "wss" then (443 : ℤ) ≠ 0
  else false

def toText (u : Uri) : List UInt8 :=
  u.scheme ++ bytes "://" ++
    u.userinfo ++ (if u.userinfo = [] then [] else bytes "@") ++
    u.host ++ (if isDefaultPort u then [] else bytes ":" ++ ofInt u.port.toInt) ++
    getPath u ++
    (if u.query = [] then [] else bytes "?") ++ u.query ++
    (if u.fragment = [] then [] else bytes "#") ++ u.fragment

/-! The generic syntax: first the fragment and the query are cut off, then the scheme, then the
authority, which is cut again. -/

/-- The text up to the first `c`, and what follows it if there is one. -/
def cut (c : UInt8) (s : List UInt8) : List UInt8 × Option (List UInt8) :=
  match s with
  | [] => ([], none)
  | x :: s =>
    if x = c then ([], some s)
    else
      let (before, after) := cut c s
      (x :: before, after)

structure Authority where
  userinfo : Option (List UInt8)
  host : List UInt8
  port : Option (List UInt8)
  deriving DecidableEq, Repr

structure Components where
  scheme : Option (List UInt8)
  authority : Option Authority
  path : List UInt8
  query : Option (List UInt8)
  fragment : Option (List UInt8)
  deriving DecidableEq, Repr

/-- A host in brackets ends with its bracket, another one before the first colon. -/
def splitHost (s : List UInt8) : List UInt8 × Option (List UInt8) :=
  if s.head? = some 91 then
    match cut 93 s with
    | (inner, some after) => (inner ++ [93], (cut 58 after).2)
    | (inner, none) => (inner, none)
  else cut 58 s

def splitAuthority (s : List UInt8) : Authority :=
  match cut 64 s with
  | (userinfo, some rest) =>
    let (host, port) := splitHost rest
    ⟨some userinfo, host, port⟩
  | (rest, none) =>
    let (host, port) := splitHost rest
    ⟨none, host, port⟩

/-- A scheme is not empty and stands before any slash. -/
def splitScheme (s : List UInt8) : Option (List UInt8) × List UInt8 :=
  match cut 58 s with
  | (scheme, some rest) =>
    if scheme = [] ∨ 47 ∈ scheme then (none, s) else (some scheme, rest)
  | (_, none) => (none, s)

def splitHier (s : List UInt8) : Option Authority × List UInt8 :=
  match s with
  | 47 :: 47 :: rest =>
    let authority := rest.takeWhile (· ≠ 47)
    (some (splitAuthority authority), rest.drop authority.length)
  | s => (none, s)

def split (s : List UInt8) : Components :=
  let (front, fragment) := cut 35 s
  let (front, query) := cut 63 front
  let (scheme, hier) := splitScheme front
  let (authority, path) := splitHier hier
  ⟨scheme, authority, path, query, fragment⟩

/-- The port that a scheme stands for, zero for one that has none. -/
def schemePort (scheme : List UInt8) : ℕ :=
  if scheme = bytes "http" ∨ scheme = bytes "ws" then 80
  else if scheme = bytes "https" ∨ scheme = bytes "wss" then 443
  else 0

/-- A port that is not there or empty is that of the scheme. -/
def effectivePort (scheme : List UInt8) : Option (List UInt8) → ℕ
  | none | some [] => schemePort scheme
  | some text => value text

/-- The components say the same as the getters. -/
structure Means (c : Components) (u : Uri) : Prop where
  scheme : c.scheme = some u.scheme
  authority : ∃ a, c.authority = some a ∧ a.userinfo.getD [] = u.userinfo ∧ a.host = u.host ∧
    (effectivePort u.scheme a.port : ℤ) = (getPort u).toInt
  path : c.path = getPath u
  query : c.query.getD [] = u.query
  fragment : c.fragment.getD [] = u.fragment

/-- What the split needs of valid components: no delimiter stands inside of one, and the port
is in its range. -/
structure Valid (u : Uri) : Prop where
  scheme_nonempty : u.scheme ≠ []
  scheme : ∀ c ∈ u.scheme, c ∉ bytes ":/?#"
  userinfo : ∀ c ∈ u.userinfo, c ∉ bytes "/?#@"
  host_nonempty : u.host ≠ []
  host : (∀ c ∈ u.host, c ∉ bytes ":/?#[]@") ∨
    ∃ inner, u.host = 91 :: inner ++ [93] ∧ ∀ c ∈ inner, c ∉ bytes "/?#[]@"
  port : 0 ≤ u.port.toInt ∧ u.port.toInt ≤ 65535
  path : u.path = [] ∨ u.path.head? = some 47
  path_chars : ∀ c ∈ u.path, c ∉ bytes "?#"
  query : ∀ c ∈ u.query, c ∉ bytes "#"

/-! Cutting what was put together. -/

theorem cut_of_not_mem {c : UInt8} {s : List UInt8} (h : c ∉ s) : cut c s = (s, none) := by
  induction s with
  | nil => rfl
  | cons x s ih =>
    rw [List.mem_cons, not_or] at h
    rw [cut, if_neg (fun heq => h.1 heq.symm), ih h.2]

theorem cut_append {c : UInt8} {s : List UInt8} (h : c ∉ s) (t : List UInt8) :
    cut c (s ++ c :: t) = (s, some t) := by
  induction s with
  | nil => exact if_pos rfl
  | cons x s ih =>
    rw [List.mem_cons, not_or] at h
    rw [List.cons_append, cut, if_neg (fun heq => h.1 heq.symm), ih h.2]

/-- A component with its delimiter before it, nothing where it is empty. -/
def after (c : UInt8) (t : List UInt8) : List UInt8 := if t = [] then [] else c :: t

theorem cut_after {c : UInt8} {s : List UInt8} (h : c ∉ s) (t : List UInt8) :
    ((cut c (s ++ after c t)).1, (cut c (s ++ after c t)).2.getD []) = (s, t) := by
  by_cases ht : t = []
  · rw [after, if_pos ht, List.append_nil, cut_of_not_mem h, ht]
    rfl
  · rw [after, if_neg ht, cut_append h]
    rfl

def portText (u : Uri) : List UInt8 := if isDefaultPort u then [] else 58 :: ofInt u.port.toInt

def authorityText (u : Uri) : List UInt8 :=
  (if u.userinfo = [] then [] else u.userinfo ++ [64]) ++ (u.host ++ portText u)

theorem toText_eq (u : Uri) :
    toText u = u.scheme ++ 58 :: 47 :: 47 :: (authorityText u ++ getPath u) ++ after 63 u.query ++
      after 35 u.fragment := by
  have hafter (c : UInt8) (t : List UInt8) : (if t = [] then [] else [c]) ++ t = after c t := by
    by_cases ht : t = [] <;> simp [after, ht]
  have huserinfo : u.userinfo ++ (if u.userinfo = [] then [] else [64]) =
      if u.userinfo = [] then [] else u.userinfo ++ [64] := by
    by_cases hu : u.userinfo = [] <;> simp [hu]
  have hport : (if isDefaultPort u then [] else [58] ++ ofInt u.port.toInt) = portText u := rfl
  have hbytes : bytes "://" = [58, 47, 47] ∧ bytes "@" = [64] ∧ bytes ":" = [58] ∧
      bytes "?" = [63] ∧ bytes "#" = [35] := by decide
  rw [toText, hbytes.1, hbytes.2.1, hbytes.2.2.1, hbytes.2.2.2.1, hbytes.2.2.2.2, hport]
  simp only [List.append_assoc, List.cons_append, List.nil_append, authorityText, ← hafter,
    ← huserinfo]

theorem not_mem_of_disjoint {l delims : List UInt8} (h : ∀ c ∈ l, c ∉ delims) {d : UInt8}
    (hd : d ∈ delims) : d ∉ l := fun hmem => h d hmem hd

variable {u : Uri}

theorem ofInt_port (hu : Valid u) : ofInt u.port.toInt = decimal u.port.toInt.toNat := by
  have h := hu.port.1
  rw [ofInt, if_neg (by omega)]
  congr 1
  omega

theorem portText_chars (hu : Valid u) {c : UInt8} (h : c ∈ portText u) :
    c = 58 ∨ isDigit c = true := by
  rw [portText] at h
  split at h
  · cases h
  · rw [ofInt_port hu, List.mem_cons] at h
    exact h.imp_right isDigit_of_mem_decimal

theorem not_mem_portText (hu : Valid u) {d : UInt8} (hcolon : d ≠ 58)
    (hdigit : isDigit d = false) : d ∉ portText u := by
  intro h
  rcases portText_chars hu h with h | h
  · exact hcolon h
  · rw [hdigit] at h
    cases h

theorem not_mem_host (hu : Valid u) {d : UInt8} (hd : d ∈ bytes "/?#@") : d ∉ u.host := by
  rcases hu.host with h | ⟨inner, h, hinner⟩
  · apply not_mem_of_disjoint h
    revert d
    decide +kernel
  · have hbrackets : d ≠ 91 ∧ d ≠ 93 ∧ d ∈ bytes "/?#[]@" := by
      revert d
      decide +kernel
    have hmem : d ∉ inner := not_mem_of_disjoint hinner hbrackets.2.2
    rw [h]
    simp [hbrackets, hmem]

theorem not_mem_authority (hu : Valid u) {d : UInt8} (hd : d ∈ bytes "/?#") :
    d ∉ authorityText u := by
  have hother : d ≠ 64 ∧ d ≠ 58 ∧ isDigit d = false ∧ d ∈ bytes "/?#@" := by
    revert d
    decide +kernel
  have huserinfo : d ∉ u.userinfo := not_mem_of_disjoint hu.userinfo hother.2.2.2
  have hhost := not_mem_host hu hother.2.2.2
  have hport := not_mem_portText hu hother.2.1 hother.2.2.1
  rw [authorityText]
  split <;> simp [hother.1, huserinfo, hhost, hport]

theorem getPath_eq (hu : Valid u) : ∃ rest, getPath u = 47 :: rest := by
  rw [getPath]
  split
  · exact ⟨[], rfl⟩
  · rename_i hpath
    rcases hu.path with h | h
    · exact absurd h hpath
    · exact List.head?_eq_some_iff.1 h

theorem not_mem_getPath (hu : Valid u) {d : UInt8} (hd : d ∈ bytes "?#") : d ∉ getPath u := by
  rw [getPath]
  split
  · revert d
    decide +kernel
  · exact not_mem_of_disjoint hu.path_chars hd

/-! The pieces of a rendered object. -/

/-- The port that is written, if one is. -/
def writtenPort (u : Uri) : Option (List UInt8) :=
  if isDefaultPort u then none else some (ofInt u.port.toInt)

theorem cut_portText {s : List UInt8} (h : 58 ∉ s) :
    cut 58 (s ++ portText u) = (s, writtenPort u) := by
  rw [portText, writtenPort]
  split
  · rw [List.append_nil, cut_of_not_mem h]
  · rw [cut_append h]

theorem splitHost_eq (hu : Valid u) :
    splitHost (u.host ++ portText u) = (u.host, writtenPort u) := by
  rcases hu.host with h | ⟨inner, h, hinner⟩
  · obtain ⟨c, rest, hhost⟩ := List.exists_cons_of_ne_nil hu.host_nonempty
    have hbracket : ¬ (u.host ++ portText u).head? = some 91 := by
      rw [hhost, List.cons_append, List.head?_cons, Option.some.injEq]
      rintro rfl
      exact h 91 (by rw [hhost]; exact List.mem_cons_self) (by decide)
    rw [splitHost, if_neg hbracket, cut_portText (not_mem_of_disjoint h (by decide))]
  · have hclosing : (93 : UInt8) ∉ 91 :: inner := by
      have hmem : (93 : UInt8) ∉ inner := not_mem_of_disjoint hinner (by decide)
      simp [hmem]
    have htext : u.host ++ portText u = (91 :: inner) ++ 93 :: portText u := by
      rw [h, List.append_assoc]
      rfl
    have hbracket : ((91 :: inner) ++ 93 :: portText u).head? = some 91 := rfl
    have hport : cut 58 ([] ++ portText u) = ([], writtenPort u) :=
      cut_portText List.not_mem_nil
    rw [List.nil_append] at hport
    rw [htext, splitHost, if_pos hbracket, cut_append hclosing, h]
    simp only [hport]

theorem splitAuthority_eq (hu : Valid u) : ∃ userinfo,
    splitAuthority (authorityText u) = ⟨userinfo, u.host, writtenPort u⟩ ∧
      userinfo.getD [] = u.userinfo := by
  have hhost : 64 ∉ u.host ++ portText u := by
    rw [List.mem_append, not_or]
    exact ⟨not_mem_host hu (by decide), not_mem_portText hu (by decide) (by decide)⟩
  by_cases huserinfo : u.userinfo = []
  · refine ⟨none, ?_, huserinfo.symm⟩
    rw [authorityText, if_pos huserinfo, List.nil_append, splitAuthority, cut_of_not_mem hhost]
    simp only [splitHost_eq hu]
  · refine ⟨some u.userinfo, ?_, rfl⟩
    have hat : 64 ∉ u.userinfo := not_mem_of_disjoint hu.userinfo (by decide)
    rw [authorityText, if_neg huserinfo, List.append_assoc, List.singleton_append,
      splitAuthority, cut_append hat]
    simp only [splitHost_eq hu]

theorem splitHier_eq (hu : Valid u) :
    splitHier (47 :: 47 :: (authorityText u ++ getPath u)) =
      (some (splitAuthority (authorityText u)), getPath u) := by
  obtain ⟨rest, hpath⟩ := getPath_eq hu
  have hslash : (47 : UInt8) ∉ authorityText u := not_mem_authority hu (by decide)
  have htake : (authorityText u ++ getPath u).takeWhile (· ≠ 47) = authorityText u := by
    rw [hpath, List.takeWhile_append_of_pos]
    · simp
    · intro c hc
      simpa using fun heq : c = 47 => hslash (heq ▸ hc)
  simp only [splitHier, htake, List.drop_left]

theorem splitScheme_eq (hu : Valid u) (rest : List UInt8) :
    splitScheme (u.scheme ++ 58 :: rest) = (some u.scheme, rest) := by
  have hcolon : (58 : UInt8) ∉ u.scheme := not_mem_of_disjoint hu.scheme (by decide)
  have hslash : (47 : UInt8) ∉ u.scheme := not_mem_of_disjoint hu.scheme (by decide)
  rw [splitScheme, cut_append hcolon]
  exact if_neg (not_or.2 ⟨hu.scheme_nonempty, hslash⟩)

theorem not_mem_front (hu : Valid u) {d : UInt8} (hd : d ∈ bytes "?#") :
    d ∉ u.scheme ++ 58 :: 47 :: 47 :: (authorityText u ++ getPath u) := by
  have hother : d ≠ 58 ∧ d ≠ 47 ∧ d ∈ bytes ":/?#" ∧ d ∈ bytes "/?#" := by
    revert d
    decide +kernel
  have hscheme : d ∉ u.scheme := not_mem_of_disjoint hu.scheme hother.2.2.1
  have hauthority := not_mem_authority hu hother.2.2.2
  have hpath := not_mem_getPath hu hd
  simp [hother.1, hother.2.1, hscheme, hauthority, hpath]

/-- The split of a rendered object: everything but the port is as it was. -/
theorem split_toText (hu : Valid u) : ∃ userinfo query fragment,
    split (toText u) = ⟨some u.scheme, some ⟨userinfo, u.host, writtenPort u⟩, getPath u, query,
      fragment⟩ ∧
      userinfo.getD [] = u.userinfo ∧ query.getD [] = u.query ∧ fragment.getD [] = u.fragment := by
  have hhash : (35 : UInt8) ∉ u.scheme ++ 58 :: 47 :: 47 :: (authorityText u ++ getPath u) ++
      after 63 u.query := by
    have hquery : (35 : UInt8) ∉ u.query := not_mem_of_disjoint hu.query (by decide)
    rw [List.mem_append, not_or]
    refine ⟨not_mem_front hu (by decide), ?_⟩
    rw [after]
    split
    · exact List.not_mem_nil
    · simp [hquery]
  obtain ⟨hback, hfragment⟩ := Prod.mk.inj (cut_after hhash u.fragment)
  have hquestion := not_mem_front hu (d := 63) (by decide)
  obtain ⟨hfront, hquery⟩ := Prod.mk.inj (cut_after hquestion u.query)
  obtain ⟨userinfo, hauthority, huserinfo⟩ := splitAuthority_eq hu
  refine ⟨userinfo, _, _, ?_, huserinfo, hquery, hfragment⟩
  simp only [split, toText_eq, hback, hfront, splitScheme_eq hu, splitHier_eq hu, hauthority]

theorem effectivePort_ofInt (hu : Valid u) :
    (effectivePort u.scheme (some (ofInt u.port.toInt)) : ℤ) = u.port.toInt := by
  have hport := hu.port.1
  rw [ofInt_port hu]
  cases htext : decimal u.port.toInt.toNat with
  | nil => exact absurd htext (decimal_ne_nil _)
  | cons c rest =>
    change ((value (c :: rest) : ℕ) : ℤ) = _
    rw [← htext, value_decimal]
    omega

/-- Of a scheme that is not a secure one, the getter and the renderer know the same default. -/
theorem effectivePort_plain (hu : Valid u)
    (hscheme : ¬ (u.scheme = bytes "https" ∨ u.scheme = bytes "wss")) :
    (effectivePort u.scheme (writtenPort u) : ℤ) = (getPort u).toInt := by
  by_cases hzero : u.port = 0
  · rw [writtenPort, isDefaultPort, if_pos hzero, getPort, if_neg (not_not.2 hzero), hzero,
      if_neg hscheme]
    change ((schemePort u.scheme : ℕ) : ℤ) = _
    rw [schemePort, if_neg hscheme]
    split <;> rfl
  · rw [getPort, if_pos hzero, writtenPort, isDefaultPort, if_neg hzero, if_neg hscheme]
    by_cases hhttp : u.scheme = bytes "http" ∨ u.scheme = bytes "ws"
    · rw [if_pos hhttp]
      by_cases heighty : u.port = 80
      · rw [if_pos (decide_eq_true heighty), heighty]
        change ((schemePort u.scheme : ℕ) : ℤ) = _
        rw [schemePort, if_pos hhttp]
        rfl
      · rw [if_neg (by simpa using heighty)]
        exact effectivePort_ofInt hu
    · rw [if_neg hhttp]
      exact effectivePort_ofInt hu

/-- A secure scheme is always rendered without a port. -/
theorem effectivePort_secure (hscheme : u.scheme = bytes "https" ∨ u.scheme = bytes "wss") :
    (effectivePort u.scheme (writtenPort u) : ℤ) = (getPort u).toInt ↔
      u.port = 0 ∨ u.port = 443 := by
  have hhttp : ¬ (u.scheme = bytes "http" ∨ u.scheme = bytes "ws") := by
    rcases hscheme with h | h <;> rw [h] <;> decide
  have hnone : writtenPort u = none := by
    rw [writtenPort, isDefaultPort, if_neg hhttp, if_pos hscheme]
    split <;> rfl
  have hdefault : effectivePort u.scheme none = 443 := by
    change schemePort u.scheme = 443
    rw [schemePort, if_neg hhttp, if_pos hscheme]
  rw [hnone, hdefault]
  by_cases hzero : u.port = 0
  · rw [getPort, if_neg (not_not.2 hzero), if_neg hhttp, if_pos hscheme]
    exact iff_of_true rfl (Or.inl hzero)
  · rw [getPort, if_pos hzero, or_iff_right hzero, ← Int32.toInt_inj]
    exact eq_comm

/-- Rendering a valid object and splitting the text gives the object back, its port included,
unless the scheme is a secure one with a port of its own. -/
theorem toText_means_iff (u : Uri) (hu : Valid u) :
    Means (split (toText u)) u ↔
      (u.scheme = bytes "https" ∨ u.scheme = bytes "wss" → u.port = 0 ∨ u.port = 443) := by
  obtain ⟨userinfo, query, fragment, hsplit, huserinfo, hquery, hfragment⟩ := split_toText hu
  have hport : (effectivePort u.scheme (writtenPort u) : ℤ) = (getPort u).toInt ↔
      (u.scheme = bytes "https" ∨ u.scheme = bytes "wss" → u.port = 0 ∨ u.port = 443) := by
    by_cases hscheme : u.scheme = bytes "https" ∨ u.scheme = bytes "wss"
    · rw [effectivePort_secure hscheme]
      exact ⟨fun h _ => h, fun h => h hscheme⟩
    · exact iff_of_true (effectivePort_plain hu hscheme) fun h => absurd h hscheme
  rw [← hport, hsplit]
  constructor
  · intro h
    obtain ⟨a, ha, -, -, hpreserved⟩ := h.authority
    cases ha
    exact hpreserved
  · intro h
    exact ⟨rfl, ⟨_, rfl, huserinfo, rfl, h⟩, rfl, hquery, hfragment⟩

def exampleUri : Uri :=
  { scheme := bytes "https"
    userinfo := bytes "user"
    host := bytes "example.com"
    path := bytes "/a"
    query := bytes "q=1"
    fragment := bytes "top"
    port := 443 }

theorem valid_withPort {port : Int32} (h : 0 ≤ port.toInt ∧ port.toInt ≤ 65535) :
    Valid { exampleUri with port := port } := by
  have hscheme : ∀ c ∈ exampleUri.scheme, c ∉ bytes ":/?#" := by decide +kernel
  have huserinfo : ∀ c ∈ exampleUri.userinfo, c ∉ bytes "/?#@" := by decide +kernel
  have hhost : ∀ c ∈ exampleUri.host, c ∉ bytes ":/?#[]@" := by decide +kernel
  have hpath : ∀ c ∈ exampleUri.path, c ∉ bytes "?#" := by decide +kernel
  have hquery : ∀ c ∈ exampleUri.query, c ∉ bytes "#" := by decide +kernel
  have hnonempty : exampleUri.scheme ≠ [] ∧ exampleUri.host ≠ [] := by decide
  exact ⟨hnonempty.1, hscheme, huserinfo, hnonempty.2, .inl hhost, h, .inr rfl, hpath, hquery⟩

theorem valid_exampleUri : Valid exampleUri := valid_withPort (by decide)

theorem toText_means_exampleUri :
    Valid exampleUri ∧ Means (split (toText exampleUri)) exampleUri :=
  ⟨valid_exampleUri, (toText_means_iff exampleUri valid_exampleUri).2 fun _ => Or.inr rfl⟩

/-- The port is lost. -/
theorem toText_loses_port : ¬ ∀ u, Valid u → Means (split (toText u)) u := by
  intro h
  obtain ⟨a, ha, -, -, hport⟩ :=
    (h { exampleUri with port := 8443 } (valid_withPort (by decide))).authority
  have hsplit : (split (toText { exampleUri with port := 8443 })).authority =
      some ⟨some (bytes "user"), bytes "example.com", none⟩ := by decide
  cases hsplit.symm.trans ha
  revert hport
  decide

end SylarUri
