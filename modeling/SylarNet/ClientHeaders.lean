import SylarNet.Base64
import SylarNet.HttpDump
import SylarNet.SylarUri

/-!
# The headers of a client

`WSConnection::Create` and `HttpConnection::DoRequest` go over the headers of the caller once. On
the way they note whether there is a `Host` and a `Connection` among them, and then add what the
caller did not give.
-/
namespace ClientHeaders

open SylarHttp HeaderLines HttpDump SylarUri

/-- The two flags of the loop, and the request so far. -/
structure Scan where
  has_host : Bool
  has_conn : Bool
  req : HttpRequest

namespace WSConnection

def scan (s : Scan) (header : Field) : Scan :=
  let s :=
    if strcasecmp header.1 (bytes "connection") = .eq then { s with has_conn := true }
    else if !s.has_conn && strcasecmp header.1 (bytes "host") = .eq then
      { s with has_host := !header.2.isEmpty }
    else s
  { s with req := s.req.setHeader header.1 header.2 }

/-- The request of `Create`; `random` is what `random_string(16)` returned. -/
def request (uri : Uri) (headers : List Field) (random : List UInt8) : HttpRequest :=
  let req := { HttpRequest.new 0x11 true with
    path := getPath uri, query := uri.query, fragment := uri.fragment, method := .GET }
  let s := headers.foldl scan ⟨false, false, req⟩
  let req := { s.req with websocket := true }
  let req := if s.has_conn then req else req.setHeader (bytes "connection") (bytes "Upgrade")
  let req := req.setHeader (bytes "Upgrade") (bytes "websocket")
  let req := req.setHeader (bytes "Sec-websocket-Version") (bytes "13")
  let req := req.setHeader (bytes "Sec-websocket-Key") (Base64.base64encode random)
  if s.has_host then req else req.setHeader (bytes "Host") uri.host

end WSConnection

namespace HttpConnection

/-- A `Connection` is not a header of the request, it says whether to close. -/
def scan (s : Scan) (header : Field) : Scan :=
  if strcasecmp header.1 (bytes "connection") = .eq then
    if strcasecmp header.2 (bytes "keep-alive") = .eq then
      { s with req := { s.req with close := false } }
    else s
  else
    let s :=
      if !s.has_host && strcasecmp header.1 (bytes "host") = .eq then
        { s with has_host := !header.2.isEmpty }
      else s
    { s with req := s.req.setHeader header.1 header.2 }

/-- The request of `DoRequest`, which has no flag for the connection. -/
def request (method : HttpMethod) (uri : Uri) (headers : List Field) (body : List UInt8) :
    HttpRequest :=
  let req := { HttpRequest.new 0x11 true with
    path := getPath uri, query := uri.query, fragment := uri.fragment, method := method }
  let s := headers.foldl scan ⟨false, false, req⟩
  let req := if s.has_host then s.req else s.req.setHeader (bytes "host") uri.host
  { req with body := body }

end HttpConnection

/-- The header lines of the request that is sent. -/
def sentHeaders (r : HttpRequest) : List Field := dumpedHeaders r.websocket r.headers

/-- No two of the caller's names are equal ignoring case. -/
def Distinct (headers : List Field) : Prop :=
  headers.Pairwise fun a b => foldCase a.1 ≠ foldCase b.1

instance (headers : List Field) : Decidable (Distinct headers) :=
  inferInstanceAs (Decidable (List.Pairwise _ _))

/-- Whatever line has this name has this value, and there is one. -/
def Says (fields : List Field) (name : String) (value : List UInt8) : Prop :=
  (∃ f ∈ fields, foldCase f.1 = foldCase (bytes name)) ∧
    ∀ f ∈ fields, foldCase f.1 = foldCase (bytes name) → f.2 = value

/-- The caller's value if that is not empty. -/
def hostOf (uri : Uri) (headers : List Field) : List UInt8 :=
  match MapType.find headers (bytes "host") with
  | some value => if value = [] then uri.host else value
  | none => uri.host

def connectionOf (headers : List Field) : List UInt8 :=
  (MapType.find headers (bytes "connection")).getD (bytes "Upgrade")

/-- What `Create` sets whatever the caller gave. -/
def overridden : List String := ["Upgrade", "Sec-websocket-Version", "Sec-websocket-Key"]

structure Upgrades (uri : Uri) (headers : List Field) (random : List UInt8) (r : HttpRequest) :
    Prop where
  text : HttpRequest.dump r =
    HttpRequest.firstLine r ++ (sentHeaders r).flatMap fieldLine ++ [13, 10]
  carried : ∀ f ∈ headers, (∀ name ∈ "Host" :: overridden, foldCase f.1 ≠ foldCase (bytes name)) →
    f ∈ sentHeaders r
  upgrade : Says (sentHeaders r) "Upgrade" (bytes "websocket")
  version : Says (sentHeaders r) "Sec-websocket-Version" (bytes "13")
  key : Says (sentHeaders r) "Sec-websocket-Key" (Base64.base64encode random)
  connection : Says (sentHeaders r) "connection" (connectionOf headers)
  host : Says (sentHeaders r) "Host" (hostOf uri headers)

/-- Both requests are as the caller and the URI say. -/
structure Right (method : HttpMethod) (uri : Uri) (headers : List Field)
    (random body : List UInt8) : Prop where
  websocket : Upgrades uri headers random (WSConnection.request uri headers random)
  http : Says (sentHeaders (HttpConnection.request method uri headers body)) "host"
    (hostOf uri headers)

def isConnection (f : Field) : Bool := strcasecmp f.1 (bytes "connection") = .eq

def isHost (f : Field) : Bool := strcasecmp f.1 (bytes "host") = .eq

/-- The caller's `Host` would be used, but comes behind a `Connection`. -/
def Masked (uri : Uri) (headers : List Field) : Prop :=
  ∃ front host rest, headers = front ++ host :: rest ∧ isHost host = true ∧
    front.any isConnection = true ∧ host.2 ≠ [] ∧ host.2 ≠ uri.host

section Maps

theorem sorted_load {m : MapType} (h : m.Sorted) (fs : List Field) : (load m fs).Sorted := by
  induction fs generalizing m with
  | nil => exact h
  | cons f fs ih => exact ih (h.assign f.1 f.2)

theorem find_absent {fs : List Field} {key : List UInt8}
    (h : ∀ f ∈ fs, foldCase key ≠ foldCase f.1) : MapType.find fs key = none := by
  induction fs with
  | nil => rfl
  | cons f fs ih =>
    obtain ⟨hf, hfs⟩ := List.forall_mem_cons.1 h
    simp only [MapType.find_cons, Ne.symm hf, if_false, ih hfs]

/-- The lines of distinct names are found in the map as in the list. -/
theorem find_load_distinct {fs : List Field} (h : Distinct fs) (m : MapType) (key : List UInt8) :
    (load m fs).find key = (MapType.find fs key).or (m.find key) := by
  induction fs generalizing m with
  | nil => rfl
  | cons f fs ih =>
    obtain ⟨hfirst, hrest⟩ := List.pairwise_cons.1 h
    have hload := ih hrest (m.assign f.1 f.2)
    simp only [load, List.foldl_cons] at hload ⊢
    simp only [hload, MapType.find_assign, MapType.find_cons]
    by_cases hkey : foldCase f.1 = foldCase key
    · have hnone : MapType.find fs key = none := find_absent fun g hg => hkey ▸ hfirst g hg
      simp [hkey, hnone]
    · simp only [hkey, if_false]

theorem mem_load_of_ne {fs : List Field} {m : MapType} {e : Field} (he : e ∈ m)
    (h : ∀ f ∈ fs, foldCase e.1 ≠ foldCase f.1) : e ∈ load m fs := by
  induction fs generalizing m with
  | nil => exact he
  | cons f fs ih =>
    obtain ⟨hf, hfs⟩ := List.forall_mem_cons.1 h
    exact ih (MapType.mem_assign_of_ne he hf) hfs

theorem mem_load {fs : List Field} (h : Distinct fs) {m : MapType}
    (hm : ∀ f ∈ fs, m.find f.1 = none) {f : Field} (hf : f ∈ fs) : f ∈ load m fs := by
  induction fs generalizing m with
  | nil => cases hf
  | cons g fs ih =>
    obtain ⟨hfirst, hrest⟩ := List.pairwise_cons.1 h
    obtain ⟨hg, hfs⟩ := List.forall_mem_cons.1 hm
    rcases List.mem_cons.1 hf with rfl | hf
    · have hassign : f ∈ m.assign f.1 f.2 := MapType.mem_assign_of_find hg f.2
      change f ∈ load (m.assign f.1 f.2) fs
      exact mem_load_of_ne hassign hfirst
    · apply ih hrest _ hf
      intro x hx
      simp only [MapType.find_assign, hfirst x hx, if_false, hfs x hx]

theorem says_iff {m : MapType} (h : m.Sorted) (name : String) (value : List UInt8) :
    Says m name value ↔ m.find (bytes name) = some value := by
  constructor
  · rintro ⟨⟨f, hf, hname⟩, hall⟩
    exact (MapType.find_congr m hname).symm.trans
      ((h.find_of_mem hf).trans (congrArg some (hall f hf hname)))
  · intro hfind
    obtain ⟨f, hf, hname, -⟩ := MapType.mem_of_find hfind
    refine ⟨⟨f, hf, hname⟩, ?_⟩
    intro g hg hgname
    have hsome := (h.find_of_mem hg).symm.trans (MapType.find_congr m hgname)
    exact Option.some.inj (hsome.trans hfind)

end Maps

section Flags

theorem isHost_iff {f : Field} : isHost f = true ↔ foldCase f.1 = foldCase (bytes "host") :=
  decide_eq_true_iff.trans (strcasecmp_eq_iff _ _)

theorem isConnection_iff {f : Field} :
    isConnection f = true ↔ foldCase f.1 = foldCase (bytes "connection") :=
  decide_eq_true_iff.trans (strcasecmp_eq_iff _ _)

theorem host_ne_connection : foldCase (bytes "host") ≠ foldCase (bytes "connection") := by decide

theorem isConnection_of_isHost {f : Field} (h : isHost f = true) : isConnection f = false := by
  apply Bool.eq_false_iff.2
  intro hconn
  exact host_ne_connection ((isHost_iff.1 h).symm.trans (isConnection_iff.1 hconn))

/-- A host has its place in the list, and there is no other. -/
theorem find_host {front rest : List Field} {host : Field}
    (hdistinct : Distinct (front ++ host :: rest)) (hhost : isHost host = true) :
    MapType.find (front ++ host :: rest) (bytes "host") = some host.2 ∧
      (∀ f ∈ front, isHost f = false) ∧ ∀ f ∈ rest, isHost f = false := by
  have hname := isHost_iff.1 hhost
  obtain ⟨-, hbehind, hfront⟩ := List.pairwise_append.1 hdistinct
  have hno : ∀ f : Field, foldCase f.1 ≠ foldCase host.1 → isHost f = false := fun f hf =>
    Bool.eq_false_iff.2 fun h => hf ((isHost_iff.1 h).trans hname.symm)
  have hbefore : ∀ f ∈ front, isHost f = false := fun f hf =>
    hno f (hfront f hf host List.mem_cons_self)
  refine ⟨?_, hbefore, fun f hf => hno f ((List.pairwise_cons.1 hbehind).1 f hf).symm⟩
  clear hdistinct hfront
  induction front with
  | nil => simp only [List.nil_append, MapType.find_cons, hname, if_true]
  | cons f front ih =>
    obtain ⟨hf, hrest⟩ := List.forall_mem_cons.1 hbefore
    have hne : foldCase f.1 ≠ foldCase (bytes "host") := fun heq =>
      Bool.eq_false_iff.1 hf (isHost_iff.2 heq)
    simp only [List.cons_append, MapType.find_cons, hne, if_false]
    exact ih hrest

theorem exists_host {headers : List Field} {value : List UInt8}
    (h : MapType.find headers (bytes "host") = some value) :
    ∃ front host rest, headers = front ++ host :: rest ∧ isHost host = true ∧ host.2 = value := by
  obtain ⟨host, hmem, hname, hvalue⟩ := MapType.mem_of_find h
  obtain ⟨front, rest, hsplit⟩ := List.append_of_mem hmem
  exact ⟨front, host, rest, hsplit, isHost_iff.2 hname, hvalue⟩

theorem no_host {headers : List Field} (h : MapType.find headers (bytes "host") = none) :
    ∀ f ∈ headers, isHost f = false := by
  intro f hf
  have hall := List.find?_eq_none.1 (Option.map_eq_none_iff.1 h) f hf
  exact Bool.eq_false_iff.2 hall

/-- A loop whose step looks at no other header for the flag leaves it. -/
theorem foldl_no_host {step : Scan → Field → Scan}
    (hstep : ∀ s f, isHost f = false → (step s f).has_host = s.has_host) {l : List Field}
    (h : ∀ f ∈ l, isHost f = false) (s : Scan) : (l.foldl step s).has_host = s.has_host := by
  induction l generalizing s with
  | nil => rfl
  | cons f l ih =>
    obtain ⟨hf, hl⟩ := List.forall_mem_cons.1 h
    exact (ih hl (step s f)).trans (hstep s f hf)

end Flags

namespace WSConnection

theorem scan_eq (s : Scan) (f : Field) : scan s f =
    { has_host := if !s.has_conn && isHost f && !isConnection f then !f.2.isEmpty else s.has_host
      has_conn := s.has_conn || isConnection f
      req := s.req.setHeader f.1 f.2 } := by
  unfold scan isHost isConnection
  by_cases hconn : strcasecmp f.1 (bytes "connection") = .eq
  · simp [hconn]
  · by_cases hhost : s.has_conn = false ∧ strcasecmp f.1 (bytes "host") = .eq
    · simp [hconn, hhost]
    · cases hc : s.has_conn <;> simp_all

theorem foldl_scan (l : List Field) (s : Scan) :
    (l.foldl scan s).req = { s.req with headers := load s.req.headers l } ∧
      (l.foldl scan s).has_conn = (s.has_conn || l.any isConnection) := by
  induction l generalizing s with
  | nil => simp [load]
  | cons f l ih =>
    obtain ⟨hreq, hconn⟩ := ih (scan s f)
    simp only [scan_eq s f] at hreq hconn
    refine ⟨?_, ?_⟩
    · simp only [List.foldl_cons, scan_eq, hreq]
      rfl
    · simp only [List.foldl_cons, scan_eq, hconn, List.any_cons, Bool.or_assoc]

theorem scan_no_host (s : Scan) (f : Field) (h : isHost f = false) :
    (scan s f).has_host = s.has_host := by
  simp only [scan_eq, h, Bool.and_false, Bool.false_and, Bool.false_eq_true, if_false]

/-- The flag is set by the host itself, and only where no connection came before it. -/
theorem foldl_scan_host {front rest : List Field} {host : Field}
    (hdistinct : Distinct (front ++ host :: rest)) (hhost : isHost host = true)
    (req : HttpRequest) :
    ((front ++ host :: rest).foldl scan ⟨false, false, req⟩).has_host =
      (!front.any isConnection && !host.2.isEmpty) := by
  obtain ⟨-, hfront, hrest⟩ := find_host hdistinct hhost
  have hconn := (foldl_scan front ⟨false, false, req⟩).2
  have hflag := foldl_no_host scan_no_host hfront ⟨false, false, req⟩
  simp only [Bool.false_or] at hconn
  simp only [List.foldl_append, List.foldl_cons, foldl_no_host scan_no_host hrest, scan_eq, hconn,
    hflag, hhost, isConnection_of_isHost hhost, Bool.not_false, Bool.and_true]
  cases front.any isConnection <;> rfl

/-- What is set behind the loop. -/
def added (has_host has_conn : Bool) (uri : Uri) (random : List UInt8) : List Field :=
  (if has_conn then [] else [(bytes "connection", bytes "Upgrade")]) ++
    [(bytes "Upgrade", bytes "websocket"), (bytes "Sec-websocket-Version", bytes "13"),
      (bytes "Sec-websocket-Key", Base64.base64encode random)] ++
    (if has_host then [] else [(bytes "Host", uri.host)])

def base (uri : Uri) : HttpRequest :=
  { HttpRequest.new 0x11 true with
    path := getPath uri, query := uri.query, fragment := uri.fragment, method := .GET }

variable (uri : Uri) (headers : List Field) (random : List UInt8)

def hostFound : Bool := (headers.foldl scan ⟨false, false, base uri⟩).has_host

theorem request_eq : request uri headers random =
    { base uri with
      websocket := true
      headers := load (load [] headers)
        (added (hostFound uri headers) (headers.any isConnection) uri random) } := by
  obtain ⟨hreq, hconn⟩ := foldl_scan headers ⟨false, false, base uri⟩
  simp only [Bool.false_or] at hconn
  unfold hostFound
  cases hhost : (headers.foldl scan ⟨false, false, base uri⟩).has_host <;>
    cases hany : headers.any isConnection <;>
    simp only [request, base, hany] at hreq hconn hhost ⊢ <;>
    simp only [hreq, hconn, hhost] <;> rfl

theorem distinct_added (has_host has_conn : Bool) :
    Distinct (added has_host has_conn uri random) := by
  have hnames : ((added false false uri random).map fun f => foldCase f.1).Pairwise (· ≠ ·) := by
    change [foldCase (bytes "connection"), foldCase (bytes "Upgrade"),
      foldCase (bytes "Sec-websocket-Version"), foldCase (bytes "Sec-websocket-Key"),
      foldCase (bytes "Host")].Pairwise (· ≠ ·)
    decide
  have hall : Distinct (added false false uri random) := List.pairwise_map.1 hnames
  have hsub : (added has_host has_conn uri random).Sublist (added false false uri random) := by
    apply List.Sublist.append
    · apply List.Sublist.append _ (List.Sublist.refl _)
      cases has_conn
      · exact List.Sublist.refl _
      · exact List.nil_sublist _
    · cases has_host
      · exact List.Sublist.refl _
      · exact List.nil_sublist _
  exact hall.sublist hsub

variable {uri headers random}

theorem sentHeaders_request : sentHeaders (request uri headers random) =
    load (load [] headers)
      (added (hostFound uri headers) (headers.any isConnection) uri random) := by
  simp [request_eq, sentHeaders, dumpedHeaders]

theorem says_iff_find (h : Distinct headers) (name : String) (value : List UInt8) :
    Says (sentHeaders (request uri headers random)) name value ↔
      (MapType.find (added (hostFound uri headers) (headers.any isConnection) uri random)
        (bytes name)).or (MapType.find headers (bytes name)) = some value := by
  have hnil : MapType.Sorted [] := List.Pairwise.nil
  have hsorted := sorted_load (sorted_load hnil headers)
    (added (hostFound uri headers) (headers.any isConnection) uri random)
  have hempty : MapType.find [] (bytes name) = none := rfl
  have hfind := find_load_distinct
    (distinct_added uri random (hostFound uri headers) (headers.any isConnection))
    (load [] headers) (bytes name)
  simp only [sentHeaders_request, says_iff hsorted, hfind, find_load_distinct h, hempty,
    Option.or_none]

/-- Every header of the caller is there whose name is not set again. -/
theorem mem_sentHeaders (h : Distinct headers) {f : Field} (hf : f ∈ headers)
    (hname : ∀ name ∈ "Host" :: overridden, foldCase f.1 ≠ foldCase (bytes name)) :
    f ∈ sentHeaders (request uri headers random) := by
  simp only [sentHeaders_request]
  apply mem_load_of_ne (mem_load h (fun _ _ => rfl) hf)
  simp only [overridden, List.forall_mem_cons] at hname
  obtain ⟨hhost, hupgrade, hversion, hkey, -⟩ := hname
  intro g hg
  simp only [added, List.mem_append, List.mem_cons, List.not_mem_nil, or_false] at hg
  rcases hg with (hconn | rfl | rfl | rfl) | hlast
  · cases hany : headers.any isConnection with
    | true => simp [hany] at hconn
    | false =>
      simp only [hany, Bool.false_eq_true, if_false, List.mem_singleton] at hconn
      intro heq
      have hnone := List.any_eq_false.1 hany f hf
      exact hnone (isConnection_iff.2 (heq.trans (congrArg (fun g : Field => foldCase g.1) hconn)))
  · exact hupgrade
  · exact hversion
  · exact hkey
  · cases hfound : hostFound uri headers with
    | true => simp [hfound] at hlast
    | false =>
      simp only [hfound, Bool.false_eq_true, if_false, List.mem_singleton] at hlast
      exact hlast ▸ hhost

theorem find_added_host (has_host has_conn : Bool) :
    MapType.find (added has_host has_conn uri random) (bytes "host") =
      if has_host then none else some uri.host := by
  cases has_host <;> cases has_conn <;> rfl

theorem find_added_connection (has_host has_conn : Bool) :
    MapType.find (added has_host has_conn uri random) (bytes "connection") =
      if has_conn then none else some (bytes "Upgrade") := by
  cases has_host <;> cases has_conn <;> rfl

theorem find_added_overridden (has_host has_conn : Bool) :
    MapType.find (added has_host has_conn uri random) (bytes "Upgrade") =
        some (bytes "websocket") ∧
      MapType.find (added has_host has_conn uri random) (bytes "Sec-websocket-Version") =
        some (bytes "13") ∧
      MapType.find (added has_host has_conn uri random) (bytes "Sec-websocket-Key") =
        some (Base64.base64encode random) := by
  cases has_host <;> cases has_conn <;> exact ⟨rfl, rfl, rfl⟩

theorem says_connection (h : Distinct headers) :
    Says (sentHeaders (request uri headers random)) "connection" (connectionOf headers) := by
  simp only [says_iff_find h, find_added_connection, connectionOf]
  cases hany : headers.any isConnection with
  | true =>
    obtain ⟨f, hf, hconn⟩ := List.any_eq_true.1 hany
    cases hfind : MapType.find headers (bytes "connection") with
    | some value => rfl
    | none =>
      have hnone := List.find?_eq_none.1 (Option.map_eq_none_iff.1 hfind) f hf
      exact absurd hconn hnone
  | false =>
    have hfind : MapType.find headers (bytes "connection") = none := by
      apply find_absent
      intro f hf heq
      exact List.any_eq_false.1 hany f hf (isConnection_iff.2 heq.symm)
    simp only [hfind]
    rfl

theorem find_Host (headers : List Field) :
    MapType.find headers (bytes "Host") = MapType.find headers (bytes "host") :=
  MapType.find_congr headers (by decide)

theorem says_host_iff (h : Distinct headers) :
    Says (sentHeaders (request uri headers random)) "Host" (hostOf uri headers) ↔
      ¬Masked uri headers := by
  simp only [says_iff_find h, find_Host, find_added_host]
  constructor
  · rintro hsays ⟨front, host, rest, rfl, hhost, hconn, hne, hdiff⟩
    have hfound : hostFound uri (front ++ host :: rest) = false := by
      simp only [hostFound, foldl_scan_host h hhost, hconn, Bool.not_true, Bool.false_and]
    simp only [hfound, Bool.false_eq_true, if_false, Option.some_or, hostOf,
      (find_host h hhost).1, hne, Option.some.injEq] at hsays
    exact hdiff hsays.symm
  · intro hmasked
    cases hfind : MapType.find headers (bytes "host") with
    | none =>
      have hfound : hostFound uri headers = false := foldl_no_host scan_no_host (no_host hfind) _
      simp only [hfound, hostOf, hfind, Bool.false_eq_true, if_false, Option.some_or]
    | some value =>
      obtain ⟨front, host, rest, rfl, hhost, rfl⟩ := exists_host hfind
      have hfound : hostFound uri (front ++ host :: rest) =
          (!front.any isConnection && !host.2.isEmpty) := foldl_scan_host h hhost _
      simp only [hfound, hostOf, hfind]
      by_cases hempty : host.2 = []
      · simp [hempty]
      · cases hconn : front.any isConnection with
        | false => simp [hempty]
        | true =>
          have hsame : host.2 = uri.host := by
            by_contra hdiff
            exact hmasked ⟨front, host, rest, rfl, hhost, hconn, hempty, hdiff⟩
          simp [hsame]

/-- All but the host is as it should be, whatever the caller gave. -/
theorem upgrades_iff (h : Distinct headers) :
    Upgrades uri headers random (request uri headers random) ↔ ¬Masked uri headers := by
  constructor
  · intro hright
    exact (says_host_iff h).1 hright.host
  · intro hmasked
    obtain ⟨hupgrade, hversion, hkey⟩ :=
      @find_added_overridden uri random (hostFound uri headers) (headers.any isConnection)
    exact
      { text := by simp [HttpRequest.dump, request_eq, sentHeaders, base, HttpRequest.new, dumpBody]
        carried := fun f hf hname => mem_sentHeaders h hf hname
        upgrade := by simp only [says_iff_find h, hupgrade, Option.some_or]
        version := by simp only [says_iff_find h, hversion, Option.some_or]
        key := by simp only [says_iff_find h, hkey, Option.some_or]
        connection := says_connection h
        host := (says_host_iff h).2 hmasked }

end WSConnection

namespace HttpConnection

theorem scan_connection (s : Scan) {f : Field} (h : isConnection f = true) :
    (scan s f).has_host = s.has_host ∧ (scan s f).req.headers = s.req.headers ∧
      (scan s f).req.websocket = s.req.websocket := by
  have hconn : strcasecmp f.1 (bytes "connection") = .eq := of_decide_eq_true h
  simp only [scan, hconn, if_true]
  split_ifs <;> exact ⟨rfl, rfl, rfl⟩

theorem scan_other (s : Scan) {f : Field} (h : isConnection f = false) :
    (scan s f).has_host = (if !s.has_host && isHost f then !f.2.isEmpty else s.has_host) ∧
      (scan s f).req.headers = s.req.headers.assign f.1 f.2 ∧
      (scan s f).req.websocket = s.req.websocket := by
  have hconn : strcasecmp f.1 (bytes "connection") ≠ .eq := of_decide_eq_false h
  simp only [scan, hconn, if_false, isHost]
  by_cases hflag : (!s.has_host && decide (strcasecmp f.1 (bytes "host") = .eq)) = true
  · simp only [hflag, if_true]
    exact ⟨trivial, rfl, rfl⟩
  · simp only [hflag, Bool.false_eq_true, if_false]
    exact ⟨trivial, rfl, rfl⟩

theorem foldl_scan (l : List Field) (s : Scan) :
    (l.foldl scan s).req.headers = load s.req.headers (l.filter (!isConnection ·)) ∧
      (l.foldl scan s).req.websocket = s.req.websocket := by
  induction l generalizing s with
  | nil => exact ⟨rfl, rfl⟩
  | cons f l ih =>
    obtain ⟨hheaders, hwebsocket⟩ := ih (scan s f)
    cases hconn : isConnection f with
    | true =>
      obtain ⟨-, hsame, hplain⟩ := scan_connection s hconn
      simp only [List.foldl_cons, hheaders, hwebsocket, hsame, hplain, List.filter_cons, hconn,
        Bool.not_true, Bool.false_eq_true, if_false, and_self]
    | false =>
      obtain ⟨-, hassign, hplain⟩ := scan_other s hconn
      simp only [List.foldl_cons, hheaders, hwebsocket, hassign, hplain, List.filter_cons, hconn,
        Bool.not_false, if_true, and_true]
      rfl

theorem scan_no_host (s : Scan) (f : Field) (h : isHost f = false) :
    (scan s f).has_host = s.has_host := by
  cases hconn : isConnection f with
  | true => exact (scan_connection s hconn).1
  | false =>
    simpa only [h, Bool.and_false, Bool.false_eq_true, if_false] using (scan_other s hconn).1

/-- No other header hides the host. -/
theorem foldl_scan_host {front rest : List Field} {host : Field}
    (hdistinct : Distinct (front ++ host :: rest)) (hhost : isHost host = true)
    (req : HttpRequest) :
    ((front ++ host :: rest).foldl scan ⟨false, false, req⟩).has_host = !host.2.isEmpty := by
  obtain ⟨-, hfront, hrest⟩ := find_host hdistinct hhost
  have hflag := foldl_no_host scan_no_host hfront ⟨false, false, req⟩
  have hscan := (scan_other (front.foldl scan ⟨false, false, req⟩)
    (isConnection_of_isHost hhost)).1
  simp only [hflag, hhost, Bool.not_false, Bool.and_true, if_true] at hscan
  simp only [List.foldl_append, List.foldl_cons, foldl_no_host scan_no_host hrest, hscan]

variable {method : HttpMethod} {uri : Uri} {headers : List Field} {body : List UInt8}

/-- The lines of another name than the connection's are all dumped. -/
theorem says_dumped {m : MapType} {name : String} {value : List UInt8}
    (hname : foldCase (bytes name) ≠ foldCase (bytes "connection")) :
    Says (dumpedHeaders false m) name value ↔ Says m name value := by
  have hmem : ∀ f : Field, foldCase f.1 = foldCase (bytes name) →
      (f ∈ dumpedHeaders false m ↔ f ∈ m) := by
    intro f hf
    have hother : strcasecmp f.1 (bytes "connection") ≠ .eq := fun heq =>
      hname (hf.symm.trans ((strcasecmp_eq_iff _ _).1 heq))
    simp [dumpedHeaders, hother]
  constructor
  · rintro ⟨⟨f, hf, heq⟩, hall⟩
    exact ⟨⟨f, (hmem f heq).1 hf, heq⟩, fun g hg hgname => hall g ((hmem g hgname).2 hg) hgname⟩
  · rintro ⟨⟨f, hf, heq⟩, hall⟩
    exact ⟨⟨f, (hmem f heq).2 hf, heq⟩, fun g hg hgname => hall g ((hmem g hgname).1 hg) hgname⟩

theorem find_filter (headers : List Field) :
    MapType.find (headers.filter (!isConnection ·)) (bytes "host") =
      MapType.find headers (bytes "host") := by
  induction headers with
  | nil => rfl
  | cons f headers ih =>
    cases hconn : isConnection f with
    | true =>
      have hne : foldCase f.1 ≠ foldCase (bytes "host") := fun heq =>
        host_ne_connection (heq.symm.trans (isConnection_iff.1 hconn))
      simpa only [List.filter_cons, hconn, Bool.not_true, Bool.false_eq_true, if_false,
        MapType.find_cons, hne] using ih
    | false =>
      simp only [List.filter_cons, hconn, Bool.not_false, if_true, MapType.find_cons, ih]

def base (method : HttpMethod) (uri : Uri) : HttpRequest :=
  { HttpRequest.new 0x11 true with
    path := getPath uri, query := uri.query, fragment := uri.fragment, method := method }

/-- The flag says whether the caller's host is to be used. -/
theorem hostFlag (h : Distinct headers) (req : HttpRequest) :
    if (headers.foldl scan ⟨false, false, req⟩).has_host then
      MapType.find headers (bytes "host") = some (hostOf uri headers)
    else hostOf uri headers = uri.host := by
  cases hhost : MapType.find headers (bytes "host") with
  | none =>
    have hflag := foldl_no_host scan_no_host (no_host hhost) ⟨false, false, req⟩
    simp only [hflag, hostOf, hhost, Bool.false_eq_true, if_false]
  | some value =>
    obtain ⟨front, host, rest, rfl, hishost, rfl⟩ := exists_host hhost
    simp only [foldl_scan_host h hishost req, hostOf, hhost]
    by_cases hempty : host.2 = []
    · simp only [hempty, List.isEmpty_nil, Bool.not_true, Bool.false_eq_true, if_false, if_true]
    · simp [hempty]

theorem sentHeaders_request : sentHeaders (request method uri headers body) =
    dumpedHeaders false
      (if (headers.foldl scan ⟨false, false, base method uri⟩).has_host then
        load [] (headers.filter (!isConnection ·))
      else (load [] (headers.filter (!isConnection ·))).assign (bytes "host") uri.host) := by
  obtain ⟨hheaders, hwebsocket⟩ := foldl_scan headers ⟨false, false, base method uri⟩
  have hnil : (base method uri).headers = [] := rfl
  have hplain : (base method uri).websocket = false := rfl
  simp only [hnil] at hheaders
  simp only [hplain] at hwebsocket
  cases hflag : (headers.foldl scan ⟨false, false, base method uri⟩).has_host <;>
    simp only [base] at hheaders hwebsocket hflag <;>
    simp only [sentHeaders, request, hflag, hheaders, hwebsocket, HttpRequest.setHeader, if_true,
      Bool.false_eq_true, if_false]

theorem says_host (h : Distinct headers) :
    Says (sentHeaders (request method uri headers body)) "host" (hostOf uri headers) := by
  have hnil : MapType.Sorted [] := List.Pairwise.nil
  have hsorted := sorted_load hnil (headers.filter (!isConnection ·))
  have hdistinct : Distinct (headers.filter (!isConnection ·)) := h.sublist List.filter_sublist
  have hfind : (load [] (headers.filter (!isConnection ·))).find (bytes "host") =
      MapType.find headers (bytes "host") := by
    have hload := find_load_distinct hdistinct [] (bytes "host")
    have hempty : MapType.find [] (bytes "host") = none := rfl
    simpa only [find_filter, hempty, Option.or_none] using hload
  have hhost := @hostFlag uri headers h (base method uri)
  simp only [sentHeaders_request, says_dumped host_ne_connection]
  cases hflag : (headers.foldl scan ⟨false, false, base method uri⟩).has_host with
  | true =>
    simp only [hflag, if_true] at hhost
    simp only [if_true, says_iff hsorted, hfind, hhost]
  | false =>
    simp only [hflag, Bool.false_eq_true, if_false] at hhost
    simp only [Bool.false_eq_true, if_false, says_iff (hsorted.assign _ _), MapType.find_assign,
      if_true, hhost]

end HttpConnection

/-- The caller's host is used in both, unless a connection is named before it. -/
theorem client_headers_right_iff (method : HttpMethod) (uri : Uri) {headers : List Field}
    (random body : List UInt8) (h : Distinct headers) :
    Right method uri headers random body ↔ ¬Masked uri headers := by
  constructor
  · intro hright
    exact (WSConnection.upgrades_iff h).1 hright.websocket
  · intro hmasked
    exact ⟨(WSConnection.upgrades_iff h).2 hmasked, HttpConnection.says_host h⟩

theorem not_masked {uri : Uri} {headers : List Field}
    (h : ∀ f ∈ headers, isConnection f = false) : ¬Masked uri headers := by
  rintro ⟨front, host, rest, rfl, -, hconn, -⟩
  obtain ⟨f, hf, hcase⟩ := List.any_eq_true.1 hconn
  exact Bool.false_ne_true ((h f (List.mem_append_left _ hf)).symm.trans hcase)

def sylarTop : Uri := ⟨bytes "ws", [], bytes "sylar.top", bytes "/chat", [], [], 0⟩

def hostAndToken : List Field :=
  [(bytes "Host", bytes "example.com"), (bytes "X-Token", bytes "1")]

theorem client_headers_right_of_host : Right .GET sylarTop hostAndToken (bytes "k") [] :=
  (client_headers_right_iff .GET sylarTop (bytes "k") [] (by decide)).2
    (not_masked (List.forall_mem_cons.2 ⟨by decide, List.forall_mem_cons.2 ⟨by decide, by simp⟩⟩))

/-- In the order of the map. -/
def connectionAndHost : List Field :=
  [(bytes "Connection", bytes "Upgrade"), (bytes "Host", bytes "example.com")]

theorem connection_masks_host : ¬Right .GET sylarTop connectionAndHost (bytes "k") [] ∧
    Says (sentHeaders (WSConnection.request sylarTop connectionAndHost (bytes "k"))) "Host"
      (bytes "sylar.top") := by
  have hdistinct : Distinct connectionAndHost := by decide
  constructor
  · intro hright
    apply (WSConnection.upgrades_iff hdistinct).1 hright.websocket
    exact ⟨[(bytes "Connection", bytes "Upgrade")], (bytes "Host", bytes "example.com"), [], rfl,
      by decide, by decide, by decide, by decide⟩
  · exact (WSConnection.says_iff_find hdistinct "Host" (bytes "sylar.top")).2 rfl

end ClientHeaders
