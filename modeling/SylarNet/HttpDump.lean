import SylarNet.DecimalText
import SylarNet.HeaderLines
import SylarNet.SylarHttp

/-!
# Messages as texts

`HttpRequest::dump` and `HttpResponse::dump`. Whether the connection is kept and how long the
body is are written from the fields of the message, beside the entries of its header map, and are
read back from the lines that the text has behind its first one.
-/
namespace HttpDump

open SylarHttp HeaderLines DecimalText

def HTTP_STATUS_MAP : List (ℤ × String) :=
  [(100, "Continue"), (101, "Switching Protocols"), (102, "Processing"), (200, "OK"),
    (201, "Created"), (202, "Accepted"), (203, "Non-Authoritative Information"),
    (204, "No Content"), (205, "Reset Content"), (206, "Partial Content"), (207, "Multi-Status"),
    (208, "Already Reported"), (226, "IM Used"), (300, "Multiple Choices"),
    (301, "Moved Permanently"), (302, "Found"), (303, "See Other"), (304, "Not Modified"),
    (305, "Use Proxy"), (307, "Temporary Redirect"), (308, "Permanent Redirect"),
    (400, "Bad Request"), (401, "Unauthorized"), (402, "Payment Required"), (403, "Forbidden"),
    (404, "Not Found"), (405, "Method Not Allowed"), (406, "Not Acceptable"),
    (407, "Proxy Authentication Required"), (408, "Request Timeout"), (409, "Conflict"),
    (410, "Gone"), (411, "Length Required"), (412, "Precondition Failed"),
    (413, "Payload Too Large"), (414, "URI Too Long"), (415, "Unsupported Media Type"),
    (416, "Range Not Satisfiable"), (417, "Expectation Failed"), (421, "Misdirected Request"),
    (422, "Unprocessable Entity"), (423, "Locked"), (424, "Failed Dependency"),
    (426, "Upgrade Required"), (428, "Precondition Required"), (429, "Too Many Requests"),
    (431, "Request Header Fields Too Large"), (451, "Unavailable For Legal Reasons"),
    (500, "Internal Server Error"), (501, "Not Implemented"), (502, "Bad Gateway"),
    (503, "Service Unavailable"), (504, "Gateway Timeout"), (505, "HTTP Version Not Supported"),
    (506, "Variant Also Negotiates"), (507, "Insufficient Storage"), (508, "Loop Detected"),
    (510, "Not Extended"), (511, "Network Authentication Required")]

def httpMethodToString (m : HttpMethod) : List UInt8 :=
  match HTTP_METHOD_MAP.find? fun x => x.1 = m with
  | some x => bytes x.2
  | none => bytes "<Unknown>"

def httpStatusToString (s : ℤ) : List UInt8 :=
  match HTTP_STATUS_MAP.find? fun x => x.1 = s with
  | some x => bytes x.2
  | none => bytes "<Unknown>"

/-- `HTTP/` and the two halves of the byte. -/
def httpVersion (version : UInt8) : List UInt8 :=
  bytes "HTTP/" ++ decimal (version.toNat / 16) ++ bytes "." ++ decimal (version.toNat % 16)

def keepAlive (close : Bool) : List UInt8 := if close then bytes "close" else bytes "keep-alive"

/-- The loop over the headers passes over what the message says of the connection itself. -/
def dumpedHeaders (websocket : Bool) (headers : MapType) : MapType :=
  headers.filter fun e => !(!websocket && strcasecmp e.1 (bytes "connection") = .eq)

def dumpBody (body : List UInt8) : List UInt8 :=
  if body.isEmpty then [13, 10]
  else bytes "content-length: " ++ decimal body.length ++ [13, 10, 13, 10] ++ body

namespace HttpRequest

def firstLine (r : HttpRequest) : List UInt8 :=
  httpMethodToString r.method ++ bytes " " ++ r.path ++
    (if r.query.isEmpty then [] else bytes "?") ++ r.query ++
    (if r.fragment.isEmpty then [] else bytes "#") ++ r.fragment ++ bytes " " ++
    httpVersion r.version ++ [13, 10]

def dump (r : HttpRequest) : List UInt8 :=
  firstLine r ++
    (if r.websocket then [] else bytes "connect: " ++ keepAlive r.close ++ [13, 10]) ++
    (dumpedHeaders r.websocket r.headers).flatMap fieldLine ++ dumpBody r.body

end HttpRequest

namespace HttpResponse

def firstLine (r : HttpResponse) : List UInt8 :=
  httpVersion r.version ++ bytes " " ++ decimal (r.status % 2 ^ 32).toNat ++ bytes " " ++
    (if r.reason.isEmpty then httpStatusToString r.status else r.reason) ++ [13, 10]

def dump (r : HttpResponse) : List UInt8 :=
  firstLine r ++ (dumpedHeaders r.websocket r.headers).flatMap fieldLine ++
    (if r.websocket then [] else bytes "connection: " ++ keepAlive r.close ++ [13, 10]) ++
    dumpBody r.body

end HttpResponse

/-- The header lines of a text, and the body behind the blank line. -/
def requestLines (r : HttpRequest) : Option (List Field × List UInt8) :=
  split ((HttpRequest.dump r).drop (HttpRequest.firstLine r).length)

def responseLines (r : HttpResponse) : Option (List Field × List UInt8) :=
  split ((HttpResponse.dump r).drop (HttpResponse.firstLine r).length)

/-- A fresh request with these headers, after `init`. -/
def reloadRequest (fs : List Field) : HttpRequest :=
  (fs.foldl (fun r f => r.setHeader f.1 f.2) (HttpRequest.new 0x11 true)).init

def reloadResponse (fs : List Field) : HttpResponse :=
  fs.foldl (fun r f => r.setHeader f.1 f.2) (HttpResponse.new 0x11 true)

/-- The names are tokens at least in that they have no colon, and no line is broken. -/
def PlainHeaders (m : MapType) : Prop := ∀ e ∈ m, Plain e

instance (m : MapType) : Decidable (PlainHeaders m) := inferInstanceAs (Decidable (∀ e ∈ m, _))

/-- A request is read back with the same answer of `isClose`. -/
def Survives (r : HttpRequest) : Prop :=
  ∃ fs, requestLines r = some (fs, r.body) ∧ (reloadRequest fs).close = r.close

/-- The number that digits stand for. -/
def Denotes (text : List UInt8) (n : ℕ) : Prop :=
  text ≠ [] ∧ (∀ c ∈ text, isDigit c = true) ∧ value text = n

instance (text : List UInt8) (n : ℕ) : Decidable (Denotes text n) :=
  haveI : Decidable (∀ c ∈ text, isDigit c = true) := List.decidableBAll _ text
  inferInstanceAs (Decidable (_ ∧ _ ∧ _))

def isLength (name : List UInt8) : Prop := foldCase name = foldCase (bytes "content-length")

instance (name : List UInt8) : Decidable (isLength name) := inferInstanceAs (Decidable (_ = _))

/-- Every line that tells the length of the body tells the one of this body. -/
def Framed (lines : Option (List Field × List UInt8)) (body : List UInt8) : Prop :=
  ∃ fs, lines = some (fs, body) ∧ ∀ f ∈ fs, isLength f.1 → Denotes f.2 body.length

/-- The header map says nothing else of the length. -/
def LengthsAgree (m : MapType) (body : List UInt8) : Prop :=
  ∀ e ∈ m, isLength e.1 → Denotes (trim e.2) body.length

instance (m : MapType) (body : List UInt8) : Decidable (LengthsAgree m body) :=
  inferInstanceAs (Decidable (∀ e ∈ m, _))

section Fields

def lengthField (body : List UInt8) : List Field :=
  if body.isEmpty then [] else [(bytes "content-length", decimal body.length)]

def connectionField (name : List UInt8) (websocket close : Bool) : List Field :=
  if websocket then [] else [(name, keepAlive close)]

def requestFields (r : HttpRequest) : List Field :=
  connectionField (bytes "connect") r.websocket r.close ++
    dumpedHeaders r.websocket r.headers ++ lengthField r.body

def responseFields (r : HttpResponse) : List Field :=
  dumpedHeaders r.websocket r.headers ++
    connectionField (bytes "connection") r.websocket r.close ++ lengthField r.body

theorem mem_requestFields {r : HttpRequest} {f : Field} : f ∈ requestFields r ↔
    f ∈ connectionField (bytes "connect") r.websocket r.close ∨
      f ∈ dumpedHeaders r.websocket r.headers ∨ f ∈ lengthField r.body := by
  rw [requestFields, List.mem_append, List.mem_append, or_assoc]

theorem mem_responseFields {r : HttpResponse} {f : Field} : f ∈ responseFields r ↔
    f ∈ connectionField (bytes "connection") r.websocket r.close ∨
      f ∈ dumpedHeaders r.websocket r.headers ∨ f ∈ lengthField r.body := by
  rw [responseFields, List.mem_append, List.mem_append, or_assoc, or_left_comm]

theorem eq_of_mem_connectionField {name : List UInt8} {websocket close : Bool} {f : Field}
    (hf : f ∈ connectionField name websocket close) : f = (name, keepAlive close) := by
  rw [connectionField] at hf
  split at hf
  · cases hf
  · exact List.mem_singleton.1 hf

theorem eq_of_mem_lengthField {body : List UInt8} {f : Field} (hf : f ∈ lengthField body) :
    f = (bytes "content-length", decimal body.length) := by
  rw [lengthField] at hf
  split at hf
  · cases hf
  · exact List.mem_singleton.1 hf

theorem dumpBody_eq (body : List UInt8) :
    dumpBody body = (lengthField body).flatMap fieldLine ++ 13 :: 10 :: body := by
  have hname : bytes "content-length: " = bytes "content-length" ++ [58, 32] := by decide
  cases body with
  | nil => rfl
  | cons c body =>
    rw [dumpBody, lengthField, if_neg (by simp), if_neg (by simp), hname]
    simp [fieldLine]

theorem request_dump_eq (r : HttpRequest) :
    HttpRequest.dump r = HttpRequest.firstLine r ++
      ((requestFields r).flatMap fieldLine ++ 13 :: 10 :: r.body) := by
  have hname : bytes "connect: " = bytes "connect" ++ [58, 32] := by decide
  rw [HttpRequest.dump, dumpBody_eq, requestFields, connectionField, hname]
  cases r.websocket with
  | false => simp [fieldLine]
  | true => simp

theorem response_dump_eq (r : HttpResponse) :
    HttpResponse.dump r = HttpResponse.firstLine r ++
      ((responseFields r).flatMap fieldLine ++ 13 :: 10 :: r.body) := by
  have hname : bytes "connection: " = bytes "connection" ++ [58, 32] := by decide
  rw [HttpResponse.dump, dumpBody_eq, responseFields, connectionField, hname]
  cases r.websocket with
  | false => simp [fieldLine]
  | true => simp

theorem not_mem_decimal (n : ℕ) : 13 ∉ decimal n := by
  intro hcr
  have hdigit := isDigit_of_mem_decimal hcr
  exact absurd hdigit (by decide)

/-- What is dumped from the fields of a message is as plain as its header map. -/
theorem plain_fields {name : List UInt8} (hname : 58 ∉ name ∧ 13 ∉ name) {m : MapType}
    (h : PlainHeaders m) {websocket close : Bool} {body : List UInt8} {f : Field}
    (hf : f ∈ connectionField name websocket close ∨ f ∈ dumpedHeaders websocket m ∨
      f ∈ lengthField body) : Plain f := by
  rcases hf with hf | hf | hf
  · have hvalue : ∀ close, 13 ∉ keepAlive close := by decide
    obtain rfl := eq_of_mem_connectionField hf
    exact ⟨hname.1, hname.2, hvalue close⟩
  · exact h f (List.mem_of_mem_filter hf)
  · have hlength : 58 ∉ bytes "content-length" ∧ 13 ∉ bytes "content-length" := by decide
    obtain rfl := eq_of_mem_lengthField hf
    exact ⟨hlength.1, hlength.2, not_mem_decimal body.length⟩

theorem requestLines_eq {r : HttpRequest} (h : PlainHeaders r.headers) :
    requestLines r = some ((requestFields r).map fun f => (f.1, trim f.2), r.body) := by
  rw [requestLines, request_dump_eq, List.drop_left]
  apply split_fieldLines
  intro f hf
  exact plain_fields (by decide) h (mem_requestFields.1 hf)

theorem responseLines_eq {r : HttpResponse} (h : PlainHeaders r.headers) :
    responseLines r = some ((responseFields r).map fun f => (f.1, trim f.2), r.body) := by
  rw [responseLines, response_dump_eq, List.drop_left]
  apply split_fieldLines
  intro f hf
  exact plain_fields (by decide) h (mem_responseFields.1 hf)

theorem not_mem_httpVersion (version : UInt8) : 13 ∉ httpVersion version := by
  have htexts : 13 ∉ bytes "HTTP/" ∧ 13 ∉ bytes "." := by decide
  simp only [httpVersion, List.mem_append, not_or]
  exact ⟨⟨⟨htexts.1, not_mem_decimal _⟩, htexts.2⟩, not_mem_decimal _⟩

theorem not_mem_httpMethodToString (m : HttpMethod) : 13 ∉ httpMethodToString m := by
  have hnames : ∀ x ∈ HTTP_METHOD_MAP, 13 ∉ bytes x.2 := by decide +kernel
  have hunknown : 13 ∉ bytes "<Unknown>" := by decide
  unfold httpMethodToString
  split
  · next x hx => exact hnames x (List.mem_of_find?_eq_some hx)
  · exact hunknown

theorem not_mem_httpStatusToString (s : ℤ) : 13 ∉ httpStatusToString s := by
  have hnames : ∀ x ∈ HTTP_STATUS_MAP, 13 ∉ bytes x.2 := by decide +kernel
  have hunknown : 13 ∉ bytes "<Unknown>" := by decide
  unfold httpStatusToString
  split
  · next x hx => exact hnames x (List.mem_of_find?_eq_some hx)
  · exact hunknown

/-- Unless the target breaks the first line, it ends where the first line of the text does. -/
theorem requestLines_of_text {r : HttpRequest} (hpath : 13 ∉ r.path) (hquery : 13 ∉ r.query)
    (hfragment : 13 ∉ r.fragment) :
    requestLines r = (takeLine (HttpRequest.dump r)).bind fun t => split t.2 := by
  have htexts : 13 ∉ bytes " " ∧ 13 ∉ bytes "?" ∧ 13 ∉ bytes "#" := by decide
  have hmark : ∀ (text : List UInt8) (mark : String), 13 ∉ bytes mark →
      13 ∉ if text.isEmpty then [] else bytes mark := by
    intro text mark hm
    split
    · exact List.not_mem_nil
    · exact hm
  obtain ⟨line, hline⟩ : ∃ line, HttpRequest.firstLine r = line ++ [13, 10] := ⟨_, rfl⟩
  have hcr : 13 ∉ line := by
    obtain rfl := List.append_cancel_right hline
    simp only [List.mem_append, not_or]
    exact ⟨⟨⟨⟨⟨⟨⟨⟨not_mem_httpMethodToString _, htexts.1⟩, hpath⟩, hmark _ _ htexts.2.1⟩, hquery⟩,
      hmark _ _ htexts.2.2⟩, hfragment⟩, htexts.1⟩, not_mem_httpVersion _⟩
  rw [requestLines, request_dump_eq, List.drop_left, hline, List.append_assoc]
  exact (congrArg (Option.bind · fun t => split t.2) (takeLine_append hcr _)).symm

theorem responseLines_of_text {r : HttpResponse} (hreason : 13 ∉ r.reason) :
    responseLines r = (takeLine (HttpResponse.dump r)).bind fun t => split t.2 := by
  have hblank : 13 ∉ bytes " " := by decide
  obtain ⟨line, hline⟩ : ∃ line, HttpResponse.firstLine r = line ++ [13, 10] := ⟨_, rfl⟩
  have hcr : 13 ∉ line := by
    obtain rfl := List.append_cancel_right hline
    simp only [List.mem_append, not_or]
    refine ⟨⟨⟨⟨not_mem_httpVersion _, hblank⟩, not_mem_decimal _⟩, hblank⟩, ?_⟩
    split
    · exact not_mem_httpStatusToString r.status
    · exact hreason
  rw [responseLines, response_dump_eq, List.drop_left, hline, List.append_assoc]
  exact (congrArg (Option.bind · fun t => split t.2) (takeLine_append hcr _)).symm

end Fields

section Reload

/-- The header map after the lines were loaded. -/
def load (m : MapType) (fs : List Field) : MapType := fs.foldl (fun m f => m.assign f.1 f.2) m

theorem foldl_setHeader (r : HttpRequest) (fs : List Field) :
    fs.foldl (fun r f => r.setHeader f.1 f.2) r = { r with headers := load r.headers fs } :=
  List.foldl_hom (fun m => { r with headers := m }) fun _ _ => rfl

theorem foldl_setHeader_response (r : HttpResponse) (fs : List Field) :
    fs.foldl (fun r f => r.setHeader f.1 f.2) r = { r with headers := load r.headers fs } :=
  List.foldl_hom (fun m => { r with headers := m }) fun _ _ => rfl

/-- Lines of other names leave what is found under a key. -/
theorem find_load {key : List UInt8} {fs : List Field} (h : ∀ f ∈ fs, foldCase f.1 ≠ foldCase key)
    (m : MapType) : (load m fs).find key = m.find key := by
  induction fs generalizing m with
  | nil => rfl
  | cons f fs ih =>
    rw [List.forall_mem_cons] at h
    refine (ih h.2 (m.assign f.1 f.2)).trans ?_
    rw [MapType.find_assign, if_neg h.1]

theorem load_append (m : MapType) (fs gs : List Field) :
    load m (fs ++ gs) = load (load m fs) gs := List.foldl_append

/-- No line is dumped of a header that speaks of the connection. -/
theorem dumpedHeaders_other {m : MapType} {f : Field} (hf : f ∈ dumpedHeaders false m) :
    foldCase f.1 ≠ foldCase (bytes "connection") := by
  have hp := List.of_mem_filter hf
  intro hcase
  have heq := (strcasecmp_eq_iff f.1 (bytes "connection")).2 hcase
  simp [heq] at hp

theorem lengthField_other {body : List UInt8} {f : Field} (hf : f ∈ lengthField body) :
    foldCase f.1 ≠ foldCase (bytes "connection") := by
  have hne : foldCase (bytes "content-length") ≠ foldCase (bytes "connection") := by decide
  rw [eq_of_mem_lengthField hf]
  exact hne

theorem forall_trimmed {P : List UInt8 → Prop} {fs : List Field} (h : ∀ f ∈ fs, P f.1) :
    ∀ f ∈ fs.map fun f => (f.1, trim f.2), P f.1 := by
  intro f hf
  obtain ⟨g, hg, rfl⟩ := List.mem_map.1 hf
  exact h g hg

/-- Without a line for it, the connection is closed whatever was asked for. -/
theorem reloadRequest_close {r : HttpRequest} (hplain : r.websocket = false) :
    (reloadRequest ((requestFields r).map fun f => (f.1, trim f.2))).close = true := by
  have hne : foldCase (bytes "connect") ≠ foldCase (bytes "connection") := by decide
  have hother : ∀ f ∈ requestFields r, foldCase f.1 ≠ foldCase (bytes "connection") := by
    intro f hf
    rcases mem_requestFields.1 hf with hf | hf | hf
    · rw [eq_of_mem_connectionField hf]
      exact hne
    · rw [hplain] at hf
      exact dumpedHeaders_other hf
    · exact lengthField_other hf
  have hfind := find_load (forall_trimmed (P := fun name => foldCase name ≠ _) hother)
    (HttpRequest.new 0x11 true).headers
  rw [reloadRequest, foldl_setHeader, HttpRequest.init]
  simp only [HttpRequest.getHeader, hfind]
  rfl

theorem reloadResponse_connection {r : HttpResponse} (hplain : r.websocket = false) :
    (reloadResponse ((responseFields r).map fun f => (f.1, trim f.2))).headers.find
      (bytes "connection") = some (keepAlive r.close) := by
  have htrim : ∀ close, trim (keepAlive close) = keepAlive close := by decide
  rw [reloadResponse, foldl_setHeader_response, responseFields, hplain, List.map_append,
    List.map_append, load_append, load_append]
  rw [find_load (forall_trimmed (P := fun name => foldCase name ≠ _) fun f => lengthField_other)]
  change MapType.find (MapType.assign _ (bytes "connection") (trim (keepAlive r.close))) _ = _
  rw [MapType.find_assign, if_pos rfl, htrim]

end Reload

/-- The answer of `isClose` of a request is read back if and only if it is that the connection is
to be closed; what a response says of it is read back. -/
theorem keep_alive_survives_iff (request : HttpRequest) (response : HttpResponse) :
    (request.websocket = false → PlainHeaders request.headers →
      (Survives request ↔ request.close = true)) ∧
    (response.websocket = false → PlainHeaders response.headers →
      ∃ fs, responseLines response = some (fs, response.body) ∧
        ((reloadResponse fs).headers.find (bytes "connection") = some (bytes "close") ↔
          response.close = true)) := by
  constructor
  · intro hplain hheaders
    have hlines := requestLines_eq hheaders
    have hclose := reloadRequest_close hplain
    constructor
    · rintro ⟨fs, hfs, hsame⟩
      cases hlines.symm.trans hfs
      exact hsame.symm.trans hclose
    · intro hr
      exact ⟨_, hlines, hclose.trans hr.symm⟩
  · intro hplain hheaders
    refine ⟨_, responseLines_eq hheaders, ?_⟩
    rw [reloadResponse_connection hplain, Option.some_inj]
    cases response.close with
    | false => exact iff_of_false (by decide) (by decide)
    | true => exact iff_of_true rfl rfl

/-- Two messages with a header of their own for the connection, which is not dumped. -/
theorem keep_alive_survives_closed :
    Survives { HttpRequest.new 0x11 true with
      headers := [(bytes "Connection", bytes "keep-alive"), (bytes "Host", bytes "a")] } ∧
    ∃ fs, responseLines { HttpResponse.new 0x11 false with
        headers := [(bytes "connection", bytes "close")] } = some (fs, []) ∧
      ((reloadResponse fs).headers.find (bytes "connection") = some (bytes "close") ↔
        false = true) := by
  obtain ⟨hrequest, hresponse⟩ := keep_alive_survives_iff
    { HttpRequest.new 0x11 true with
      headers := [(bytes "Connection", bytes "keep-alive"), (bytes "Host", bytes "a")] }
    { HttpResponse.new 0x11 false with headers := [(bytes "connection", bytes "close")] }
  exact ⟨(hrequest rfl (by decide)).2 rfl, hresponse rfl (by decide)⟩

/-- A request without headers of its own that asks to keep the connection. -/
theorem kept_request_closed :
    ¬ ∀ r : HttpRequest, r.websocket = false → PlainHeaders r.headers → Survives r := by
  intro h
  have hheaders : PlainHeaders (HttpRequest.new 0x11 false).headers := by decide
  obtain ⟨fs, hfs, hsame⟩ := h (HttpRequest.new 0x11 false) rfl hheaders
  cases (requestLines_eq hheaders).symm.trans hfs
  rw [reloadRequest_close rfl] at hsame
  exact absurd hsame (by decide)

section Framing

theorem denotes_decimal (n : ℕ) : Denotes (trim (decimal n)) n := by
  have htrim : trim (decimal n) = decimal n := by
    have hdigits : ∀ c ∈ decimal n, isDigit c = true := fun c => isDigit_of_mem_decimal
    cases hd : decimal n with
    | nil => rfl
    | cons c rest =>
      rw [hd] at hdigits
      have hc : (c == 32) = false := by
        rw [beq_eq_false_iff_ne]
        rintro rfl
        exact absurd (hdigits 32 List.mem_cons_self) (by decide)
      rw [trim, List.dropWhile_cons_of_neg (by simp [hc])]
  rw [htrim]
  exact ⟨decimal_ne_nil n, fun c => isDigit_of_mem_decimal, value_decimal n⟩

theorem lengthField_denotes {body : List UInt8} {f : Field} (hf : f ∈ lengthField body) :
    Denotes (trim f.2) body.length := by
  rw [eq_of_mem_lengthField hf]
  exact denotes_decimal body.length

/-- A header that tells a length does not speak of the connection, so that it is dumped. -/
theorem mem_dumpedHeaders {m : MapType} {f : Field} (hf : f ∈ m) (hlength : isLength f.1)
    (websocket : Bool) : f ∈ dumpedHeaders websocket m := by
  have hne : foldCase (bytes "content-length") ≠ foldCase (bytes "connection") := by decide
  have hother : strcasecmp f.1 (bytes "connection") ≠ .eq := by
    intro heq
    exact hne (hlength.symm.trans ((strcasecmp_eq_iff _ _).1 heq))
  exact List.mem_filter.2 ⟨hf, by simp [hother]⟩

/-- The lines of a message are one for the connection, those of its header map and one for its
body. -/
theorem framed_iff {name : List UInt8} (hname : ¬ isLength name)
    {lines : Option (List Field × List UInt8)} {fs : List Field} {m : MapType}
    {websocket close : Bool} {body : List UInt8}
    (hlines : lines = some (fs.map fun f => (f.1, trim f.2), body))
    (hmem : ∀ f, f ∈ fs ↔ f ∈ connectionField name websocket close ∨
      f ∈ dumpedHeaders websocket m ∨ f ∈ lengthField body) :
    Framed lines body ↔ LengthsAgree m body := by
  constructor
  · rintro ⟨gs, hgs, hall⟩ e he hlength
    cases hlines.symm.trans hgs
    apply hall (e.1, trim e.2) _ hlength
    exact List.mem_map.2 ⟨e, (hmem e).2 (.inr (.inl (mem_dumpedHeaders he hlength _))), rfl⟩
  · intro hagree
    refine ⟨_, hlines, ?_⟩
    intro f hf hlength
    obtain ⟨g, hg, rfl⟩ := List.mem_map.1 hf
    rcases (hmem g).1 hg with hg | hg | hg
    · rw [eq_of_mem_connectionField hg] at hlength
      exact absurd hlength hname
    · exact hagree g (List.mem_of_mem_filter hg) hlength
    · exact lengthField_denotes hg

theorem request_framed_iff {r : HttpRequest} (h : PlainHeaders r.headers) :
    Framed (requestLines r) r.body ↔ LengthsAgree r.headers r.body :=
  framed_iff (by decide) (requestLines_eq h) fun _ => mem_requestFields

theorem response_framed_iff {r : HttpResponse} (h : PlainHeaders r.headers) :
    Framed (responseLines r) r.body ↔ LengthsAgree r.headers r.body :=
  framed_iff (by decide) (responseLines_eq h) fun _ => mem_responseFields

end Framing

/-- Every line for the length tells the size of the body that follows if and only if every entry
of the header map for it does. -/
theorem framing_iff (request : HttpRequest) (response : HttpResponse) :
    (PlainHeaders request.headers →
      (Framed (requestLines request) request.body ↔
        LengthsAgree request.headers request.body)) ∧
    (PlainHeaders response.headers →
      (Framed (responseLines response) response.body ↔
        LengthsAgree response.headers response.body)) :=
  ⟨request_framed_iff, response_framed_iff⟩

/-- A body of five bytes, beside a header that has their number already. -/
theorem framing_of_five :
    Framed (requestLines { HttpRequest.new 0x11 true with
        body := bytes "hello", headers := [(bytes "Content-Length", bytes "5")] }) (bytes "hello") ∧
      Framed (responseLines { HttpResponse.new 0x11 true with body := bytes "hello" })
        (bytes "hello") := by
  obtain ⟨hrequest, hresponse⟩ := framing_iff
    { HttpRequest.new 0x11 true with
      body := bytes "hello", headers := [(bytes "Content-Length", bytes "5")] }
    { HttpResponse.new 0x11 true with body := bytes "hello" }
  exact ⟨(hrequest (by decide)).2 (by decide), (hresponse (by decide)).2 (by decide)⟩

/-- The header of a message with a body, in one without. -/
theorem stale_length :
    ¬ ∀ r : HttpRequest, PlainHeaders r.headers → Framed (requestLines r) r.body := by
  intro h
  have hheaders : PlainHeaders [(bytes "Content-Length", bytes "5")] := by decide
  have hframed := h { HttpRequest.new 0x11 true with
    headers := [(bytes "Content-Length", bytes "5")] } hheaders
  exact absurd ((request_framed_iff hheaders).1 hframed) (by decide)

end HttpDump
