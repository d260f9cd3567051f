import SylarNet.Http11Grammar

/-!
# The grammar of responses

`httpclient_parser.rl`, definition by definition. A header line can match several of the
alternatives of `message_header` at once, and what all of them have to do is done once.
`any -- CRLF` is every character but the line feed.
-/
namespace HttpClientGrammar

open RagelMachine SylarHttp
open Http11Grammar (oneOf digit xdigit ascii space any)

inductive Action where
  | mark
  | startField
  | writeField
  | startValue
  | writeContentLen
  | writeConnectionClose
  | writeValue
  | reasonPhrase
  | statusCode
  | httpVersion
  | chunkSize
  | transChunked
  | done
  deriving DecidableEq, Repr

abbrev Rule := Machine UInt8 Action

def lit (s : String) : Rule := .word (bytes s)

/-- `/s/i` -/
def litNoCase (s : String) : Rule :=
  (bytes s).foldr (fun c x => .seq .plain (.chr fun d => tolower d == tolower c) x) .eps

def cat : Rule → List Rule → Rule := List.foldl (.seq .plain)

def entering (x : Rule) (a : Action) : Rule := .embed .entering x a
def leaving (x : Rule) (a : Action) : Rule := .embed .leaving x a
def finishing (x : Rule) (a : Action) : Rule := .embed .finishing x a

def CRLF : Rule := .alt (lit "\r\n") (lit "\n")

def CTL (c : UInt8) : Bool := c ≤ 31 || c == 127
def tspecials (c : UInt8) : Bool := oneOf "()<>@,;:\\\"/[]?= \t" c || c == 123 || c == 125
def token : Rule := .chr fun c => ascii c && !(CTL c || tspecials c)

def reasonPhrase : Rule :=
  leaving (entering (.plus (.chr (· != 10))) .mark) .reasonPhrase
def statusCode : Rule := leaving (entering (.plus (.chr digit)) .mark) .statusCode
def httpNumber : Rule := cat (.plus (.chr digit)) [lit ".", .plus (.chr digit)]
def httpVersion : Rule := leaving (entering (cat (lit "HTTP/") [httpNumber]) .mark) .httpVersion
def statusLine : Rule :=
  .seq .entry (cat httpVersion [lit " ", statusCode, lit " ", reasonPhrase]) CRLF

def fieldName : Rule := leaving (entering (.plus token) .startField) .writeField
def fieldValue : Rule := leaving (entering (.star (.chr any)) .startValue) .writeValue
def fields : Rule :=
  .seq .entry (cat fieldName [lit ":", .star (.chr space), fieldValue]) CRLF

/-- `/s/i >start_field %write_field` -/
def named (s : String) : Rule := leaving (entering (litNoCase s) .startField) .writeField

def contentLength : Rule :=
  cat (cat (named "Content-Length") [lit ":", .star (.chr space),
    leaving (leaving (entering (.plus (.chr digit)) .startValue) .writeContentLen) .writeValue])
    [CRLF]

def connClose : Rule :=
  cat (cat (litNoCase "Connection") [lit ":", .star (.chr space), litNoCase "close"])
    [leaving CRLF .writeConnectionClose]

def transferEncodingChunked : Rule :=
  cat (cat (named "Transfer-Encoding") [lit ":", .star (.chr space),
    leaving (entering (litNoCase "chunked") .startValue) .writeValue])
    [finishing CRLF .transChunked]

def messageHeader : Rule :=
  .alt (.alt (.alt transferEncodingChunked connClose) contentLength) fields

def response : Rule := cat statusLine [.star messageHeader, CRLF]

def chunkExtVal : Rule := .plus token
def chunkExtName : Rule := .plus token
def chunkExtension : Rule :=
  .star (cat (lit ";")
    [leaving (leaving (entering chunkExtName .startField) .writeField) .startValue,
      leaving (.opt (cat (lit "=") [entering chunkExtVal .startValue])) .writeValue])
def chunkSize : Rule := .plus (.chr xdigit)
def chunkedHeader : Rule :=
  .seq .entry (cat (leaving (entering chunkSize .mark) .chunkSize) [chunkExtension]) CRLF

def main : Rule := finishing (.alt response chunkedHeader) .done

/-- The byte at which the status has ended is the space behind it. -/
theorem statusCode_confined : main.confined (· == 32) .statusCode = true := by decide +kernel

/-- The byte before that is a digit. -/
theorem statusCode_shuns : main.shuns (!digit ·) (fun _ => true) .statusCode = true := by
  decide +kernel

theorem statusCode_entersWith : main.entersWith (fun _ => true) .statusCode = false := by
  decide +kernel

/-- No index is set at that space. -/
theorem mark_shuns : main.shuns digit (· == 32) .mark = true := by decide +kernel

theorem startValue_shuns : main.shuns digit (· == 32) .startValue = true := by decide +kernel

end HttpClientGrammar
