import Mathlib.Data.FinEnum
import SylarNet.RagelMachine
import SylarNet.SylarHttp

/-!
# The grammar of requests

`http11_parser.rl`, definition by definition, as an expression over bytes with its actions.
Three things in it are not what they look like: `-` between characters is a difference of
machines and no range, a number in front of a group is the character with that code, and
`field_name ":" lws* field_value :> CRLF` guards all of what stands to the left of `:>`.
`uri_relaxed`, on which a condition depends, is never set by the code.
-/
namespace Http11Grammar

open RagelMachine SylarHttp

inductive Action where
  | mark
  | startField
  | writeField
  | startValue
  | writeValue
  | requestMethod
  | requestUri
  | fragment
  | startQuery
  | queryString
  | httpVersion
  | requestPath
  | done
  | xml
  | json
  deriving DecidableEq, Repr

abbrev Rule := Machine UInt8 Action

def lit (s : String) : Rule := .word (bytes s)

/-- Concatenation groups to the left. -/
def cat : Rule → List Rule → Rule := List.foldl (.seq .plain)

def oneOf (s : String) (c : UInt8) : Bool := (bytes s).contains c
def between (lo hi c : UInt8) : Bool := lo ≤ c && c ≤ hi

def digit (c : UInt8) : Bool := between 48 57 c
def upper (c : UInt8) : Bool := between 65 90 c
def alpha (c : UInt8) : Bool := upper c || between 97 122 c
def xdigit (c : UInt8) : Bool := digit c || between 65 70 c || between 97 102 c
def ascii (c : UInt8) : Bool := c ≤ 127
def space (c : UInt8) : Bool := between 9 13 c || c == 32
def any (_ : UInt8) : Bool := true

def entering (x : Rule) (a : Action) : Rule := .embed .entering x a
def leaving (x : Rule) (a : Action) : Rule := .embed .leaving x a
def finishing (x : Rule) (a : Action) : Rule := .embed .finishing x a

def CRLF : Rule := .alt (lit "\r\n") (lit "\n")

section Uri

variable (uriRelaxed : Bool)

/-- `"{" | "}" | "^"` under the condition. -/
def moreDelims (c : UInt8) : Bool := uriRelaxed && (c == 123 || c == 125 || c == 94)
def subDelims (c : UInt8) : Bool := oneOf "!$&'()*+,;=" c || moreDelims uriRelaxed c
def unreserved (c : UInt8) : Bool := alpha c || digit c || oneOf "-._~" c
def pctEncoded : Rule := cat (lit "%") [.chr xdigit, .chr xdigit]

def pchar : Rule :=
  .alt (.chr fun c => !ascii c || unreserved c || subDelims uriRelaxed c || oneOf ":@" c)
    pctEncoded

/-- `pchar | "/" | "?"` -/
def pcharSlash : Rule := .alt (pchar uriRelaxed) (.chr (oneOf "/?"))

def fragment : Rule :=
  leaving (entering (.star (pcharSlash uriRelaxed)) .mark) .fragment

def query : Rule := leaving (.star (pcharSlash uriRelaxed)) .queryString

def segmentNzNc : Rule :=
  .plus (.alt (.chr fun c => unreserved c || subDelims uriRelaxed c || c == 64) pctEncoded)
def segmentNz : Rule := .plus (pchar uriRelaxed)
def segment : Rule := .star (pchar uriRelaxed)

/-- `( "/" segment )*` -/
def segments : Rule := .star (cat (lit "/") [segment uriRelaxed])

def pathEmpty : Rule := .eps
def pathRootless : Rule := cat (segmentNz uriRelaxed) [segments uriRelaxed]
def pathNoscheme : Rule := cat (segmentNzNc uriRelaxed) [segments uriRelaxed]
def pathAbsolute : Rule :=
  cat (lit "/") [.opt (cat (segmentNz uriRelaxed) [segments uriRelaxed])]
def pathAbempty : Rule := segments uriRelaxed

def regName : Rule :=
  .star (.alt (.chr fun c => unreserved c || subDelims uriRelaxed c) pctEncoded)

/-- `("1"-"9")`, `("0"-"4")` and `("0"-"5")` are differences. -/
def decOctet : Rule :=
  .alt (.chr digit)
    (.alt (cat (.chr fun c => c == 49 && c != 57) [.chr digit])
      (.alt (cat (lit "1") [.chr digit, .chr digit])
        (.alt (cat (lit "2") [.chr fun c => c == 48 && c != 52, .chr digit])
          (cat (lit "25") [.chr fun c => c == 48 && c != 53]))))

def ipv4address : Rule :=
  cat decOctet [lit ".", decOctet, lit ".", decOctet, lit ".", decOctet]
def h16 : Rule := cat (.chr xdigit) [.upTo 3 (.chr xdigit)]
def ls32 : Rule := .alt (cat h16 [lit ":", h16]) ipv4address

/-- `h16 ":"` -/
def h16Colon : Rule := cat h16 [lit ":"]

/-- A number is the character with that code. -/
def code (c : UInt8) : Rule := .chr (· == c)

/-- `( ( h16 ":" ){n,} h16 )?` -/
def h16s (n : ℕ) : Rule := .opt (cat (.times n h16Colon (.star h16Colon)) [h16])

def ipv6address : Rule :=
  .alt (cat (code 6) [h16Colon, ls32])
    (.alt (cat (lit "::") [code 5, h16Colon, ls32])
      (.alt (cat (.opt h16) [lit "::", code 4, h16Colon, ls32])
        (.alt (cat (h16s 1) [lit "::", code 3, h16Colon, ls32])
          (.alt (cat (h16s 2) [lit "::", code 2, h16Colon, ls32])
            (.alt (cat (h16s 3) [lit "::", h16, lit ":", ls32])
              (.alt (cat (h16s 4) [lit "::", ls32])
                (.alt (cat (h16s 5) [lit "::", h16])
                  (cat (h16s 6) [lit "::"]))))))))

def ipvFuture : Rule :=
  cat (lit "v") [.plus (.chr xdigit), lit ".",
    .plus (.chr fun c => unreserved c || subDelims uriRelaxed c || c == 58)]

def ipLiteral : Rule := cat (lit "[") [.alt ipv6address (ipvFuture uriRelaxed), lit "]"]

def port : Rule := .star (.chr digit)
def host : Rule := .alt (ipLiteral uriRelaxed) (.alt ipv4address (regName uriRelaxed))
def userinfo : Rule :=
  .star (.alt (.chr fun c => unreserved c || subDelims uriRelaxed c || c == 58) pctEncoded)
def authority : Rule :=
  cat (.opt (cat (userinfo uriRelaxed) [lit "@"]))
    [host uriRelaxed, .opt (cat (lit ":") [port])]

def scheme : Rule :=
  cat (.chr alpha) [.star (.chr fun c => alpha c || digit c || oneOf "+-." c)]

/-- `"//" authority path_abempty` -/
def netPath : Rule := cat (lit "//") [authority uriRelaxed, pathAbempty uriRelaxed]

def relativePart : Rule :=
  .alt (netPath uriRelaxed)
    (.alt (pathAbsolute uriRelaxed) (.alt (pathNoscheme uriRelaxed) pathEmpty))

def hierPart : Rule :=
  .alt (netPath uriRelaxed)
    (.alt (pathAbsolute uriRelaxed) (.alt (pathRootless uriRelaxed) pathEmpty))

/-- `(part %request_path ( "?" %start_query query )?) >mark %request_uri`, and before it the
scheme if there is one. -/
def target (part : Rule) : Rule :=
  leaving (entering (cat (leaving part .requestPath)
    [.opt (cat (leaving (lit "?") .startQuery) [query uriRelaxed])]) .mark) .requestUri

/-- `( "#" fragment )?` -/
def fragmentPart : Rule := .opt (cat (lit "#") [fragment uriRelaxed])

def relativeRef : Rule :=
  cat (target uriRelaxed (relativePart uriRelaxed)) [fragmentPart uriRelaxed]

def uri : Rule :=
  cat scheme [lit ":", target uriRelaxed (hierPart uriRelaxed), fragmentPart uriRelaxed]

def uriReference : Rule := .alt (uri uriRelaxed) (relativeRef uriRelaxed)

end Uri

def method : Rule :=
  leaving (entering (cat (.chr fun c => upper c || digit c)
    [.upTo 19 (.chr fun c => upper c || digit c)]) .mark) .requestMethod

def httpNumber : Rule := cat (lit "1.") [.chr (oneOf "01")]
def httpVersion : Rule := leaving (entering (cat (lit "HTTP/") [httpNumber]) .mark) .httpVersion

def requestLine (uriRelaxed : Bool) : Rule :=
  cat method [lit " ", uriReference uriRelaxed, lit " ", httpVersion, CRLF]

/-- `(0 - 31) | 127`, again a difference. -/
def httpCtl (c : UInt8) : Bool := (c == 0 && c != 31) || c == 127
def httpSeparator (c : UInt8) : Bool :=
  oneOf "()<>@,;:\\\"/[]?= \t" c || c == 123 || c == 125

def lws : Rule := cat (.opt CRLF) [.plus (.chr (oneOf " \t"))]
def token : Rule := .chr fun c => ascii c && !(httpCtl c || httpSeparator c)
def content : Rule := .alt (.chr fun c => any c && !httpCtl c) lws

def fieldName : Rule := leaving (entering (.plus token) .startField) .writeField
def fieldValue : Rule := leaving (entering (.star content) .startValue) .writeValue

def messageHeader : Rule :=
  .seq .entry (cat fieldName [lit ":", .star lws, fieldValue]) CRLF

def request (uriRelaxed : Bool) : Rule :=
  cat (requestLine uriRelaxed) [.star messageHeader, CRLF]

def socketJSONStart (uriRelaxed : Bool) : Rule := cat (lit "@") [relativePart uriRelaxed]
def socketJSONData : Rule :=
  .seq .finish (cat (code 123) [.star (.chr any), code 125]) (code 0)

def socketXMLData : Rule :=
  .seq .finish
    (cat (leaving (entering
        (cat (lit "<") [.plus (.chr fun c => alpha c || digit c || oneOf "-." c)])
        .mark) .requestPath)
      [.chr fun c => c == 47 || space c || c == 62, .star (.chr any), lit ">"])
    (code 0)

def socketJSON (uriRelaxed : Bool) : Rule :=
  cat (leaving (entering (socketJSONStart uriRelaxed) .mark) .requestPath)
    [lit " ", finishing (entering socketJSONData .mark) .json]
def socketXML : Rule := finishing socketXMLData .xml

def socketRequest (uriRelaxed : Bool) : Rule := .alt socketXML (socketJSON uriRelaxed)

def main (uriRelaxed : Bool) : Rule :=
  finishing (.alt (request uriRelaxed) (socketRequest uriRelaxed)) .done

/-- The byte at which the method has ended is the space behind it. -/
theorem requestMethod_confined (uriRelaxed : Bool) :
    (main uriRelaxed).confined (· == 32) .requestMethod = true := by
  cases uriRelaxed <;> decide +kernel

end Http11Grammar
