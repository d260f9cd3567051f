import SylarNet.Http11Grammar

/-!
# The grammar of URIs

`uri.rl`, definition by definition, with the definitions that `main` uses. As in the grammar of
requests, a number is the character with that code. `{n}` is exactly `n` times, so that the
addresses with `::` have either all groups before it that they can have or none.
-/
namespace UriGrammar

open RagelMachine SylarHttp
open Http11Grammar (oneOf digit alpha xdigit ascii)

inductive Action where
  | marku
  | markh
  | saveScheme
  | savePort
  | saveUserinfo
  | saveHost
  | savePath
  | saveQuery
  | saveFragment
  deriving DecidableEq, Repr

abbrev Rule := Machine UInt8 Action

def lit (s : String) : Rule := .word (bytes s)

def cat : Rule → List Rule → Rule := List.foldl (.seq .plain)

def entering (x : Rule) (a : Action) : Rule := .embed .entering x a
def leaving (x : Rule) (a : Action) : Rule := .embed .leaving x a

def subDelims (c : UInt8) : Bool := oneOf "!$&'()*+,;=" c
def unreserved (c : UInt8) : Bool := alpha c || digit c || oneOf "-._~" c
def pctEncoded : Rule := cat (lit "%") [.chr xdigit, .chr xdigit]

def scheme : Rule :=
  leaving (entering (cat (.chr alpha) [.star (.chr fun c => alpha c || digit c || oneOf "+-." c)])
    .marku) .saveScheme

def userinfo : Rule :=
  .star (.alt (.chr fun c => unreserved c || subDelims c || c == 58) pctEncoded)

def decOctet : Rule :=
  .alt (.chr digit)
    (.alt (cat (.chr fun c => 49 ≤ c && c ≤ 57) [.chr digit])
      (.alt (cat (lit "1") [.chr digit, .chr digit])
        (.alt (cat (.chr (· == 2)) [.chr fun c => 48 ≤ c && c ≤ 52, .chr digit])
          (cat (lit "25") [.chr fun c => 48 ≤ c && c ≤ 53]))))

def ipv4address : Rule :=
  cat decOctet [lit ".", decOctet, lit ".", decOctet, lit ".", decOctet]
def h16 : Rule := cat (.chr xdigit) [.upTo 3 (.chr xdigit)]
def ls32 : Rule := .alt (cat h16 [lit ":", h16]) ipv4address

/-- `h16 ":"` -/
def h16Colon : Rule := cat h16 [lit ":"]

/-- `((h16 ":"){n} h16)?` -/
def h16s (n : ℕ) : Rule := .opt (.times n h16Colon h16)

def ipv6address : Rule :=
  .alt (.times 6 h16Colon ls32)
    (.alt (cat (lit "::") [.times 5 h16Colon ls32])
      (.alt (cat (h16s 0) [lit "::", .times 4 h16Colon ls32])
        (.alt (cat (h16s 1) [lit "::", .times 3 h16Colon ls32])
          (.alt (cat (h16s 2) [lit "::", .times 2 h16Colon ls32])
            (.alt (cat (h16s 3) [lit "::", .times 1 h16Colon ls32])
              (.alt (cat (h16s 4) [lit "::", ls32])
                (.alt (cat (h16s 5) [lit "::", h16])
                  (cat (h16s 6) [lit "::"]))))))))

def ipvFuture : Rule :=
  cat (lit "v") [.plus (.chr xdigit), lit ".",
    .plus (.chr fun c => unreserved c || subDelims c || c == 58)]

def ipLiteral : Rule := cat (lit "[") [.alt ipv6address ipvFuture, lit "]"]
def regName : Rule := .star (.alt (.chr fun c => unreserved c || subDelims c) pctEncoded)
def host : Rule := .alt ipLiteral (.alt ipv4address regName)
def port : Rule := .star (.chr digit)

/-- `(userinfo %save_userinfo "@")?` -/
def userinfoPart : Rule := .opt (cat (leaving userinfo .saveUserinfo) [lit "@"])

/-- `host >markh %save_host` -/
def hostPart : Rule := leaving (entering host .markh) .saveHost

/-- `(":" port >markh %save_port)?` -/
def portPart : Rule := .opt (cat (lit ":") [leaving (entering port .markh) .savePort])

def authority : Rule := entering (cat userinfoPart [hostPart, portPart]) .markh

/-- `any -- ascii` are the bytes of other alphabets. -/
def pcharChar (c : UInt8) : Bool := !ascii c || unreserved c || subDelims c || oneOf ":@" c

def pchar : Rule := .alt (.chr pcharChar) pctEncoded
def segment : Rule := .star pchar
def segmentNz : Rule := .plus pchar
def segmentNzNc : Rule := .plus (.alt (.chr fun c => pcharChar c && c != 58) pctEncoded)

/-- `"/" segment` -/
def slashSegment : Rule := cat (lit "/") [segment]

def pathAbempty : Rule := cat (.opt slashSegment) [.star slashSegment]
def pathAbsolute : Rule := cat (lit "/") [.opt (cat segmentNz [.star slashSegment])]
def pathNoscheme : Rule := cat segmentNzNc [.star slashSegment]
def pathRootless : Rule := cat segmentNz [.star slashSegment]
def pathEmpty : Rule := .eps

/-- `(pchar | "/" | "?")*` -/
def pchars : Rule := .star (.alt pchar (.chr (oneOf "/?")))

def query : Rule := leaving (entering pchars .marku) .saveQuery
def fragment : Rule := leaving (entering pchars .marku) .saveFragment

/-- `path_abempty > markh %save_path` -/
def pathPart : Rule := leaving (entering pathAbempty .markh) .savePath

def hierPart : Rule :=
  .alt (cat (lit "//") [authority, pathPart])
    (.alt pathAbsolute (.alt pathRootless pathEmpty))

def relativePart : Rule :=
  .alt (cat (lit "//") [authority, pathAbempty])
    (.alt pathAbsolute (.alt pathNoscheme pathEmpty))

/-- `( "?" query )?` -/
def queryPart : Rule := .opt (cat (lit "?") [query])

/-- `( "#" fragment )?` -/
def fragmentPart : Rule := .opt (cat (lit "#") [fragment])

def relativeRef : Rule := cat relativePart [queryPart, fragmentPart]
def uri : Rule := cat scheme [lit ":", hierPart, queryPart, fragmentPart]
def uriReference : Rule := .alt uri relativeRef

def main : Rule := uriReference

end UriGrammar
