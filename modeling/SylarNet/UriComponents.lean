import SylarNet.UriGrammar
import SylarNet.SylarUri

/-!
# The components of a URI

URIs with an authority as RFC 3986 defines them, by their components; an IPv4 address is a
registered name as well. The classes of characters are the same in `uri.rl`.
-/
namespace UriComponents

open UriGrammar DecimalText
open SylarUri (cut)
open Http11Grammar (oneOf alpha xdigit)
open SylarHttp (bytes)

/-- Characters of a class and percent-encoded ones. -/
inductive Encoded (allowed : UInt8 → Bool) : List UInt8 → Prop where
  | nil : Encoded allowed []
  | char {c t} : allowed c = true → Encoded allowed t → Encoded allowed (c :: t)
  | percent {a b t} : xdigit a = true → xdigit b = true → Encoded allowed t →
      Encoded allowed (37 :: a :: b :: t)

def regNameChar (c : UInt8) : Bool := unreserved c || subDelims c
def userinfoChar (c : UInt8) : Bool := unreserved c || subDelims c || c == 58
def segmentChar (c : UInt8) : Bool := unreserved c || subDelims c || oneOf ":@" c
def queryChar (c : UInt8) : Bool := segmentChar c || oneOf "/?" c

structure Text (allowed : UInt8 → Bool) where
  text : List UInt8
  encoded : Encoded allowed text

structure Scheme where
  first : UInt8
  rest : List UInt8
  alpha_first : alpha first = true
  rest_allowed : ∀ c ∈ rest, (alpha c || Http11Grammar.digit c || oneOf "+-." c) = true

def Scheme.text (s : Scheme) : List UInt8 := s.first :: s.rest

/-- Sixteen bits of an address. -/
structure Group where
  text : List UInt8
  not_nil : text ≠ []
  short : text.length ≤ 4
  hex : ∀ c ∈ text, xdigit c = true

/-- An IPv4 address, which stands for two groups at the end. -/
structure Dotted where
  first : UInt8
  second : UInt8
  third : UInt8
  fourth : UInt8

def octet (n : UInt8) : List UInt8 := decimal n.toNat

def Dotted.text (d : Dotted) : List UInt8 :=
  octet d.first ++ 46 :: (octet d.second ++ 46 :: (octet d.third ++ 46 :: octet d.fourth))

/-- Pieces with a colon between them. -/
def colons (pieces : List (List UInt8)) : List UInt8 := [58].intercalate pieces

/-- The groups `before` the `::`, if there is one, which stands for one group or more. -/
structure Ipv6 where
  before : Option (List Group)
  after : List Group
  dotted : Option Dotted
  fits : match before with
    | none => after.length + 2 * dotted.toList.length = 8
    | some gs => gs.length + (after.length + 2 * dotted.toList.length) ≤ 7

namespace Ipv6

def weight (a : Ipv6) : ℕ := a.after.length + 2 * a.dotted.toList.length

def tail (a : Ipv6) : List UInt8 :=
  colons (a.after.map (·.text) ++ (a.dotted.map (·.text)).toList)

def text (a : Ipv6) : List UInt8 :=
  match a.before with
  | none => a.tail
  | some gs => colons (gs.map (·.text)) ++ 58 :: 58 :: a.tail

end Ipv6

inductive Host where
  | regName (name : Text regNameChar) (not_nil : name.text ≠ [])
  | ipv6 (address : Ipv6)

def Host.text : Host → List UInt8
  | .regName name _ => name.text
  | .ipv6 address => 91 :: (address.text ++ [93])

structure Port where
  digits : List UInt8
  all_digits : ∀ c ∈ digits, isDigit c = true
  value_lt : value digits < 2147483648

structure Parts where
  scheme : Scheme
  userinfo : Option (Text userinfoChar)
  host : Host
  port : Option Port
  path : List (Text segmentChar)
  query : Option (Text queryChar)
  fragment : Option (Text queryChar)

namespace Parts

variable (c : Parts)

def pathText : List UInt8 := c.path.flatMap fun segment => 47 :: segment.text

def userinfoText : List UInt8 := c.userinfo.elim [] (·.text)
def portNumber : ℕ := c.port.elim 0 fun p => value p.digits
def queryText : List UInt8 := c.query.elim [] (·.text)
def fragmentText : List UInt8 := c.fragment.elim [] (·.text)

def text : List UInt8 :=
  c.scheme.text ++ bytes "://" ++ (c.userinfo.elim [] fun u => u.text ++ [64]) ++
    c.host.text ++ (c.port.elim [] fun p => 58 :: p.digits) ++ c.pathText ++
    (c.query.elim [] fun q => 63 :: q.text) ++ c.fragment.elim [] fun f => 35 :: f.text

end Parts

/-! What the machine of `uri.rl` gets right. -/

def behindColon (t : List UInt8) : List UInt8 := (cut 58 t).2.getD []

/-- Behind the first colon, if there is one, comes a digit. -/
def digitBehindColon (t : List UInt8) : Bool := (behindColon t).head?.any isDigit

/-- A number from 200 to 249. -/
def Dotted.lost (d : Dotted) : Prop :=
  ∃ n ∈ [d.first, d.second, d.third, d.fourth], 200 ≤ n ∧ n ≤ 249

/-- The `::` stands at the beginning or for one group, and no octet is lost. -/
def Ipv6.Plain (a : Ipv6) : Prop :=
  (∀ gs ∈ a.before, gs = [] ∨ gs.length + a.weight = 7) ∧ ∀ d ∈ a.dotted, ¬d.lost

def Host.Plain : Host → Prop
  | .regName .. => True
  | .ipv6 address => address.Plain

structure Parts.Plain (c : Parts) : Prop where
  userinfo : digitBehindColon c.userinfoText = false
  host : c.host.Plain
  port : ∀ p ∈ c.port, p.digits ≠ []

end UriComponents
