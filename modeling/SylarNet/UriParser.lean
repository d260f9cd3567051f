import SylarNet.SylarUri
import SylarNet.UriGrammar

/-!
# Creating a Uri

`Uri::Create`: the machine runs over the text, and its actions cut the components out of it by
the one pointer `mark`.
-/
namespace UriParser

open RagelMachine UriGrammar SylarUri DecimalText

/-- `mark` is an index into the text, or null. -/
structure Variables where
  mark : Option ℕ
  uri : Uri
  deriving DecidableEq, Repr

/-- A null pointer is given to `std::string`, which throws, or to `atoi`. -/
inductive Fault where
  | nullMark
  deriving DecidableEq, Repr

def emptyUri : Uri := ⟨[], [], [], [], [], [], 0⟩

/-- For a text that starts with a digit, of a number that is an `int`. -/
def atoi (s : List UInt8) : Int32 := Int32.ofInt (value (s.takeWhile isDigit))

section Exec

variable (text : List UInt8)

/-- `std::string(mark, fpc - mark)` -/
def marked (fpc mark : ℕ) : List UInt8 := (text.take fpc).drop mark

/-- The `save_` actions that do not look at `mark`. -/
def save (fpc : ℕ) (v : Variables) (set : Uri → List UInt8 → Uri) : Except Fault Variables :=
  match v.mark with
  | none => .error .nullMark
  | some mark => .ok ⟨none, set v.uri (marked text fpc mark)⟩

/-- One action at the character `fpc`, or at the end of the text. -/
def act (fpc : ℕ) (v : Variables) : Action → Except Fault Variables
  | .marku | .markh => .ok { v with mark := some fpc }
  | .saveScheme => save text fpc v fun u s => { u with scheme := s }
  | .savePort =>
    if v.mark = some fpc then .ok { v with mark := none }
    else
      match v.mark with
      | none => .error .nullMark
      | some mark => .ok ⟨none, { v.uri with port := atoi (text.drop mark) }⟩
  | .saveUserinfo =>
    match v.mark with
    | none => .ok v
    | some mark => .ok ⟨none, { v.uri with userinfo := marked text fpc mark }⟩
  | .saveHost =>
    match v.mark with
    | none => .ok v
    | some mark => .ok { v with uri := { v.uri with host := marked text fpc mark } }
  | .savePath => save text fpc v fun u s => { u with path := s }
  | .saveQuery => save text fpc v fun u s => { u with query := s }
  | .saveFragment => save text fpc v fun u s => { u with fragment := s }

/-- The actions of a transition. -/
def perform (fpc : ℕ) (v : Variables) (actions : List Action) : Except Fault Variables :=
  actions.foldlM (act text fpc) v

/-- What is executed at the end of the text: the machine is left if it may be. -/
def eofActions (st : State) : List Action :=
  if main.accepting st then inOrder (main.departing st.fresh st.live) else []

/-- `%% write exec` over the characters from `p` on; `none` is the error state. -/
def exec : ℕ → State → Variables → List UInt8 → Except Fault (Option State × Variables)
  | p, st, v, [] => do
    let v ← perform text p v (eofActions st)
    pure (some st, v)
  | p, st, v, c :: cs =>
    match main.next st c with
    | none => pure (none, v)
    | some (st, actions) => do
      let v ← perform text p v actions
      exec (p + 1) st v cs

end Exec

/-- No `Uri` for a text that ends the machine in its error state or in no final one. -/
def create (text : List UInt8) : Except Fault (Option Uri) := do
  let (cs, v) ← exec text 0 .initial ⟨none, emptyUri⟩ text
  match cs with
  | none => pure none
  | some st => pure (if main.accepting st then some v.uri else none)

end UriParser
