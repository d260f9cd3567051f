import SylarNet.YamlNodes

/-!
# The server configuration as text

The two converters of `TcpServerConf`, with the converter of a map of strings that they nest.
-/
namespace ServerConfs

open SylarHttp (bytes)
open YamlNodes

/-- A map is the list of its entries in the order of the keys. -/
structure TcpServerConf where
  address : List Text
  keepalive : Int32
  timeout : Int32
  ssl : Int32
  id : Text
  type : Text
  name : Text
  certFile : Text
  keyFile : Text
  acceptWorker : Text
  processWorker : Text
  args : List (Text × Text)
  deriving DecidableEq, Repr

/-- The initializers of the members. -/
def defaultConf : TcpServerConf :=
  { address := []
    keepalive := 0
    timeout := 120000
    ssl := 0
    id := []
    type := bytes "http"
    name := []
    certFile := []
    keyFile := []
    acceptWorker := []
    processWorker := []
    args := [] }

/-- `std::map::insert`, which keeps the entry of a key that is there. -/
def insertArg (e : Text × Text) : List (Text × Text) → List (Text × Text)
  | [] => [e]
  | x :: xs =>
    if x.1 < e.1 then x :: insertArg e xs
    else if x.1 = e.1 then x :: xs
    else e :: x :: xs

section Converters

variable (lib : Library)

/-- The node of a map: every value is loaded as a document of its own. -/
def argsNode (args : List (Text × Text)) : Except Fault Node :=
  args.foldlM (fun n i => do
    let value ← lib.loadNode i.2
    .ok (n.set i.1 value)) (.map [])

/-- `LexicalCast<std::map<std::string, std::string>, std::string>`. -/
def argsToText (args : List (Text × Text)) : Except Fault Text := do
  let node ← argsNode lib args
  .ok (lib.emit node)

/-- `LexicalCast<std::string, std::map<std::string, std::string>>`; the items of a sequence
have no key to read. -/
def argsFromText (v : Text) : Except Fault (List (Text × Text)) := do
  match ← lib.loadNode v with
  | .map entries => .ok (entries.foldl (fun vec e => insertArg (e.1, lib.emit e.2) vec) [])
  | .sequence (_ :: _) => .error .badConversion
  | _ => .ok []

def toNode (conf : TcpServerConf) : Except Fault Node := do
  let node := Node.null.set (bytes "id") (.scalar conf.id)
  let node := node.set (bytes "type") (.scalar conf.type)
  let node := node.set (bytes "name") (.scalar conf.name)
  let node := node.set (bytes "keepalive") (.scalar (encodeInt conf.keepalive))
  let node := node.set (bytes "timeout") (.scalar (encodeInt conf.timeout))
  let node := node.set (bytes "ssl") (.scalar (encodeInt conf.ssl))
  let node := node.set (bytes "cert_file") (.scalar conf.certFile)
  let node := node.set (bytes "key_file") (.scalar conf.keyFile)
  let node := node.set (bytes "accept_worker") (.scalar conf.acceptWorker)
  let node := node.set (bytes "process_worker") (.scalar conf.processWorker)
  let text ← argsToText lib conf.args
  let args ← lib.loadNode text
  let node := node.set (bytes "args") args
  .ok (conf.address.foldl (fun n i => n.pushAt (bytes "address") (.scalar i)) node)

/-- The loop over the addresses, if there are any. -/
def readAddress : Option Node → Except Fault (List Text)
  | none => .ok []
  | some items => (elements items).mapM asString

def fromNode (node : Node) : Except Fault TcpServerConf := do
  let conf := defaultConf
  let id := asStringOr (← subscript (some node) (bytes "id")) conf.id
  let type := asStringOr (← subscript (some node) (bytes "type")) conf.type
  let keepalive := asIntOr (← subscript (some node) (bytes "keepalive")) conf.keepalive
  let timeout := asIntOr (← subscript (some node) (bytes "timeout")) conf.timeout
  let name := asStringOr (← subscript (some node) (bytes "name")) conf.name
  let ssl := asIntOr (← subscript (some node) (bytes "ssl")) conf.ssl
  let certFile := asStringOr (← subscript (some node) (bytes "cert_file")) conf.certFile
  let keyFile := asStringOr (← subscript (some node) (bytes "key_file")) conf.keyFile
  let acceptWorker ← asString (← subscript (some node) (bytes "accept_worker"))
  let processWorker ← asString (← subscript (some node) (bytes "process_worker"))
  let args ← argsFromText lib (asStringOr (← subscript (some node) (bytes "args")) [])
  let address ← readAddress (← subscript (some node) (bytes "address"))
  .ok ⟨address, keepalive, timeout, ssl, id, type, name, certFile, keyFile, acceptWorker,
    processWorker, args⟩

/-- `LexicalCast<TcpServerConf, std::string>`. -/
def toText (conf : TcpServerConf) : Except Fault Text := do
  let node ← toNode lib conf
  .ok (lib.emit node)

/-- `LexicalCast<std::string, TcpServerConf>`. -/
def fromText (v : Text) : Except Fault TcpServerConf := do
  let node ← lib.loadNode v
  fromNode lib node

def roundTrip (conf : TcpServerConf) : Except Fault TcpServerConf := do
  let text ← toText lib conf
  fromText lib text

end Converters

/-! What the writer writes. -/

def headEntries (conf : TcpServerConf) (args : Node) : List (Text × Node) :=
  [(bytes "id", .scalar conf.id),
    (bytes "type", .scalar conf.type),
    (bytes "name", .scalar conf.name),
    (bytes "keepalive", .scalar (encodeInt conf.keepalive)),
    (bytes "timeout", .scalar (encodeInt conf.timeout)),
    (bytes "ssl", .scalar (encodeInt conf.ssl)),
    (bytes "cert_file", .scalar conf.certFile),
    (bytes "key_file", .scalar conf.keyFile),
    (bytes "accept_worker", .scalar conf.acceptWorker),
    (bytes "process_worker", .scalar conf.processWorker),
    (bytes "args", args)]

def writtenNode (conf : TcpServerConf) (args : Node) : Node :=
  .map (withItems (headEntries conf args) (bytes "address") (conf.address.map .scalar))

variable {lib : Library} {conf : TcpServerConf}

theorem toNode_eq {args : Node} (hargs : argsNode lib conf.args = .ok args)
    (hlib : lib.Returns args) : toNode lib conf = .ok (writtenNode conf args) := by
  have hfold : conf.address.foldl (fun n i => n.pushAt (bytes "address") (.scalar i))
      (Node.map (headEntries conf args)) = writtenNode conf args :=
    foldl_pushAt rfl Node.scalar conf.address []
  have htext : argsToText lib conf.args = .ok (lib.emit args) := by
    rw [argsToText, hargs]
    rfl
  rw [← hfold, toNode, htext]
  change (do
    let args ← lib.loadNode (lib.emit args)
    Except.ok _) = _
  rw [hlib.loadNode]
  rfl

/-! What the reader makes of it: the text of `args`, a map, is its default. -/

theorem subscript_written (args : Node) {k : Text} (hne : bytes "address" ≠ k) :
    subscript (some (writtenNode conf args)) k = .ok (find k (headEntries conf args)) :=
  subscript_withItems hne _ _

theorem subscript_address (args : Node) :
    subscript (some (writtenNode conf args)) (bytes "address") =
      .ok (if conf.address.map Node.scalar = [] then none
        else some (.sequence (conf.address.map .scalar))) :=
  subscript_items rfl _

theorem readAddress_written (address : List Text) :
    readAddress (if address.map Node.scalar = [] then none
      else some (.sequence (address.map .scalar))) = .ok address := by
  cases address with
  | nil => rfl
  | cons a rest =>
    have hread : (a :: rest).mapM (asString ∘ fun t => some (Node.scalar t)) =
        .ok ((a :: rest).map id) := mapM_eq_ok fun t _ => rfl
    rw [if_neg (by rw [List.map_cons]; exact List.cons_ne_nil _ _), readAddress, elements,
      List.map_map, List.mapM_map]
    exact hread.trans (by rw [List.map_id])

theorem argsFromText_nil (hempty : lib.load [] = some .null) : argsFromText lib [] = .ok [] := by
  rw [argsFromText, Library.loadNode, hempty]
  rfl

theorem fromNode_written (entries : List (Text × Node)) (hempty : lib.load [] = some .null) :
    fromNode lib (writtenNode conf (.map entries)) = .ok { conf with args := [] } := by
  rw [fromNode, subscript_address]
  simp (disch := decide) only [subscript_written]
  change (do
    let args ← argsFromText lib []
    let address ← readAddress _
    Except.ok (TcpServerConf.mk address
      (asIntOr (some (.scalar (encodeInt conf.keepalive))) 0)
      (asIntOr (some (.scalar (encodeInt conf.timeout))) 120000)
      (asIntOr (some (.scalar (encodeInt conf.ssl))) 0)
      conf.id conf.type conf.name conf.certFile conf.keyFile conf.acceptWorker conf.processWorker
      args)) = _
  rw [argsFromText_nil hempty, readAddress_written, asIntOr_encodeInt, asIntOr_encodeInt,
    asIntOr_encodeInt]
  rfl

/-- The node of a map is a map, whatever its values are loaded as. -/
theorem argsNode_map {args : List (Text × Text)} {n : Node} (h : argsNode lib args = .ok n) :
    ∃ entries, n = .map entries := by
  rw [argsNode] at h
  generalize hstart : ([] : List (Text × Node)) = start at h
  clear hstart
  induction args generalizing start with
  | nil =>
    cases h
    exact ⟨start, rfl⟩
  | cons i args ih =>
    rw [List.foldlM_cons] at h
    cases hvalue : lib.loadNode i.2 with
    | error fault => rw [hvalue] at h; cases h
    | ok value =>
      rw [hvalue] at h
      exact ih (assign i.1 value start) h

/-- The text stands for the node that was written. -/
theorem roundTrip_of_toNode {n : Node} (hn : toNode lib conf = .ok n) (hreturns : lib.Returns n) :
    roundTrip lib conf = fromNode lib n := by
  rw [roundTrip, toText, hn]
  change lib.loadNode (lib.emit n) >>= fromNode lib = _
  rw [hreturns.loadNode]
  rfl

theorem roundTrip_of_args {args : Node} (hempty : lib.load [] = some .null)
    (hargs : argsNode lib conf.args = .ok args) (hreturns : lib.Returns args)
    (hnode : ∀ n, toNode lib conf = .ok n → lib.Returns n) :
    roundTrip lib conf = .ok { conf with args := [] } := by
  have hwritten := toNode_eq hargs hreturns
  obtain ⟨entries, rfl⟩ := argsNode_map hargs
  rw [roundTrip_of_toNode hwritten (hnode _ hwritten), fromNode_written entries hempty]

theorem roundTrip_of_fault {fault : Fault} (hargs : argsNode lib conf.args = .error fault) :
    roundTrip lib conf = .error fault := by
  rw [roundTrip, toText, toNode, argsToText, hargs]
  rfl

/-- With a library that gives written nodes back and loads nothing as null, a configuration is
read as it was written exactly when it has no `args`. -/
theorem roundTrip_iff_no_args (lib : Library) (conf : TcpServerConf)
    (hempty : lib.load [] = some .null)
    (hargs : ∀ n, argsNode lib conf.args = .ok n → lib.Returns n)
    (hnode : ∀ n, toNode lib conf = .ok n → lib.Returns n) :
    roundTrip lib conf = .ok conf ↔ conf.args = [] := by
  constructor
  · intro h
    cases hnodeArgs : argsNode lib conf.args with
    | error fault => cases (roundTrip_of_fault hnodeArgs).symm.trans h
    | ok n =>
      have hlost := roundTrip_of_args hempty hnodeArgs (hargs n hnodeArgs) hnode
      have heq := Except.ok.inj (hlost.symm.trans h)
      exact (congrArg TcpServerConf.args heq).symm
  · intro hnone
    have hnodeArgs : argsNode lib conf.args = .ok (.map []) := by
      rw [hnone]
      rfl
    rw [roundTrip_of_args hempty hnodeArgs (hargs _ hnodeArgs) hnode, ← hnone]

/-- A server with an address, as in the configuration of the example server. -/
def plainServer : TcpServerConf :=
  { defaultConf with
    address := [bytes "0.0.0.0:8020"]
    keepalive := 1
    name := bytes "sylar/1.1" }

def serverDocument (args : String) : Text :=
  bytes "id: \"\"\ntype: http\nname: sylar/1.1\nkeepalive: 1\ntimeout: 120000\nssl: 0\n" ++
    bytes "cert_file: \"\"\nkey_file: \"\"\naccept_worker: \"\"\nprocess_worker: \"\"\n" ++
    bytes "args:" ++ bytes args ++ bytes "\naddress:\n  - 0.0.0.0:8020"

/-- What the library does with the two nodes that are written for it. -/
def plainLibrary : Library where
  emit n :=
    match n with
    | .map [] => [123, 125]
    | _ => serverDocument "\n  \x7b\x7d"
  load text :=
    if text = [] then some .null
    else if text = [123, 125] then some (.map [])
    else some (writtenNode plainServer (.map []))

theorem roundTrip_plainServer :
    plainLibrary.load [] = some .null ∧ roundTrip plainLibrary plainServer = .ok plainServer := by
  refine ⟨rfl, (roundTrip_iff_no_args plainLibrary plainServer rfl ?_ ?_).2 rfl⟩
  · intro n hn
    cases hn
    rfl
  · intro n hn
    cases hn
    rfl

/-- The same server with an argument. -/
def serverWithArgs : TcpServerConf := { plainServer with args := [(bytes "k", bytes "v")] }

def argsLibrary : Library where
  emit n :=
    match n with
    | .map [_] => bytes "k: v"
    | _ => serverDocument "\n  k: v"
  load text :=
    if text = [] then some .null
    else if text = bytes "v" then some (.scalar (bytes "v"))
    else if text = bytes "k: v" then some (.map [(bytes "k", .scalar (bytes "v"))])
    else some (writtenNode serverWithArgs (.map [(bytes "k", .scalar (bytes "v"))]))

/-- The argument is lost. -/
theorem serverWithArgs_lost :
    ¬ ∀ (lib : Library) (conf : TcpServerConf), lib.load [] = some .null →
      (∀ n, argsNode lib conf.args = .ok n → lib.Returns n) →
      (∀ n, toNode lib conf = .ok n → lib.Returns n) → roundTrip lib conf = .ok conf := by
  intro h
  have hread := h argsLibrary serverWithArgs rfl
    (by intro n hn
        cases hn
        rfl)
    (by intro n hn
        cases hn
        rfl)
  have hlost : roundTrip argsLibrary serverWithArgs = .ok plainServer := rfl
  cases hlost.symm.trans hread

end ServerConfs
