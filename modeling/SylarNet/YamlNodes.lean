import SylarNet.DecimalText
import SylarNet.SylarHttp
import Mathlib.Data.Int.Notation
import Mathlib.Data.List.TakeWhile

/-!
# YAML nodes

The nodes of yaml-cpp as the converters of the configuration use them: subscripts, assignment,
`push_back` and `as`. The text of a document is left to the library: emission and `YAML::Load`
are functions that a converter is given.
-/
namespace YamlNodes

open SylarHttp (bytes)
open DecimalText

abbrev Text := List UInt8

/-- A map keeps the order in which its keys were first assigned. -/
inductive Node where
  | null
  | scalar (text : Text)
  | sequence (items : List Node)
  | map (entries : List (Text × Node))

/-- What a converter throws. -/
inductive Fault where
  | parserException
  | badSubscript
  | badConversion
  | logicError (what : String)
  deriving DecidableEq, Repr

/-- The library: `ss << node` and `YAML::Load`. -/
structure Library where
  emit : Node → Text
  load : Text → Option Node

/-- Emission followed by loading gives the node back. -/
def Library.Returns (lib : Library) (n : Node) : Prop := lib.load (lib.emit n) = some n

def Library.loadNode (lib : Library) (text : Text) : Except Fault Node :=
  match lib.load text with
  | none => .error .parserException
  | some n => .ok n

theorem Library.Returns.loadNode {lib : Library} {n : Node} (h : lib.Returns n) :
    lib.loadNode (lib.emit n) = .ok n := by
  rw [Library.loadNode, h]

def assign (key : Text) (value : Node) : List (Text × Node) → List (Text × Node)
  | [] => [(key, value)]
  | e :: entries => if e.1 = key then (key, value) :: entries else e :: assign key value entries

def find (key : Text) : List (Text × Node) → Option Node
  | [] => none
  | e :: entries => if e.1 = key then some e.2 else find key entries

/-- `node[key] = value`; a new node is null. No converter assigns to a scalar or a sequence. -/
def Node.set (n : Node) (key : Text) (value : Node) : Node :=
  match n with
  | .null => .map [(key, value)]
  | .map entries => .map (assign key value entries)
  | n => n

def Node.pushBack (n value : Node) : Node :=
  match n with
  | .null => .sequence [value]
  | .sequence items => .sequence (items ++ [value])
  | n => n

/-- `node[key].push_back(value)`. -/
def Node.pushAt (n : Node) (key : Text) (value : Node) : Node :=
  match n with
  | .map entries => .map (assign key (((find key entries).getD .null).pushBack value) entries)
  | n => n.set key (Node.null.pushBack value)

/-- `node[key]` where it is read; `none` is a node that is not defined. -/
def subscript (n : Option Node) (key : Text) : Except Fault (Option Node) :=
  match n with
  | some (.scalar _) => .error .badSubscript
  | some (.map entries) => .ok (find key entries)
  | _ => .ok none

/-- `node[0]` up to `node[node.size() - 1]`; the entries of a map have no such keys. -/
def elements : Node → List (Option Node)
  | .sequence items => items.map some
  | .map entries => entries.map fun _ => none
  | _ => []

/-- `as<std::string>()`. -/
def asString : Option Node → Except Fault Text
  | some (.scalar text) => .ok text
  | _ => .error .badConversion

/-- `as<std::string>(fallback)`. -/
def asStringOr (n : Option Node) (fallback : Text) : Text :=
  match n with
  | some (.scalar text) => text
  | _ => fallback

/-- The scalar that an `int` is assigned as. -/
def encodeInt (i : Int32) : Text := ofInt i.toInt

def isDigitOf (base : ℕ) (c : UInt8) : Bool :=
  match base with
  | 8 => 48 ≤ c && c ≤ 55
  | 16 => isDigit c || (65 ≤ c && c ≤ 70) || (97 ≤ c && c ≤ 102)
  | _ => isDigit c

def digitOf (c : UInt8) : ℕ :=
  if c ≤ 57 then c.toNat - 48 else if c ≤ 70 then c.toNat - 55 else c.toNat - 87

def isSpace (c : UInt8) : Bool := c = 32 || (9 ≤ c && c ≤ 13)

/-- The base and the digits that extraction finds when no base is set. -/
def detectBase : Text → ℕ × Text
  | 48 :: c :: rest => if c = 120 || c = 88 then (16, rest) else (8, 48 :: c :: rest)
  | [48] => (8, [48])
  | text => (10, text)

def signed : Text → Bool × Text
  | 45 :: rest => (true, rest)
  | 43 :: rest => (false, rest)
  | text => (false, text)

/-- The digits that the extraction takes; only blanks may follow them. -/
def magnitude (unsigned : Text) : Option ℤ :=
  let (base, digits) := detectBase unsigned
  let taken := digits.takeWhile (isDigitOf base)
  if taken = [] || !(digits.drop taken.length).all isSpace then none
  else some (taken.foldl (fun v c => base * v + digitOf c) 0)

/-- Stream extraction of an `int` from the whole scalar. -/
def decodeInt (text : Text) : Option Int32 :=
  let (negative, unsigned) := signed text
  match magnitude unsigned with
  | none => none
  | some m =>
    let v := if negative then -m else m
    if Int32.minValue.toInt ≤ v ∧ v ≤ Int32.maxValue.toInt then some (Int32.ofInt v) else none

/-- `as<int>(fallback)`. -/
def asIntOr (n : Option Node) (fallback : Int32) : Int32 :=
  match n with
  | some (.scalar text) => (decodeInt text).getD fallback
  | _ => fallback

/-! Appending to a sequence that is made by the first append. -/

theorem assign_absent {key : Text} {entries : List (Text × Node)} (h : find key entries = none)
    (value : Node) : assign key value entries = entries ++ [(key, value)] := by
  induction entries with
  | nil => rfl
  | cons e entries ih =>
    rw [find] at h
    by_cases he : e.1 = key
    · rw [if_pos he] at h
      cases h
    · rw [if_neg he] at h
      rw [assign, if_neg he, ih h, List.cons_append]

theorem find_last {key : Text} {entries : List (Text × Node)} (h : find key entries = none)
    (value : Node) : find key (entries ++ [(key, value)]) = some value := by
  induction entries with
  | nil => exact if_pos rfl
  | cons e entries ih =>
    rw [find] at h
    by_cases he : e.1 = key
    · rw [if_pos he] at h
      cases h
    · rw [if_neg he] at h
      rw [List.cons_append, find, if_neg he, ih h]

theorem assign_last {key : Text} {entries : List (Text × Node)} (h : find key entries = none)
    (old value : Node) :
    assign key value (entries ++ [(key, old)]) = entries ++ [(key, value)] := by
  induction entries with
  | nil => exact if_pos rfl
  | cons e entries ih =>
    rw [find] at h
    by_cases he : e.1 = key
    · rw [if_pos he] at h
      cases h
    · rw [if_neg he] at h
      rw [List.cons_append, assign, if_neg he, ih h, List.cons_append]

/-- The entries with a sequence behind them, if it has anything in it. -/
def withItems (entries : List (Text × Node)) (key : Text) : List Node → List (Text × Node)
  | [] => entries
  | items => entries ++ [(key, .sequence items)]

theorem pushAt_withItems {key : Text} {entries : List (Text × Node)}
    (h : find key entries = none) (items : List Node) (value : Node) :
    (Node.map (withItems entries key items)).pushAt key value =
      .map (withItems entries key (items ++ [value])) := by
  cases items with
  | nil =>
    rw [Node.pushAt, withItems, h, assign_absent h]
    rfl
  | cons item items =>
    change Node.pushAt (.map (entries ++ [(key, .sequence (item :: items))])) key value = _
    rw [Node.pushAt, find_last h, assign_last h]
    rfl

/-- The appends of a loop. -/
theorem foldl_pushAt {α : Type} {key : Text} {entries : List (Text × Node)}
    (h : find key entries = none) (f : α → Node) (xs : List α) (items : List Node) :
    xs.foldl (fun n x => Node.pushAt n key (f x)) (.map (withItems entries key items)) =
      .map (withItems entries key (items ++ xs.map f)) := by
  induction xs generalizing items with
  | nil => rw [List.map_nil, List.append_nil]; rfl
  | cons x xs ih =>
    rw [List.foldl_cons, pushAt_withItems h, ih, List.append_assoc]
    rfl

/-- A key before the sequence is found where it was. -/
theorem find_withItems {k key : Text} (hne : key ≠ k) (entries : List (Text × Node))
    (items : List Node) : find k (withItems entries key items) = find k entries := by
  cases items with
  | nil => rfl
  | cons item items =>
    change find k (entries ++ [(key, .sequence (item :: items))]) = _
    induction entries with
    | nil => exact if_neg hne
    | cons e entries ih => rw [List.cons_append, find, find, ih]

/-- The sequence is defined when something was appended. -/
theorem find_items {key : Text} {entries : List (Text × Node)} (h : find key entries = none)
    (items : List Node) : find key (withItems entries key items) =
      if items = [] then none else some (.sequence items) := by
  cases items with
  | nil => exact h
  | cons item items => exact find_last h _

theorem subscript_withItems {k key : Text} (hne : key ≠ k) (entries : List (Text × Node))
    (items : List Node) :
    subscript (some (.map (withItems entries key items))) k = .ok (find k entries) :=
  congrArg Except.ok (find_withItems hne entries items)

theorem subscript_items {key : Text} {entries : List (Text × Node)} (h : find key entries = none)
    (items : List Node) : subscript (some (.map (withItems entries key items))) key =
      .ok (if items = [] then none else some (.sequence items)) :=
  congrArg Except.ok (find_items h items)

theorem mapM_eq_ok {α β : Type} {f : α → Except Fault β} {g : α → β} {xs : List α}
    (h : ∀ x ∈ xs, f x = .ok (g x)) : xs.mapM f = .ok (xs.map g) := by
  induction xs with
  | nil => rfl
  | cons x xs ih =>
    rw [List.forall_mem_cons] at h
    rw [List.mapM_cons, h.1, ih h.2]
    rfl

theorem of_mapM_eq_ok {α β : Type} {f : α → Except Fault β} {xs : List α} {ys : List β}
    (h : xs.mapM f = .ok ys) : ∀ x ∈ xs, ∃ y, f x = .ok y := by
  induction xs generalizing ys with
  | nil => intro x hx; cases hx
  | cons x xs ih =>
    rw [List.mapM_cons] at h
    cases hx : f x with
    | error fault => rw [hx] at h; cases h
    | ok y =>
      cases hxs : xs.mapM f with
      | error fault => rw [hx, hxs] at h; cases h
      | ok zs => exact List.forall_mem_cons.2 ⟨⟨y, hx⟩, ih hxs⟩

/-! An `int` survives its scalar. -/

theorem digitOf_of_isDigit {c : UInt8} (h : isDigit c = true) : digitOf c = c.toNat - 48 := by
  have hle := ((isDigit_iff c).1 h).2
  exact if_pos (UInt8.le_iff_toNat_le.2 hle)

theorem foldl_digits {text : Text} (h : ∀ c ∈ text, isDigit c = true) (v : ℕ) :
    text.foldl (fun (v : ℤ) c => ((10 : ℕ) : ℤ) * v + digitOf c) v =
      (text.foldl (fun v c => 10 * v + (c.toNat - 48)) v : ℕ) := by
  induction text generalizing v with
  | nil => rfl
  | cons c text ih =>
    rw [List.forall_mem_cons] at h
    rw [List.foldl_cons, List.foldl_cons, ← ih h.2, digitOf_of_isDigit h.1]
    push_cast
    rfl

theorem signed_decimal (n : ℕ) : signed (decimal n) = (false, decimal n) := by
  cases h : decimal n with
  | nil => exact absurd h (decimal_ne_nil n)
  | cons c rest =>
    have hmem : c ∈ decimal n := by rw [h]; exact List.mem_cons_self
    have hc := (isDigit_iff c).1 (isDigit_of_mem_decimal hmem)
    unfold signed
    split
    · rename_i heq
      cases heq
      exact absurd hc.1 (by decide)
    · rename_i heq
      cases heq
      exact absurd hc.1 (by decide)
    · rfl

theorem detectBase_decimal {n : ℕ} (hn : n ≠ 0) : detectBase (decimal n) = (10, decimal n) := by
  obtain ⟨c, rest, h, hc⟩ := head_decimal hn
  rw [h]
  unfold detectBase
  split
  · rename_i heq
    cases heq
    exact absurd rfl hc
  · rename_i heq
    cases heq
    exact absurd rfl hc
  · rfl

theorem magnitude_decimal (n : ℕ) : magnitude (decimal n) = some (n : ℤ) := by
  by_cases hn : n = 0
  · rw [hn]
    rfl
  · have htaken : (decimal n).takeWhile (isDigitOf 10) = decimal n :=
      List.takeWhile_eq_self_iff.2 fun c hc => isDigit_of_mem_decimal hc
    have hfold := foldl_digits (fun (c : UInt8) (hc : c ∈ decimal n) => isDigit_of_mem_decimal hc) 0
    simp only [magnitude, detectBase_decimal hn, htaken, List.drop_length, List.all_nil,
      Bool.not_true, Bool.or_false, decide_eq_true_eq, if_neg (decimal_ne_nil n)]
    exact congrArg some (hfold.trans (congrArg Nat.cast (value_decimal n)))

theorem decodeInt_encodeInt (i : Int32) : decodeInt (encodeInt i) = some i := by
  have hrange : Int32.minValue.toInt ≤ i.toInt ∧ i.toInt ≤ Int32.maxValue.toInt :=
    ⟨i.minValue_le_toInt, i.toInt_le⟩
  by_cases hneg : i.toInt < 0
  · have hsigned : signed (encodeInt i) = (true, decimal i.toInt.natAbs) := by
      rw [encodeInt, ofInt, if_pos hneg]
      rfl
    have hvalue : -(i.toInt.natAbs : ℤ) = i.toInt := by omega
    simp only [decodeInt, hsigned, magnitude_decimal, if_true, hvalue, if_pos hrange,
      Int32.ofInt_toInt]
  · have hsigned : signed (encodeInt i) = (false, decimal i.toInt.natAbs) := by
      rw [encodeInt, ofInt, if_neg hneg]
      exact signed_decimal _
    have hvalue : (i.toInt.natAbs : ℤ) = i.toInt := by omega
    simp only [decodeInt, hsigned, magnitude_decimal, Bool.false_eq_true, if_false, hvalue,
      if_pos hrange, Int32.ofInt_toInt]

@[simp] theorem asIntOr_encodeInt (i fallback : Int32) :
    asIntOr (some (.scalar (encodeInt i))) fallback = i := by
  rw [asIntOr, decodeInt_encodeInt, Option.getD_some]

end YamlNodes
