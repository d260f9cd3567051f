import SylarNet.YamlNodes

/-!
# The log configuration as text

The two converters of `LogDefine`, from the text of a YAML document and to it.
-/
namespace LogDefines

open SylarHttp (bytes)
open YamlNodes

inductive Level where
  | UNKNOWN | DEBUG | INFO | WARN | ERROR | FATAL
  deriving DecidableEq, Repr

/-- `LogLevel::ToString`. -/
def levelText : Level → Text
  | .DEBUG => bytes "DEBUG"
  | .INFO => bytes "INFO"
  | .WARN => bytes "WARN"
  | .ERROR => bytes "ERROR"
  | .FATAL => bytes "FATAL"
  | .UNKNOWN => bytes "UNKNOWN"

/-- `LogLevel::FromString`. -/
def levelOf (str : Text) : Level :=
  if str = bytes "debug" then .DEBUG
  else if str = bytes "info" then .INFO
  else if str = bytes "warn" then .WARN
  else if str = bytes "error" then .ERROR
  else if str = bytes "fatal" then .FATAL
  else if str = bytes "DEBUG" then .DEBUG
  else if str = bytes "INFO" then .INFO
  else if str = bytes "WARN" then .WARN
  else if str = bytes "ERROR" then .ERROR
  else if str = bytes "FATAL" then .FATAL
  else .UNKNOWN

/-- The type is 1 for a file and 2 for stdout. -/
structure LogAppenderDefine where
  type : Int32
  level : Level
  formatter : Text
  file : Text
  deriving DecidableEq, Repr

structure LogDefine where
  name : Text
  level : Level
  formatter : Text
  appenders : List LogAppenderDefine
  deriving DecidableEq, Repr

/-- What the loop of the writer pushes for an appender of the logger. -/
def appenderNode (ld : LogDefine) (a : LogAppenderDefine) : Node :=
  let na := Node.null
  let na :=
    if a.type = 1 then
      (na.set (bytes "type") (.scalar (bytes "FileLogAppender"))).set (bytes "file")
        (.scalar a.file)
    else if a.type = 2 then na.set (bytes "type") (.scalar (bytes "StdoutLogAppender"))
    else na
  let na := if a.level ≠ .UNKNOWN then na.set (bytes "level") (.scalar (levelText a.level)) else na
  if ld.formatter ≠ [] then na.set (bytes "formatter") (.scalar ld.formatter) else na

def toNode (ld : LogDefine) : Node :=
  let n := Node.null.set (bytes "name") (.scalar ld.name)
  let n := if ld.level ≠ .UNKNOWN then n.set (bytes "level") (.scalar (levelText ld.level)) else n
  let n := if ld.formatter = [] then n.set (bytes "formatter") (.scalar ld.formatter) else n
  ld.appenders.foldl (fun n a => n.pushAt (bytes "appenders") (appenderNode ld a)) n

/-- The text of an optional key, empty where it is not defined. -/
def textAt (a : Option Node) (key : Text) : Except Fault Text := do
  match ← subscript a key with
  | none => .ok []
  | some v => asString (some v)

/-- The body of the loop of the reader. -/
def readAppender (a : Option Node) : Except Fault LogAppenderDefine := do
  match ← subscript a (bytes "type") with
  | none => .error (.logicError "log config appender:type is null")
  | some t =>
    let type ← asString (some t)
    if type = bytes "FileLogAppender" then
      match ← subscript a (bytes "file") with
      | none => .error (.logicError "log config fileappender: file is null")
      | some f =>
        let file ← asString (some f)
        let formatter ← textAt a (bytes "formatter")
        .ok ⟨1, .UNKNOWN, formatter, file⟩
    else if type = bytes "StdoutLogAppender" then
      let formatter ← textAt a (bytes "formatter")
      .ok ⟨2, .UNKNOWN, formatter, []⟩
    else .error (.logicError "log config appender:type is invalid")

def fromNode (node : Node) : Except Fault LogDefine := do
  match ← subscript (some node) (bytes "name") with
  | none => .error (.logicError "log config name is null")
  | some n =>
    let name ← asString (some n)
    let level ← textAt (some node) (bytes "level")
    let formatter ← textAt (some node) (bytes "formatter")
    let appenders ←
      match ← subscript (some node) (bytes "appenders") with
      | none => .ok []
      | some items => (elements items).mapM readAppender
    .ok ⟨name, levelOf level, formatter, appenders⟩

/-- `LexicalCast<LogDefine, std::string>`. -/
def toText (lib : Library) (ld : LogDefine) : Text := lib.emit (toNode ld)

/-- `LexicalCast<std::string, LogDefine>`. -/
def fromText (lib : Library) (v : Text) : Except Fault LogDefine := do
  let node ← lib.loadNode v
  fromNode node

/-! What the writer writes. -/

def headEntries (ld : LogDefine) : List (Text × Node) :=
  (bytes "name", .scalar ld.name) ::
    ((if ld.level ≠ .UNKNOWN then [(bytes "level", .scalar (levelText ld.level))] else []) ++
      if ld.formatter = [] then [(bytes "formatter", .scalar ld.formatter)] else [])

theorem find_appenders_headEntries (ld : LogDefine) :
    find (bytes "appenders") (headEntries ld) = none := by
  rw [headEntries]
  split <;> split <;> rfl

theorem toNode_eq (ld : LogDefine) :
    toNode ld = .map (withItems (headEntries ld) (bytes "appenders")
      (ld.appenders.map (appenderNode ld))) := by
  have hhead := find_appenders_headEntries ld
  rw [← List.nil_append (ld.appenders.map (appenderNode ld)), ← foldl_pushAt hhead]
  change List.foldl _ _ _ = List.foldl _ (Node.map (headEntries ld)) _
  congr 1
  rw [headEntries]
  split <;> split <;> rfl

/-! What the reader makes of it: the formatter of the logger in place of the appender's own,
no level, and no formatter of the logger at all. -/

def readBack (ld : LogDefine) (a : LogAppenderDefine) : LogAppenderDefine :=
  { type := a.type
    level := .UNKNOWN
    formatter := ld.formatter
    file := if a.type = 1 then a.file else [] }

def Known (a : LogAppenderDefine) : Prop := a.type = 1 ∨ a.type = 2

theorem readAppender_known (ld : LogDefine) {a : LogAppenderDefine} (h : Known a) :
    readAppender (some (appenderNode ld a)) = .ok (readBack ld a) := by
  obtain ⟨type, level, formatter, file⟩ := a
  rcases h with rfl | rfl
  all_goals
    rw [appenderNode, readBack]
    by_cases hlevel : level = .UNKNOWN <;> by_cases hformatter : ld.formatter = []
    · rw [if_neg (not_not.2 hlevel), if_neg (not_not.2 hformatter), hformatter]
      rfl
    · rw [if_neg (not_not.2 hlevel), if_pos hformatter]
      rfl
    · rw [if_pos hlevel, if_neg (not_not.2 hformatter), hformatter]
      rfl
    · rw [if_pos hlevel, if_pos hformatter]
      rfl

theorem readAppender_unknown (ld : LogDefine) {a : LogAppenderDefine} (h : ¬ Known a) :
    readAppender (some (appenderNode ld a)) =
      .error (.logicError "log config appender:type is null") := by
  obtain ⟨h₁, h₂⟩ := not_or.1 h
  rw [appenderNode, if_neg h₁, if_neg h₂]
  split <;> split <;> rfl

/-- A key of the logger is read where the head of the node has it. -/
theorem subscript_toNode (ld : LogDefine) {k : Text} (hne : bytes "appenders" ≠ k) :
    subscript (some (toNode ld)) k = .ok (find k (headEntries ld)) := by
  rw [toNode_eq]
  exact subscript_withItems hne _ _

theorem subscript_appenders (ld : LogDefine) :
    subscript (some (toNode ld)) (bytes "appenders") =
      .ok (if ld.appenders.map (appenderNode ld) = [] then none
        else some (.sequence (ld.appenders.map (appenderNode ld)))) := by
  rw [toNode_eq]
  exact subscript_items (find_appenders_headEntries ld) _

theorem textAt_level (ld : LogDefine) : textAt (some (toNode ld)) (bytes "level") =
    .ok (if ld.level ≠ .UNKNOWN then levelText ld.level else []) := by
  rw [textAt, subscript_toNode ld (by decide), headEntries]
  by_cases hlevel : ld.level = .UNKNOWN
  · rw [if_neg (not_not.2 hlevel), if_neg (not_not.2 hlevel)]
    split <;> rfl
  · rw [if_pos hlevel, if_pos hlevel]
    rfl

theorem textAt_formatter (ld : LogDefine) :
    textAt (some (toNode ld)) (bytes "formatter") = .ok [] := by
  rw [textAt, subscript_toNode ld (by decide), headEntries]
  by_cases hformatter : ld.formatter = []
  · rw [if_pos hformatter, hformatter]
    split <;> rfl
  · rw [if_neg hformatter]
    split <;> rfl

theorem levelOf_written (level : Level) :
    levelOf (if level ≠ .UNKNOWN then levelText level else []) = level := by
  cases level <;> rfl

theorem fromNode_toNode (ld : LogDefine) :
    fromNode (toNode ld) =
      ((ld.appenders.map fun a => some (appenderNode ld a)).mapM readAppender).map
        fun appenders => ⟨ld.name, ld.level, [], appenders⟩ := by
  have hname : subscript (some (toNode ld)) (bytes "name") = .ok (some (.scalar ld.name)) :=
    subscript_toNode ld (by decide)
  simp only [fromNode, hname, textAt_level, textAt_formatter, subscript_appenders, asString,
    bind, Except.bind, levelOf_written]
  cases happenders : ld.appenders with
  | nil => rfl
  | cons a rest =>
    rw [if_neg (by rw [List.map_cons]; exact List.cons_ne_nil _ _)]
    simp only [elements, List.map_map]
    rfl

/-- The configurations that survive: no formatter anywhere and no level of an appender. -/
def Plain (ld : LogDefine) : Prop :=
  ld.formatter = [] ∧ ∀ a ∈ ld.appenders,
    (a.type = 1 ∨ a.type = 2 ∧ a.file = []) ∧ a.level = .UNKNOWN ∧ a.formatter = []

theorem readBack_eq_iff {ld : LogDefine} (hld : ld.formatter = []) {a : LogAppenderDefine}
    (ha : Known a) : readBack ld a = a ↔
      (a.type = 1 ∨ a.type = 2 ∧ a.file = []) ∧ a.level = .UNKNOWN ∧ a.formatter = [] := by
  obtain ⟨type, level, formatter, file⟩ := a
  rcases ha with rfl | rfl
  · simp [readBack, hld, eq_comm]
  · simp [readBack, hld, eq_comm, and_comm, and_assoc]

theorem map_readBack_iff {ld : LogDefine} (hld : ld.formatter = [])
    (hknown : ∀ a ∈ ld.appenders, Known a) :
    ld.appenders.map (readBack ld) = ld.appenders ↔ ∀ a ∈ ld.appenders,
      (a.type = 1 ∨ a.type = 2 ∧ a.file = []) ∧ a.level = .UNKNOWN ∧ a.formatter = [] := by
  have hid : ld.appenders.map (readBack ld) = ld.appenders ↔
      ld.appenders.map (readBack ld) = ld.appenders.map id := by rw [List.map_id]
  rw [hid, List.map_inj_left]
  exact forall₂_congr fun a ha => readBack_eq_iff hld (hknown a ha)

theorem fromNode_known {ld : LogDefine} (hknown : ∀ a ∈ ld.appenders, Known a) :
    fromNode (toNode ld) = .ok ⟨ld.name, ld.level, [], ld.appenders.map (readBack ld)⟩ := by
  have hread : ld.appenders.mapM (readAppender ∘ fun a => some (appenderNode ld a)) =
      .ok (ld.appenders.map (readBack ld)) :=
    mapM_eq_ok fun a ha => readAppender_known ld (hknown a ha)
  rw [fromNode_toNode, List.mapM_map, hread]
  rfl

theorem known_of_fromNode {ld ld' : LogDefine} (h : fromNode (toNode ld) = .ok ld') :
    ∀ a ∈ ld.appenders, Known a := by
  rw [fromNode_toNode] at h
  cases hread : (ld.appenders.map fun a => some (appenderNode ld a)).mapM readAppender with
  | error fault => rw [hread] at h; cases h
  | ok appenders =>
    intro a ha
    by_contra hunknown
    obtain ⟨b, hb⟩ := of_mapM_eq_ok hread _ (List.mem_map_of_mem ha)
    cases hb.symm.trans (readAppender_unknown ld hunknown)

theorem fromNode_toNode_iff (ld : LogDefine) : fromNode (toNode ld) = .ok ld ↔ Plain ld := by
  constructor
  · intro h
    have hknown := known_of_fromNode h
    rw [fromNode_known hknown] at h
    have heq := Except.ok.inj h
    have hformatter : ld.formatter = [] := (congrArg LogDefine.formatter heq).symm
    have happenders := congrArg LogDefine.appenders heq
    exact ⟨hformatter, (map_readBack_iff hformatter hknown).1 happenders⟩
  · rintro ⟨hformatter, hplain⟩
    have hknown : ∀ a ∈ ld.appenders, Known a := fun a ha => (hplain a ha).1.imp_right And.left
    rw [fromNode_known hknown, (map_readBack_iff hformatter hknown).2 hplain, ← hformatter]

/-- With a library that gives the written node back, a configuration is read as it was written
exactly when it is plain. -/
theorem fromText_toText_iff_plain (lib : Library) (ld : LogDefine)
    (hlib : lib.Returns (toNode ld)) : fromText lib (toText lib ld) = .ok ld ↔ Plain ld := by
  rw [← fromNode_toNode_iff, fromText, toText, hlib.loadNode]
  rfl

/-- A logger with a level and a file. -/
def plainDefine : LogDefine :=
  ⟨bytes "root", .INFO, [], [⟨1, .UNKNOWN, [], bytes "root.txt"⟩]⟩

/-- The document that is written for it, and its node. -/
def plainDocument : Text :=
  bytes "name: root\nlevel: INFO\nformatter: \"\"\nappenders:\n" ++
    bytes "  - type: FileLogAppender\n    file: root.txt"

def plainLibrary : Library :=
  ⟨fun _ => plainDocument,
    fun text => if text = plainDocument then some (toNode plainDefine) else none⟩

theorem plainDefine_survives :
    plainLibrary.Returns (toNode plainDefine) ∧ Plain plainDefine ∧
      fromText plainLibrary (toText plainLibrary plainDefine) = .ok plainDefine := by
  have hplain : Plain plainDefine := by
    refine ⟨rfl, ?_⟩
    intro a ha
    rw [List.mem_singleton.1 ha]
    exact ⟨Or.inl rfl, rfl, rfl⟩
  exact ⟨rfl, hplain, (fromText_toText_iff_plain plainLibrary plainDefine rfl).2 hplain⟩

/-- A logger with a formatter of its own. -/
def formattedDefine : LogDefine := ⟨bytes "root", .UNKNOWN, bytes "%m%n", []⟩

def formattedLibrary : Library :=
  ⟨fun _ => bytes "name: root",
    fun text => if text = bytes "name: root" then some (toNode formattedDefine) else none⟩

/-- Its formatter is not written and it comes back without. -/
theorem formattedDefine_lost :
    ¬ ∀ (lib : Library) (ld : LogDefine), ld.name ≠ [] → (∀ a ∈ ld.appenders,
        a.type = 1 ∧ a.file ≠ [] ∨ a.type = 2 ∧ a.file = []) →
      lib.Returns (toNode ld) → fromText lib (toText lib ld) = .ok ld := by
  intro h
  have hread := h formattedLibrary formattedDefine (by decide)
    (fun a ha => absurd ha List.not_mem_nil) rfl
  have hlost : fromText formattedLibrary (toText formattedLibrary formattedDefine) =
      .ok ⟨bytes "root", .UNKNOWN, [], []⟩ := rfl
  cases hlost.symm.trans hread

end LogDefines
