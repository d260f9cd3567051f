import Mathlib.Data.List.Perm.Lattice
import Mathlib.Logic.Function.Basic
import SylarNet.StepRuns

/-!
# Configuration

`ConfigVar::setValue`, which tells the listener under one lock and assigns under the next, and
the loading of a tree of YAML into the registered variables.
-/

namespace ConfigVar

open StepRuns

/-- An assignment: the old value that the listener was told, and the one that was replaced. -/
structure Replaced (V : Type) where
  told : V
  actual : V
  deriving DecidableEq, Repr

structure State (T V : Type) where
  val : V
  /-- `m_val` as it was when the listener was added. -/
  added : V
  /-- What the listener has last stored. -/
  stored : Option V
  /-- The old and the new value of a thread between the two locks. -/
  between : T → Option (V × V)
  log : List (Replaced V)

inductive Op (T V : Type) where
  /-- `setValue` up to the end of its read lock. -/
  | notify (thread : T) (v : V)
  /-- Its write lock. -/
  | assign (thread : T)

section Updates

variable {T V : Type}

def initial (v : V) : State T V := ⟨v, v, none, fun _ => none, []⟩

def step [DecidableEq T] [DecidableEq V] (s : State T V) : Op T V → Option (Unit × State T V)
  | .notify thread v =>
    if v = s.val then some ((), s)
    else some ((), { s with
      stored := some v
      between := Function.update s.between thread (some (s.val, v)) })
  | .assign thread =>
    match s.between thread with
    | none => none
    | some (told, v) => some ((), { s with
        val := v
        between := Function.update s.between thread none
        log := s.log ++ [⟨told, s.val⟩] })

/-- A thread is in one call at a time. -/
def Allowed (s : State T V) : Op T V → Prop
  | .notify thread _ => s.between thread = none
  | .assign thread => s.between thread ≠ none

def Quiet (s : State T V) : Prop := ∀ thread, s.between thread = none

structure Agrees (s : State T V) : Prop where
  quiet : Quiet s → s.stored = some s.val ∨ s.stored = none ∧ s.val = s.added
  told : ∀ r ∈ s.log, r.told = r.actual

/-- The listener is told of a new value only while no other call is between its two locks. -/
def Undisturbed (s : State T V) : Op T V → Prop
  | .notify _ v => v ≠ s.val → Quiet s
  | .assign _ => True

/-- One thread at most is between the locks; the listener has its value. -/
structure InTurn (s : State T V) : Prop where
  agrees : Agrees s
  alone : ∀ thread told v, s.between thread = some (told, v) →
    told = s.val ∧ s.stored = some v ∧ ∀ other, other ≠ thread → s.between other = none

variable {s t : State T V}

theorem inTurn_initial (v : V) : InTurn (initial v : State T V) :=
  ⟨⟨fun _ => .inr ⟨rfl, rfl⟩, nofun⟩, nofun⟩

variable [DecidableEq T] [DecidableEq V]

theorem InTurn.step {e : Op T V} {o : Unit} (h : InTurn s) (hok : Allowed s e)
    (hclean : Undisturbed s e) (he : step s e = some (o, t)) : InTurn t := by
  cases e with
  | notify thread v =>
    rw [ConfigVar.step] at he
    split at he
    · cases he
      exact h
    · next hne =>
      have hquiet : Quiet s := hclean hne
      cases he
      refine ⟨⟨?_, h.agrees.told⟩, ?_⟩
      · intro hall
        have hself : Function.update s.between thread (some (s.val, v)) thread = none :=
          hall thread
        rw [Function.update_self] at hself
        cases hself
      · intro thread' told v' hbetween
        change Function.update s.between thread (some (s.val, v)) thread' = _ at hbetween
        by_cases hthread : thread' = thread
        · subst hthread
          rw [Function.update_self] at hbetween
          cases hbetween
          refine ⟨rfl, rfl, ?_⟩
          intro other hother
          exact (Function.update_of_ne hother ..).trans (hquiet other)
        · rw [Function.update_of_ne hthread, hquiet thread'] at hbetween
          cases hbetween
  | assign thread =>
    obtain ⟨⟨told, v⟩, hbetween⟩ := Option.ne_none_iff_exists'.1 hok
    obtain ⟨htold, hstored, hothers⟩ := h.alone thread told v hbetween
    rw [ConfigVar.step, hbetween] at he
    cases he
    refine ⟨⟨fun _ => .inl hstored, ?_⟩, ?_⟩
    · intro r hr
      rcases List.mem_append.1 hr with hr | hr
      · exact h.agrees.told r hr
      · rw [List.mem_singleton] at hr
        rw [hr]
        exact htold
    · intro thread' told' v' hbetween'
      change Function.update s.between thread none thread' = _ at hbetween'
      by_cases hthread : thread' = thread
      · subst hthread
        rw [Function.update_self] at hbetween'
        cases hbetween'
      · rw [Function.update_of_ne hthread, hothers thread' hthread] at hbetween'
        cases hbetween'

/-- In every run in which no two calls that change the value overlap, the listener has the value
whenever no call is in progress, and was always told the value that was replaced. -/
theorem listener_agrees (v : V) (ops : List (Op T V)) (os : List Unit) (t : State T V)
    (hops : Guarded Allowed step (initial v) ops)
    (hclean : Guarded Undisturbed step (initial v) ops)
    (hrun : run step (initial v) ops = some (os, t)) : Agrees t := by
  have hturn : InTurn t := by
    apply run_invariant (P := InTurn) ?_ (inTurn_initial v) (guarded_and hops hclean) hrun
    intro s e o t hs hok he
    exact hs.step hok.1 hok.2 he
  exact hturn.agrees

end Updates

theorem listener_agrees_in_turn :
    ∃ os t, run step (initial 0 : State Bool ℕ)
      [.notify false 5, .assign false, .notify true 7, .assign true] = some (os, t) ∧
      Agrees t := by
  refine ⟨_, _, rfl, listener_agrees 0
    [.notify false 5, .assign false, .notify true 7, .assign true] _ _ ?_ ?_ rfl⟩
  · refine ⟨rfl, ?_⟩
    rintro _ _ ⟨⟩
    refine ⟨nofun, ?_⟩
    rintro _ _ ⟨⟩
    refine ⟨rfl, ?_⟩
    rintro _ _ ⟨⟩
    refine ⟨nofun, ?_⟩
    intros
    trivial
  · refine ⟨fun _ _ => rfl, ?_⟩
    rintro _ _ ⟨⟩
    refine ⟨trivial, ?_⟩
    rintro _ _ ⟨⟩
    refine ⟨fun _ thread => by cases thread <;> rfl, ?_⟩
    rintro _ _ ⟨⟩
    refine ⟨trivial, ?_⟩
    intros
    trivial

/-- The listener is told 5 and then 7; the value becomes 7 and then 5. -/
theorem listener_disagrees :
    Guarded Allowed step (initial 0 : State Bool ℕ)
      [.notify false 5, .notify true 7, .assign true, .assign false] ∧
    ∃ os t, run step (initial 0 : State Bool ℕ)
        [.notify false 5, .notify true 7, .assign true, .assign false] = some (os, t) ∧
      Quiet t ∧ t.stored = some 7 ∧ t.val = 5 ∧ t.log = [⟨0, 0⟩, ⟨0, 7⟩] ∧ ¬ Agrees t := by
  refine ⟨?_, _, _, rfl, ?_, rfl, rfl, rfl, ?_⟩
  · refine ⟨rfl, ?_⟩
    rintro _ _ ⟨⟩
    refine ⟨rfl, ?_⟩
    rintro _ _ ⟨⟩
    refine ⟨nofun, ?_⟩
    rintro _ _ ⟨⟩
    refine ⟨nofun, ?_⟩
    intros
    trivial
  · intro thread
    cases thread <;> rfl
  · intro h
    have hmem : (⟨0, 7⟩ : Replaced ℕ) ∈ [⟨0, 0⟩, ⟨0, 7⟩] := by simp
    exact absurd (h.told _ hmem) (by decide)

end ConfigVar

namespace Config

/-- `find_first_not_of` of the string finds nothing. Neither `j` nor `9` is in it. -/
def validName (name : List Char) : Bool :=
  name.all "abcdefghigklmnopqrstuvwxyz.012345678_".toList.contains

mutual

/-- A `YAML::Node`; `other` is a sequence or null. -/
inductive Node where
  | scalar (text : List Char)
  | other (text : List Char)
  | map (entries : Entries)

/-- The entries of a map in the order of iteration, with the scalars of their keys. -/
inductive Entries where
  | nil
  | cons (key : List Char) (node : Node) (rest : Entries)

end

/-- The key under which the member of a node is listed. -/
def join (pre key : List Char) : List Char :=
  if pre.isEmpty then key else pre ++ '.' :: key

mutual

def listAllMember (pre : List Char) (node : Node) : List (List Char × Node) :=
  if !validName pre then []
  else
    (pre, node) ::
      match node with
      | .map entries => listEntries pre entries
      | _ => []

/-- The loop of `ListAllMember` over a map. -/
def listEntries (pre : List Char) : Entries → List (List Char × Node)
  | .nil => []
  | .cons key node rest => listAllMember (join pre key) node ++ listEntries pre rest

end

/-- The registered variables, with their values. -/
abbrev Data (V : Type) := List (List Char × V)

def registered {V : Type} (data : Data V) (name : List Char) : Bool :=
  data.any fun e => e.1 = name

inductive Fault where
  | invalidArgument
  deriving DecidableEq, Repr

/-- `Lookup` with a default value, of one type for each name. -/
def lookup {V : Type} (data : Data V) (name : List Char) (default : V) : Except Fault (Data V) :=
  if registered data name then .ok data
  else if validName name then .ok (data ++ [(name, default)])
  else .error .invalidArgument

/-- The calls of `Lookup` that define the variables. -/
def registerAll {V : Type} (data : Data V) : List (List Char × V) → Except Fault (Data V)
  | [] => .ok data
  | (name, default) :: rest => do
    let data ← lookup data name default
    registerAll data rest

section Loading

variable {V : Type} (fromString : V → List Char → V) (emit : Node → List Char)

def textOf : Node → List Char
  | .scalar text => text
  | node => emit node

/-- `var->fromString(text)` of the variable of that name. -/
def assign (data : Data V) (call : List Char × List Char) : Data V :=
  data.map fun e => if e.1 = call.1 then (e.1, fromString e.2 call.2) else e

/-- The loop of `loadFromYaml`. Returns the variables and the calls of `fromString`. -/
def loadNodes (data : Data V) :
    List (List Char × Node) → Data V × List (List Char × List Char)
  | [] => (data, [])
  | (key, node) :: rest =>
    let key := key.map Char.toLower
    if !key.isEmpty && registered data key then
      let r := loadNodes (assign fromString data (key, textOf emit node)) rest
      (r.1, (key, textOf emit node) :: r.2)
    else loadNodes data rest

def loadFromYaml (data : Data V) (root : Node) : Data V × List (List Char × List Char) :=
  loadNodes fromString emit data (listAllMember [] root)

end Loading

/-!
## What is to be loaded
-/

def nameAlphabet : List Char := "abcdefghijklmnopqrstuvwxyz0123456789_.".toList

mutual

/-- No key is empty; what they are made of does not matter. -/
def WellKeyed : Node → Prop
  | .map entries => EntriesWellKeyed entries
  | _ => True

def EntriesWellKeyed : Entries → Prop
  | .nil => True
  | .cons key node rest => key ≠ [] ∧ WellKeyed node ∧ EntriesWellKeyed rest

end

mutual

/-- The nodes below a path, in preorder, with the dotted names of their paths. -/
def below (path : List Char) : Node → List (List Char × Node)
  | .map entries => belowEntries path entries
  | _ => []

def belowEntries (path : List Char) : Entries → List (List Char × Node)
  | .nil => []
  | .cons key node rest =>
    (join path key, node) :: below (join path key) node ++ belowEntries path rest

end

/-- The calls of `fromString` for a tree: those of the paths that are names of variables. -/
def expected {V : Type} (emit : Node → List Char) (vars : Data V) (root : Node) :
    List (List Char × List Char) :=
  ((below [] root).filter fun p => registered vars p.1).map fun p => (p.1, textOf emit p.2)

section Names

theorem validName_append (name rest : List Char) :
    validName (name ++ rest) = (validName name && validName rest) :=
  List.all_append

/-- Looks at the characters of the list only. -/
theorem forall_of_all {p : Char → Prop} [DecidablePred p] {l : List Char}
    (h : l.all (fun c => decide (p c)) = true) : ∀ c ∈ l, p c :=
  fun c hc => of_decide_eq_true (List.all_eq_true.1 h c hc)

theorem alphabet_of_mem : ∀ c ∈ nameAlphabet,
    ("abcdefghigklmnopqrstuvwxyz.012345678_".toList.contains c = true ↔ c ≠ 'j' ∧ c ≠ '9') :=
  forall_of_all (by decide)

theorem validName_iff {name : List Char} (h : ∀ c ∈ name, c ∈ nameAlphabet) :
    validName name = true ↔ ∀ c ∈ name, c ≠ 'j' ∧ c ≠ '9' := by
  rw [validName, List.all_eq_true]
  exact forall₂_congr fun c hc => alphabet_of_mem c (h c hc)

theorem toLower_of_mem :
    ∀ c ∈ "abcdefghigklmnopqrstuvwxyz.012345678_".toList, c.toLower = c :=
  forall_of_all (by decide)

theorem map_toLower {name : List Char} (h : validName name = true) :
    name.map Char.toLower = name := by
  have hc : ∀ c ∈ name, c.toLower = id c := fun c hc =>
    toLower_of_mem c (List.contains_iff_mem.1 (List.all_eq_true.1 h c hc))
  rw [List.map_congr_left hc, List.map_id]

theorem prefix_join (pre key : List Char) : pre <+: join pre key := by
  unfold join
  split
  · next h =>
    rw [List.isEmpty_iff.1 h]
    exact List.nil_prefix
  · exact List.prefix_append ..

theorem join_ne_nil {pre key : List Char} (h : key ≠ []) : join pre key ≠ [] := by
  unfold join
  split
  · exact h
  · simp

end Names

section Trees

mutual

theorem prefix_below (path : List Char) : ∀ node, ∀ p ∈ below path node, path <+: p.1
  | .scalar _ => nofun
  | .other _ => nofun
  | .map entries => prefix_belowEntries path entries

theorem prefix_belowEntries (path : List Char) :
    ∀ entries, ∀ p ∈ belowEntries path entries, path <+: p.1
  | .nil => nofun
  | .cons key node rest => by
    intro p hp
    have hjoin := prefix_join path key
    rcases List.mem_append.1 hp with hp | hp
    · rcases List.mem_cons.1 hp with rfl | hp
      · exact hjoin
      · exact hjoin.trans (prefix_below (join path key) node p hp)
    · exact prefix_belowEntries path rest p hp

end

mutual

theorem ne_nil_of_mem_below (path : List Char) :
    ∀ node, WellKeyed node → ∀ p ∈ below path node, p.1 ≠ []
  | .scalar _, _ => nofun
  | .other _, _ => nofun
  | .map entries, h => ne_nil_of_mem_belowEntries path entries h

theorem ne_nil_of_mem_belowEntries (path : List Char) :
    ∀ entries, EntriesWellKeyed entries → ∀ p ∈ belowEntries path entries, p.1 ≠ []
  | .nil, _ => nofun
  | .cons key node rest, ⟨hkey, hnode, hrest⟩ => by
    intro p hp
    rcases List.mem_append.1 hp with hp | hp
    · rcases List.mem_cons.1 hp with rfl | hp
      · exact join_ne_nil hkey
      · exact ne_nil_of_mem_below (join path key) node hnode p hp
    · exact ne_nil_of_mem_belowEntries path rest hrest p hp

end

mutual

/-- Only accepted names are listed. -/
theorem validName_of_mem_list (pre : List Char) :
    ∀ node, ∀ p ∈ listAllMember pre node, validName p.1 = true := by
  intro node p hp
  by_cases hpre : validName pre = true
  · cases node with
    | map entries =>
      simp only [listAllMember, hpre, Bool.not_true, Bool.false_eq_true, if_false] at hp
      rcases List.mem_cons.1 hp with rfl | hp
      · exact hpre
      · exact validName_of_mem_listEntries pre entries p hp
    | scalar text =>
      simp only [listAllMember, hpre, Bool.not_true, Bool.false_eq_true, if_false] at hp
      rw [List.mem_singleton.1 hp]
      exact hpre
    | other text =>
      simp only [listAllMember, hpre, Bool.not_true, Bool.false_eq_true, if_false] at hp
      rw [List.mem_singleton.1 hp]
      exact hpre
  · unfold listAllMember at hp
    simp [hpre] at hp

theorem validName_of_mem_listEntries (pre : List Char) :
    ∀ entries, ∀ p ∈ listEntries pre entries, validName p.1 = true
  | .nil => nofun
  | .cons key node rest => by
    intro p hp
    rw [listEntries, List.mem_append] at hp
    rcases hp with hp | hp
    · exact validName_of_mem_list (join pre key) node p hp
    · exact validName_of_mem_listEntries pre rest p hp

end

variable {V : Type} {data : Data V}

/-- All names of the registered variables were accepted. -/
def Accepted (data : Data V) : Prop := ∀ e ∈ data, validName e.1 = true

theorem Accepted.validName (h : Accepted data) {name : List Char}
    (hr : registered data name = true) : validName name = true := by
  rw [registered, List.any_eq_true] at hr
  obtain ⟨e, he, heq⟩ := hr
  rw [← of_decide_eq_true heq]
  exact h e he

/-- What is cut off below a name that is not accepted has no variables. -/
theorem filter_below_of_invalid (h : Accepted data) {path : List Char} {node : Node}
    (hpath : validName path = false) :
    (below path node).filter (fun p => registered data p.1) = [] := by
  rw [List.filter_eq_nil_iff]
  intro p hp hr
  obtain ⟨rest, hrest⟩ := prefix_below path node p hp
  have hvalid := h.validName hr
  rw [← hrest, validName_append, hpath] at hvalid
  cases hvalid

mutual

/-- Up to names that are no variables, `ListAllMember` lists the node and what is below it. -/
theorem filter_listAllMember (h : Accepted data) (pre : List Char) : ∀ node,
    (listAllMember pre node).filter (fun p => registered data p.1) =
      ((pre, node) :: below pre node).filter (fun p => registered data p.1) := by
  intro node
  by_cases hpre : validName pre = true
  · cases node with
    | scalar text => simp [listAllMember, hpre, below]
    | other text => simp [listAllMember, hpre, below]
    | map entries =>
      have hentries := filter_listEntries h pre entries
      simp only [listAllMember, hpre, below, List.filter_cons, hentries, Bool.not_true,
        Bool.false_eq_true, if_false]
  · rw [Bool.not_eq_true] at hpre
    have hself : registered data pre = false := by
      rw [Bool.eq_false_iff]
      intro hr
      rw [h.validName hr] at hpre
      cases hpre
    rw [List.filter_cons_of_neg (by simp [hself]), filter_below_of_invalid h hpre]
    unfold listAllMember
    simp [hpre]

theorem filter_listEntries (h : Accepted data) (pre : List Char) : ∀ entries,
    (listEntries pre entries).filter (fun p => registered data p.1) =
      (belowEntries pre entries).filter (fun p => registered data p.1) := by
  intro entries
  cases entries with
  | nil => rfl
  | cons key node rest =>
    rw [listEntries, belowEntries, List.filter_append, List.filter_append,
      filter_listAllMember h (join pre key) node, filter_listEntries h pre rest]

end

end Trees

section Results

variable {V : Type} {data : Data V} {fromString : V → List Char → V} {emit : Node → List Char}

theorem registered_append (data : Data V) (e : List Char × V) (name : List Char) :
    registered (data ++ [e]) name = (registered data name || decide (e.1 = name)) := by
  simp [registered]

theorem registered_assign (call : List Char × List Char) (name : List Char) :
    registered (assign fromString data call) name = registered data name := by
  unfold registered assign
  rw [List.any_map]
  congr 1
  funext e
  simp only [Function.comp_apply]
  split <;> rfl

/-- `loadFromYaml` passes over the root and what is not registered. -/
def toLoad (emit : Node → List Char) (data : Data V) (nodes : List (List Char × Node)) :
    List (List Char × List Char) :=
  (nodes.filter fun p => !p.1.isEmpty && registered data p.1).map fun p => (p.1, textOf emit p.2)

theorem loadNodes_eq {nodes : List (List Char × Node)}
    (h : ∀ p ∈ nodes, p.1.map Char.toLower = p.1) :
    loadNodes fromString emit data nodes =
      ((toLoad emit data nodes).foldl (assign fromString) data, toLoad emit data nodes) := by
  induction nodes generalizing data with
  | nil => rfl
  | cons p rest ih =>
    obtain ⟨key, node⟩ := p
    rw [List.forall_mem_cons] at h
    have hkey : key.map Char.toLower = key := h.1
    rw [loadNodes, hkey, toLoad, List.filter_cons]
    split
    · next hreg =>
      have hrest : loadNodes fromString emit (assign fromString data (key, textOf emit node)) rest =
        _ := ih h.2
      simp only [toLoad, registered_assign] at hrest
      rw [hrest]
      rfl
    · exact ih h.2

theorem toLoad_listAllMember {root : Node} (h : Accepted data) (hroot : WellKeyed root) :
    toLoad emit data (listAllMember [] root) = expected emit data root := by
  have hsplit : ∀ nodes : List (List Char × Node),
      nodes.filter (fun p => !p.1.isEmpty && registered data p.1) =
        (nodes.filter fun p => registered data p.1).filter fun p => !p.1.isEmpty :=
    fun nodes => List.filter_filter.symm
  have hbelow : ∀ p ∈ (below [] root).filter (fun p => registered data p.1),
      (!p.1.isEmpty) = true := by
    intro p hp
    have hne := ne_nil_of_mem_below [] root hroot p (List.mem_of_mem_filter hp)
    simp [hne]
  rw [toLoad, expected, hsplit, filter_listAllMember h, ← hsplit,
    List.filter_cons_of_neg (by simp), hsplit, List.filter_eq_self.2 hbelow]

theorem loadFromYaml_eq {root : Node} (h : Accepted data) (hroot : WellKeyed root) :
    loadFromYaml fromString emit data root =
      ((expected emit data root).foldl (assign fromString) data, expected emit data root) := by
  rw [loadFromYaml, loadNodes_eq, toLoad_listAllMember h hroot]
  intro p hp
  exact map_toLower (validName_of_mem_list [] root p hp)

theorem mem_foldl_assign {calls : List (List Char × List Char)} {e : List Char × V}
    (he : e ∈ data) (h : ∀ call ∈ calls, call.1 ≠ e.1) :
    e ∈ calls.foldl (assign fromString) data := by
  induction calls generalizing data with
  | nil => exact he
  | cons call calls ih =>
    rw [List.forall_mem_cons] at h
    refine ih (List.mem_map.2 ⟨e, he, ?_⟩) h.2
    rw [if_neg fun heq => h.1 heq.symm]

theorem lookup_ok_iff {name : List Char} {v : V} (h : Accepted data) :
    (∃ d, lookup data name v = .ok d) ↔ validName name = true := by
  unfold lookup
  split
  · next hr => exact iff_of_true ⟨data, rfl⟩ (h.validName hr)
  · split
    · next hv => exact iff_of_true ⟨_, rfl⟩ hv
    · next hv => exact iff_of_false nofun hv

theorem lookup_spec {name : List Char} {v : V} {d : Data V} (h : Accepted data)
    (hd : lookup data name v = .ok d) :
    Accepted d ∧ ∀ n, registered d n = (registered data n || decide (name = n)) := by
  unfold lookup at hd
  split at hd
  · next hr =>
    cases hd
    refine ⟨h, ?_⟩
    intro n
    by_cases hn : name = n
    · rw [← hn, hr, Bool.true_or]
    · rw [decide_eq_false hn, Bool.or_false]
  · split at hd
    · next hv =>
      cases hd
      refine ⟨?_, registered_append data (name, v)⟩
      intro e he
      rcases List.mem_append.1 he with he | he
      · exact h e he
      · rw [List.mem_singleton] at he
        rw [he]
        exact hv
    · cases hd

theorem registerAll_ok_iff {vars : List (List Char × V)} (h : Accepted data) :
    (∃ d, registerAll data vars = .ok d) ↔ Accepted vars := by
  induction vars generalizing data with
  | nil => exact iff_of_true ⟨data, rfl⟩ nofun
  | cons e rest ih =>
    rw [Accepted, List.forall_mem_cons, ← lookup_ok_iff h (v := e.2), registerAll]
    cases hl : lookup data e.1 e.2 with
    | error fault => exact iff_of_false nofun nofun
    | ok d =>
      simp only [bind, Except.bind, Except.ok.injEq, exists_eq', true_and]
      exact ih (lookup_spec h hl).1

theorem registerAll_spec {vars : List (List Char × V)} {d : Data V} (h : Accepted data)
    (hd : registerAll data vars = .ok d) :
    Accepted d ∧ ∀ n, registered d n = (registered data n || registered vars n) := by
  induction vars generalizing data with
  | nil =>
    cases hd
    exact ⟨h, fun n => by simp [registered]⟩
  | cons e rest ih =>
    rw [registerAll] at hd
    cases hl : lookup data e.1 e.2 with
    | error fault =>
      rw [hl] at hd
      cases hd
    | ok d' =>
      rw [hl] at hd
      obtain ⟨hacc, hreg⟩ := lookup_spec h hl
      obtain ⟨hacc', hreg'⟩ := ih hacc hd
      refine ⟨hacc', ?_⟩
      intro n
      rw [hreg', hreg, Bool.or_assoc]
      rfl

theorem expected_congr {vars : Data V} {root : Node}
    (h : ∀ n, registered data n = registered vars n) :
    expected emit data root = expected emit vars root := by
  simp only [expected, h]

/-- The registration throws nothing, and a tree is then loaded into the variables whose names
are paths of it and into no others, exactly as long as no name has a `j` or a `9`. -/
theorem loads_iff_without_j_and_9 (fromString : V → List Char → V) (emit : Node → List Char)
    (vars : List (List Char × V)) (root : Node)
    (hvars : ∀ e ∈ vars, ∀ c ∈ e.1, c ∈ nameAlphabet) (hroot : WellKeyed root) :
    (∃ data, registerAll [] vars = .ok data ∧
      loadFromYaml fromString emit data root =
        ((expected emit vars root).foldl (assign fromString) data, expected emit vars root) ∧
      ∀ e ∈ data, (∀ call ∈ expected emit vars root, call.1 ≠ e.1) →
        e ∈ (loadFromYaml fromString emit data root).1) ↔
      ∀ e ∈ vars, ∀ c ∈ e.1, c ≠ 'j' ∧ c ≠ '9' := by
  have hempty : Accepted ([] : Data V) := nofun
  have hvalid : Accepted vars ↔ ∀ e ∈ vars, ∀ c ∈ e.1, c ≠ 'j' ∧ c ≠ '9' :=
    forall₂_congr fun e he => validName_iff (hvars e he)
  rw [← hvalid, ← registerAll_ok_iff hempty]
  constructor
  · rintro ⟨data, hdata, -⟩
    exact ⟨data, hdata⟩
  · rintro ⟨data, hdata⟩
    obtain ⟨hacc, hreg⟩ := registerAll_spec hempty hdata
    have hload : loadFromYaml fromString emit data root = _ := loadFromYaml_eq hacc hroot
    rw [expected_congr fun n => (hreg n).trans (Bool.false_or _)] at hload
    refine ⟨data, hdata, hload, ?_⟩
    intro e he hnot
    rw [hload]
    exact mem_foldl_assign he hnot

theorem loads_http_port :
    ∃ data, registerAll [] [("http.port".toList, ['0']), ("name".toList, [])] = .ok data ∧
      loadFromYaml (fun _ text => text) (fun _ => []) data
          (.map (.cons "http".toList (.map (.cons "port".toList (.scalar ['8', '0']) .nil)) .nil)) =
        ((expected (fun _ => []) [("http.port".toList, ['0']), ("name".toList, [])]
            (.map (.cons "http".toList
              (.map (.cons "port".toList (.scalar ['8', '0']) .nil)) .nil))).foldl
          (assign fun _ text => text) data, [("http.port".toList, ['8', '0'])]) := by
  have hvars : ∀ e ∈ [("http.port".toList, ['0']), ("name".toList, [])],
      ∀ c ∈ e.1, c ∈ nameAlphabet := by
    rw [List.forall_mem_cons, List.forall_mem_singleton]
    exact ⟨forall_of_all (by decide), forall_of_all (by decide)⟩
  have hnames : ∀ e ∈ [("http.port".toList, ['0']), ("name".toList, [])],
      ∀ c ∈ e.1, c ≠ 'j' ∧ c ≠ '9' := by
    rw [List.forall_mem_cons, List.forall_mem_singleton]
    exact ⟨forall_of_all (by decide), forall_of_all (by decide)⟩
  obtain ⟨data, hdata, hload, -⟩ := (loads_iff_without_j_and_9 (fun _ text => text) (fun _ => [])
    [("http.port".toList, ['0']), ("name".toList, [])]
    (.map (.cons "http".toList (.map (.cons "port".toList (.scalar ['8', '0']) .nil)) .nil))
    hvars ⟨nofun, ⟨nofun, trivial, trivial⟩, trivial⟩).2 hnames
  exact ⟨data, hdata, hload⟩

/-- Such a name is made of the letters and the dot, and is refused. -/
theorem job_not_registered :
    (∀ c ∈ "job.timeout".toList, c ∈ nameAlphabet) ∧
      ¬ ∃ data : Data (List Char), registerAll [] [("job.timeout".toList, [])] = .ok data := by
  refine ⟨forall_of_all (by decide), ?_⟩
  rintro ⟨data, h⟩
  cases h

end Results

end Config
