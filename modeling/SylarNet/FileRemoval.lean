import Mathlib.Data.Nat.Notation
import Mathlib.Logic.Basic

/-!
# Removing a tree of files

`FSUtil::Rm` takes for a directory whatever has the bit of one in its mode. Sockets and block
devices have it too, and cannot be opened as directories.
-/
namespace FileRemoval

/-- The kinds of files that are no directories. -/
inductive FileType where
  | socket
  | link
  | regular
  | block
  | character
  | fifo
  deriving DecidableEq, Repr

def FileType.mode : FileType → ℕ
  | .socket => 0o140000
  | .link => 0o120000
  | .regular => 0o100000
  | .block => 0o060000
  | .character => 0o020000
  | .fifo => 0o010000

def sIfdir : ℕ := 0o040000

/-- Whether `lstat` of a path succeeds, and `unlink` or, of an empty directory, `rmdir`. -/
structure Calls where
  lstat : Bool
  remove : Bool
  deriving DecidableEq, Repr

/-- What is at a path. A directory has its entries in the order of `readdir`, without itself and
its parent. -/
inductive Tree where
  | file (type : FileType) (calls : Calls)
  | dir (calls : Calls) (opendir : Bool) (entries : List Tree)
  deriving Repr

def Tree.calls : Tree → Calls
  | .file _ calls => calls
  | .dir calls _ _ => calls

/-- The result with what is at the path afterwards, and whether a link was opened. -/
structure Outcome where
  ret : Bool
  left : Option Tree
  followed : Bool

/-- `FSUtil::Unlink` of what exists. A directory is not unlinked. -/
def unlink : Tree → Outcome
  | .file type calls =>
    if !calls.lstat then ⟨true, some (.file type calls), false⟩
    else if calls.remove then ⟨true, none, false⟩
    else ⟨false, some (.file type calls), false⟩
  | .dir calls opendir entries => ⟨!calls.lstat, some (.dir calls opendir entries), false⟩

/-- What the loop over the entries leaves. -/
structure Entries where
  ret : Bool
  left : List Tree
  followed : Bool

mutual

/-- `FSUtil::Rm` of what exists. -/
def rm : Tree → Outcome
  | .file type calls =>
    if !calls.lstat then ⟨true, some (.file type calls), false⟩
    else if type.mode &&& sIfdir = 0 then unlink (.file type calls)
    else ⟨false, some (.file type calls), type = .link⟩
  | .dir calls opendir entries =>
    if !calls.lstat then ⟨true, some (.dir calls opendir entries), false⟩
    else if sIfdir &&& sIfdir = 0 then unlink (.dir calls opendir entries)
    else if !opendir then ⟨false, some (.dir calls opendir entries), false⟩
    else
      let r := rmEntries true entries
      if r.left.isEmpty && calls.remove then ⟨r.ret, none, r.followed⟩
      else ⟨false, some (.dir calls opendir r.left), r.followed⟩

/-- Every entry overwrites `ret`. -/
def rmEntries : Bool → List Tree → Entries
  | ret, [] => ⟨ret, [], false⟩
  | _, t :: entries =>
    let o := rm t
    let r := rmEntries o.ret entries
    ⟨r.ret, o.left.toList ++ r.left, o.followed || r.followed⟩

end

/-- `FSUtil::Rm`; `lstat` fails if there is nothing. -/
def rmPath : Option Tree → Outcome
  | none => ⟨true, none, false⟩
  | some t => rm t

section Conditions

mutual

def everywhere (p : Tree → Bool) : Tree → Bool
  | .file type calls => p (.file type calls)
  | .dir calls opendir entries => p (.dir calls opendir entries) && everywhereIn p entries

def everywhereIn (p : Tree → Bool) : List Tree → Bool
  | [] => true
  | t :: entries => everywhere p t && everywhereIn p entries

end

/-- Every `unlink` and every `rmdir` of an empty directory succeeds. -/
def permitted : Tree → Bool := everywhere fun t => t.calls.remove

/-- No socket or block device, and every directory can be opened. -/
def ordinary : Tree → Bool :=
  everywhere fun t => t.calls.lstat &&
    match t with
    | .file type _ => type ≠ .socket && type ≠ .block
    | .dir _ opendir _ => opendir

/-- A tree whose removal is permitted is removed, and the result says whether it is gone. -/
structure Correct (path : Option Tree) : Prop where
  removes : (∀ t ∈ path, permitted t = true) → rmPath path = ⟨true, none, false⟩
  exact : (rmPath path).ret = true ↔ (rmPath path).left = none

end Conditions

section Trees

variable {p : Tree → Bool} {t : Tree} {type : FileType} {calls : Calls} {opendir ret : Bool}
  {entries : List Tree}

/-- A directory is reached from its entries. -/
theorem tree_induction {P : Tree → Prop} (file : ∀ type calls, P (.file type calls))
    (dir : ∀ calls opendir entries, (∀ t ∈ entries, P t) → P (.dir calls opendir entries)) :
    ∀ t, P t := by
  intro t
  refine @Tree.rec P (fun entries => ∀ t ∈ entries, P t) file dir ?_ ?_ t
  · intro t ht
    cases ht
  · intro t entries ht hentries
    rw [List.forall_mem_cons]
    exact ⟨ht, hentries⟩

theorem everywhereIn_iff :
    everywhereIn p entries = true ↔ ∀ t ∈ entries, everywhere p t = true := by
  induction entries with
  | nil => simp [everywhereIn]
  | cons t entries ih => rw [everywhereIn, Bool.and_eq_true, ih, List.forall_mem_cons]

theorem permitted_dir : permitted (.dir calls opendir entries) = true ↔
    calls.remove = true ∧ ∀ t ∈ entries, permitted t = true := by
  rw [permitted, everywhere, Bool.and_eq_true, everywhereIn_iff]
  rfl

theorem ordinary_dir : ordinary (.dir calls opendir entries) = true ↔
    (calls.lstat = true ∧ opendir = true) ∧ ∀ t ∈ entries, ordinary t = true := by
  rw [ordinary, everywhere, Bool.and_eq_true, everywhereIn_iff, Bool.and_eq_true]
  rfl

theorem rm_file : rm (.file type calls) =
    if !calls.lstat then ⟨true, some (.file type calls), false⟩
    else if type.mode &&& sIfdir = 0 then unlink (.file type calls)
    else ⟨false, some (.file type calls), type = .link⟩ := rfl

theorem rm_dir : rm (.dir calls opendir entries) =
    if !calls.lstat then ⟨true, some (.dir calls opendir entries), false⟩
    else if sIfdir &&& sIfdir = 0 then unlink (.dir calls opendir entries)
    else if !opendir then ⟨false, some (.dir calls opendir entries), false⟩
    else if (rmEntries true entries).left.isEmpty && calls.remove then
      ⟨(rmEntries true entries).ret, none, (rmEntries true entries).followed⟩
    else ⟨false, some (.dir calls opendir (rmEntries true entries).left),
      (rmEntries true entries).followed⟩ := rfl

theorem rmEntries_cons : rmEntries ret (t :: entries) =
    ⟨(rmEntries (rm t).ret entries).ret, (rm t).left.toList ++ (rmEntries (rm t).ret entries).left,
      (rm t).followed || (rmEntries (rm t).ret entries).followed⟩ := rfl

/-- The bit of a directory is in the modes of sockets and block devices. -/
theorem mode_and_sIfdir (type : FileType) :
    type.mode &&& sIfdir = 0 ↔ type ≠ .socket ∧ type ≠ .block := by
  cases type <;> decide

theorem rm_hidden (h : t.calls.lstat = false) : rm t = ⟨true, some t, false⟩ := by
  cases t with
  | file type calls =>
    change calls.lstat = false at h
    rw [rm_file, h]
    rfl
  | dir calls opendir entries =>
    change calls.lstat = false at h
    rw [rm_dir, h]
    rfl

theorem rmEntries_left :
    (rmEntries ret entries).left = [] ↔ ∀ t ∈ entries, (rm t).left = none := by
  induction entries generalizing ret with
  | nil => simp [rmEntries]
  | cons t entries ih =>
    rw [rmEntries_cons, List.append_eq_nil_iff, ih, List.forall_mem_cons, Option.toList_eq_nil_iff]

theorem rmEntries_ret (hret : ret = true) (h : ∀ t ∈ entries, (rm t).ret = true) :
    (rmEntries ret entries).ret = true := by
  induction entries generalizing ret with
  | nil => exact hret
  | cons t entries ih =>
    rw [List.forall_mem_cons] at h
    exact ih h.1 h.2

theorem rmEntries_followed (h : ∀ t ∈ entries, (rm t).followed = false) :
    (rmEntries ret entries).followed = false := by
  induction entries generalizing ret with
  | nil => rfl
  | cons t entries ih =>
    rw [List.forall_mem_cons] at h
    rw [rmEntries_cons, ih h.2, h.1]
    rfl

end Trees

section Results

variable {t : Tree} {type : FileType} {calls : Calls} {opendir : Bool} {entries : List Tree}

/-- A file is not seen, or it is unlinked, or it stays. -/
theorem rm_file_cases (type : FileType) (calls : Calls) :
    calls.lstat = false ∧ rm (.file type calls) = ⟨true, some (.file type calls), false⟩ ∨
    (calls.lstat = true ∧ type.mode &&& sIfdir = 0 ∧ calls.remove = true) ∧
      rm (.file type calls) = ⟨true, none, false⟩ ∨
    (calls.lstat = true ∧ ¬ (type.mode &&& sIfdir = 0 ∧ calls.remove = true)) ∧
      rm (.file type calls) = ⟨false, some (.file type calls), false⟩ := by
  cases hlstat : calls.lstat with
  | false => exact Or.inl ⟨rfl, rm_hidden hlstat⟩
  | true =>
    rw [rm_file, unlink, hlstat]
    by_cases hmode : type.mode &&& sIfdir = 0
    · cases hremove : calls.remove <;> simp [hmode]
    · have hlink : type ≠ .link := by
        rintro rfl
        exact hmode (by decide)
      simp [hmode, hlink]

/-- A directory is not seen, or it goes after its entries, or it stays. -/
theorem rm_dir_cases (calls : Calls) (opendir : Bool) (entries : List Tree) :
    calls.lstat = false ∧
      rm (.dir calls opendir entries) = ⟨true, some (.dir calls opendir entries), false⟩ ∨
    (calls.lstat = true ∧ opendir = true ∧ calls.remove = true ∧
        ∀ t ∈ entries, (rm t).left = none) ∧
      rm (.dir calls opendir entries) =
        ⟨(rmEntries true entries).ret, none, (rmEntries true entries).followed⟩ ∨
    (calls.lstat = true ∧ ¬ (opendir = true ∧ calls.remove = true ∧
        ∀ t ∈ entries, (rm t).left = none)) ∧
      ∃ left, rm (.dir calls opendir entries) = ⟨false, some left, false⟩ ∨
        rm (.dir calls opendir entries) =
          ⟨false, some left, (rmEntries true entries).followed⟩ := by
  cases hlstat : calls.lstat with
  | false => exact Or.inl ⟨rfl, rm_hidden hlstat⟩
  | true =>
    have hdir : ¬ sIfdir &&& sIfdir = 0 := by decide
    rw [rm_dir, hlstat, if_neg (by decide), if_neg hdir, ← @rmEntries_left true]
    cases opendir with
    | false => exact Or.inr (Or.inr ⟨⟨rfl, by simp⟩, _, Or.inl rfl⟩)
    | true =>
      rw [if_neg (by decide)]
      by_cases hgone : (rmEntries true entries).left = [] ∧ calls.remove = true
      · rw [if_pos (by simp [hgone])]
        exact Or.inr (Or.inl ⟨⟨rfl, rfl, hgone.2, hgone.1⟩, rfl⟩)
      · rw [if_neg (by simpa using hgone)]
        exact Or.inr (Or.inr ⟨⟨rfl, fun h => hgone ⟨h.2.2, h.2.1⟩⟩, _, Or.inr rfl⟩)

theorem ordinary_file : ordinary (.file type calls) = true ↔
    calls.lstat = true ∧ type.mode &&& sIfdir = 0 := by
  rw [mode_and_sIfdir]
  simp [ordinary, everywhere, Tree.calls]

theorem file_left : (rm (.file type calls)).left = none ↔
    ordinary (.file type calls) = true ∧ permitted (.file type calls) = true := by
  have hpermitted : permitted (.file type calls) = calls.remove := rfl
  rw [ordinary_file, hpermitted]
  rcases rm_file_cases type calls with ⟨hlstat, hrm⟩ | ⟨⟨hlstat, hmode, hremove⟩, hrm⟩ |
    ⟨⟨hlstat, hstays⟩, hrm⟩
  · simp [hrm, hlstat]
  · simp [hrm, hlstat, hmode, hremove]
  · simpa [hrm, hlstat] using hstays

theorem dir_left : (rm (.dir calls opendir entries)).left = none ↔
    ((calls.lstat = true ∧ opendir = true) ∧ calls.remove = true) ∧
      ∀ t ∈ entries, (rm t).left = none := by
  rcases rm_dir_cases calls opendir entries with ⟨hlstat, hrm⟩ |
    ⟨⟨hlstat, hopendir, hremove, hentries⟩, hrm⟩ | ⟨⟨hlstat, hstays⟩, left, hrm⟩
  · simp [hrm, hlstat]
  · rw [hrm]
    exact iff_of_true rfl ⟨⟨⟨hlstat, hopendir⟩, hremove⟩, hentries⟩
  · apply iff_of_false
    · rcases hrm with hrm | hrm <;> simp [hrm]
    · rintro ⟨⟨⟨-, hopendir⟩, hremove⟩, hentries⟩
      exact hstays ⟨hopendir, hremove, hentries⟩

/-- What is removed is exactly what is ordinary and permitted. -/
theorem rm_left_iff (t : Tree) :
    (rm t).left = none ↔ ordinary t = true ∧ permitted t = true := by
  induction t using tree_induction with
  | file type calls => exact file_left
  | dir calls opendir entries ih =>
    have hentries : (∀ t ∈ entries, (rm t).left = none) ↔
        (∀ t ∈ entries, ordinary t = true) ∧ ∀ t ∈ entries, permitted t = true := by
      constructor
      · intro h
        exact ⟨fun t ht => ((ih t ht).1 (h t ht)).1, fun t ht => ((ih t ht).1 (h t ht)).2⟩
      · rintro ⟨hordinary, hpermitted⟩ t ht
        exact (ih t ht).2 ⟨hordinary t ht, hpermitted t ht⟩
    rw [dir_left, hentries, ordinary_dir, permitted_dir]
    exact and_and_and_comm

/-- However often `ret` is overwritten, it is true if everything is gone. -/
theorem rm_ret_of_gone (h : (rm t).left = none) : (rm t).ret = true := by
  induction t using tree_induction with
  | file type calls =>
    rcases rm_file_cases type calls with ⟨-, hrm⟩ | ⟨-, hrm⟩ | ⟨-, hrm⟩
    · rw [hrm]
    · rw [hrm]
    · rw [hrm] at h
      cases h
  | dir calls opendir entries ih =>
    rcases rm_dir_cases calls opendir entries with ⟨-, hrm⟩ | ⟨⟨-, -, -, hentries⟩, hrm⟩ |
      ⟨-, left, hrm | hrm⟩
    · rw [hrm]
    · rw [hrm]
      exact rmEntries_ret rfl fun t ht => ih t ht (hentries t ht)
    · rw [hrm] at h
      cases h
    · rw [hrm] at h
      cases h

/-- With `ret` what was seen is gone. -/
theorem rm_gone_of_ret (hlstat : t.calls.lstat = true) (h : (rm t).ret = true) :
    (rm t).left = none := by
  cases t with
  | file type calls =>
    rcases rm_file_cases type calls with ⟨hhidden, -⟩ | ⟨-, hrm⟩ | ⟨-, hrm⟩
    · exact absurd (hlstat.symm.trans hhidden) (by decide)
    · rw [hrm]
    · rw [hrm] at h
      cases h
  | dir calls opendir entries =>
    rcases rm_dir_cases calls opendir entries with ⟨hhidden, -⟩ | ⟨-, hrm⟩ | ⟨-, left, hrm | hrm⟩
    · exact absurd (hlstat.symm.trans hhidden) (by decide)
    · rw [hrm]
    · rw [hrm] at h
      cases h
    · rw [hrm] at h
      cases h

/-- No link is ever opened. -/
theorem rm_followed (t : Tree) : (rm t).followed = false := by
  induction t using tree_induction with
  | file type calls =>
    rcases rm_file_cases type calls with ⟨-, hrm⟩ | ⟨-, hrm⟩ | ⟨-, hrm⟩ <;> rw [hrm]
  | dir calls opendir entries ih =>
    have hfollowed := @rmEntries_followed true entries ih
    rcases rm_dir_cases calls opendir entries with ⟨-, hrm⟩ | ⟨-, hrm⟩ | ⟨-, left, hrm | hrm⟩
    · rw [hrm]
    · rw [hrm, hfollowed]
    · rw [hrm]
    · rw [hrm, hfollowed]

theorem rm_ret_iff (t : Tree) :
    ((rm t).ret = true ↔ (rm t).left = none) ↔ t.calls.lstat = true := by
  constructor
  · intro h
    cases hlstat : t.calls.lstat with
    | true => rfl
    | false =>
      rw [rm_hidden hlstat] at h
      exact absurd (h.1 rfl) (Option.some_ne_none t)
  · intro hlstat
    exact ⟨rm_gone_of_ret hlstat, rm_ret_of_gone⟩

theorem rm_removes_iff (t : Tree) :
    rm t = ⟨true, none, false⟩ ↔ ordinary t = true ∧ permitted t = true := by
  rw [← rm_left_iff]
  constructor
  · intro h
    rw [h]
  · intro h
    have hret := rm_ret_of_gone h
    have hfollowed := rm_followed t
    cases hrm : rm t with
    | mk ret left followed =>
      rw [hrm] at h hret hfollowed
      rw [← h, ← hret, ← hfollowed]

/-- The removal is right if the path itself is seen and, where it is permitted, there is nothing
but files that are unlinked and directories that can be opened. -/
theorem rm_correct_iff (path : Option Tree) : Correct path ↔
    ∀ t ∈ path, t.calls.lstat = true ∧ (permitted t = true → ordinary t = true) := by
  cases path with
  | none => exact iff_of_true ⟨fun _ => rfl, by decide⟩ nofun
  | some t =>
    simp only [Option.mem_some_iff, forall_eq']
    rw [← rm_ret_iff]
    constructor
    · rintro ⟨hremoves, hexact⟩
      refine ⟨hexact, fun hpermitted => ?_⟩
      exact ((rm_removes_iff t).1 (hremoves (by simpa using hpermitted))).1
    · rintro ⟨hexact, hordinary⟩
      refine ⟨fun hpermitted => ?_, hexact⟩
      have hpermitted : permitted t = true := by simpa using hpermitted
      exact (rm_removes_iff t).2 ⟨hordinary hpermitted, hpermitted⟩

/-- A socket stays where it is. -/
theorem socket_stays : ¬ ∀ path, Correct path := by
  intro h
  have hremoves := (h (some (.file .socket ⟨true, true⟩))).removes (by decide)
  exact absurd (congrArg Outcome.ret hremoves) (by decide)

end Results

end FileRemoval
