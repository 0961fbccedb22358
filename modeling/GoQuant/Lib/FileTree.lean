import Mathlib.Data.List.Basic
import Mathlib.Data.List.Infix
import Mathlib.Data.List.TakeWhile
import Mathlib.Tactic.Common

/-!
# A tree of files

Directories and files under a root, each at the list of the names that lead to it. A path is a
string as a system call takes it: it ends at the first null character and is resolved name by
name, from the root if it begins with a slash and from some directory otherwise.

## Main definitions

* `components`, `FileTree.walk`, `FileTree.locate` — from a path to a location.
* `FileTree.write` — open a file for writing, write it and close it.
* `FileTree.createDirectories`, `FileTree.entries` — make a directory, and list one.

## Main results

* `locate_plain` — a name without slashes and null characters is a file of the directory.
* `Holds.write` — a new file is written next to those the directory holds.
* `Plain.write` — the names in a directory never have a slash or a null character, whatever path
  is written to.
-/

/-- The names of a path that a system call sees. -/
def components (path : String) : List String :=
  ((path.toList.takeWhile (· ≠ '\x00')).splitOn '/').map String.ofList

/-- A name that can stand in a directory. -/
def PlainName (name : String) : Prop := '/' ∉ name.toList ∧ '\x00' ∉ name.toList

instance (name : String) : Decidable (PlainName name) := by
  unfold PlainName; infer_instance

/-- Directories and files with their contents, by location. The root always exists. -/
structure FileTree (α : Type*) where
  dirs : List (List String)
  files : List (List String × α)

namespace FileTree

variable {α : Type*} (t : FileTree α)

/-- Nothing but the root. -/
def empty : FileTree α := ⟨[], []⟩

def isDir (loc : List String) : Bool := loc = [] ∨ loc ∈ t.dirs

def isFile (loc : List String) : Bool := t.files.any fun f => f.1 = loc

/-- Follow names through directories. -/
def walk (loc : List String) : List String → Option (List String)
  | [] => some loc
  | name :: names =>
    if t.isDir loc then
      if name = "" ∨ name = "." then walk loc names
      else if name = ".." then walk loc.dropLast names
      else walk (loc ++ [name]) names
    else none

/-- The location of the file that a path names, seen from a directory. -/
def locate (dir : List String) (path : String) : Option (List String) :=
  let names := components path
  let name := names.getLastD ""
  match t.walk (if path.toList.head? = some '/' then [] else dir) names.dropLast with
  | none => none
  | some parent =>
    if t.isDir parent ∧ name ≠ "" ∧ name ≠ "." ∧ name ≠ ".." ∧ t.isDir (parent ++ [name]) = false
    then some (parent ++ [name])
    else none

/-- Write a file from its beginning. What is written to a file that cannot be opened is lost. -/
def write (dir : List String) (path : String) (content : α) : FileTree α :=
  match t.locate dir path with
  | none => t
  | some loc => { t with files := t.files.filter (fun f => f.1 ≠ loc) ++ [(loc, content)] }

/-- Make a directory with all that lead to it, unless one of them is a file. -/
def createDirectories (dir : List String) : Option (FileTree α) :=
  if dir.inits.any t.isFile then none
  else some { t with dirs := t.dirs ++ dir.inits.filter fun loc => loc ∉ t.dirs }

/-- The name of a location in a directory. -/
def nameIn (dir loc : List String) : Option String :=
  if loc.dropLast = dir then loc.getLast? else none

/-- The names in a directory, with the contents of the files. -/
def entries (dir : List String) : List (String × Option α) :=
  t.files.filterMap (fun f => (nameIn dir f.1).map fun name => (name, some f.2)) ++
    t.dirs.filterMap fun loc => (nameIn dir loc).map fun name => (name, none)

/-- A directory that is not there, or has nothing in it. -/
structure Fresh (dir : List String) : Prop where
  files : ∀ f ∈ t.files, ¬ dir <+: f.1
  dirs : ∀ loc ∈ t.dirs, dir <+: loc → loc = dir

/-- A directory with files of these names and contents, and nothing else. -/
structure Holds (dir : List String) (l : List (String × α)) : Prop where
  isDir : t.isDir dir
  files : t.files.filterMap (fun f => (nameIn dir f.1).map fun name => (name, f.2)) = l
  dirs : ∀ loc ∈ t.dirs, nameIn dir loc = none

variable {t} {t' : FileTree α} {dir loc names : List String} {name path : String} {content : α}
  {l : List (String × α)}

/-! ## Names -/

theorem components_plain (h : PlainName name) : components name = [name] := by
  have hall : name.toList.takeWhile (· ≠ '\x00') = name.toList := by
    rw [List.takeWhile_eq_self_iff]
    intro c hc
    simpa using ne_of_mem_of_not_mem hc h.2
  rw [components, hall, List.splitOn_eq_singleton h.1]
  simp

theorem not_mem_of_mem_splitOn {c : Char} {cs part : List Char} (h : part ∈ cs.splitOn c) :
    c ∉ part ∧ ∀ d ∈ part, d ∈ cs := by
  induction cs generalizing part with
  | nil =>
    rw [List.splitOn_nil, List.mem_singleton] at h
    simp [h]
  | cons d cs ih =>
    rw [List.splitOn_cons_eq_if_modifyHead] at h
    split_ifs at h with hd
    · rcases List.mem_cons.mp h with rfl | h
      · simp
      · exact ⟨(ih h).1, fun e he => List.mem_cons_of_mem d ((ih h).2 e he)⟩
    · -- The first part grows by a character that is no separator.
      cases hparts : cs.splitOn c with
      | nil => exact absurd hparts (List.splitOn_ne_nil c cs)
      | cons first parts =>
        rw [hparts, List.modifyHead_cons] at h
        rcases List.mem_cons.mp h with rfl | h
        · obtain ⟨hfirst, hsub⟩ := ih (hparts ▸ List.mem_cons_self)
          grind
        · obtain ⟨hpart, hsub⟩ := ih (hparts ▸ List.mem_cons_of_mem first h)
          exact ⟨hpart, fun e he => List.mem_cons_of_mem d (hsub e he)⟩

theorem plain_of_mem_components (h : name ∈ components path) : PlainName name := by
  obtain ⟨part, hpart, rfl⟩ := List.mem_map.mp h
  obtain ⟨hslash, hsub⟩ := not_mem_of_mem_splitOn hpart
  refine ⟨by simpa using hslash, fun hnull => ?_⟩
  have hmem := hsub _ (by simpa using hnull)
  simpa using List.mem_takeWhile_imp hmem

theorem nameIn_eq_some : nameIn dir loc = some name ↔ loc = dir ++ [name] := by
  unfold nameIn
  constructor
  · intro h
    split_ifs at h with hdir
    rw [← hdir, List.dropLast_append_getLast? _ h]
  · rintro rfl
    simp

theorem nameIn_eq_none : nameIn dir loc = none ↔ ∀ name, loc ≠ dir ++ [name] := by
  rw [Option.eq_none_iff_forall_ne_some]
  exact forall_congr' fun name => not_congr nameIn_eq_some

/-! ## Files of a directory -/

/-- A plain name leads to the file of that name. -/
theorem locate_plain (hdir : t.isDir dir) (hplain : PlainName name) (hempty : name ≠ "")
    (hself : name ≠ ".") (hparent : name ≠ "..") (hfile : t.isDir (dir ++ [name]) = false) :
    t.locate dir name = some (dir ++ [name]) := by
  have hrelative : name.toList.head? ≠ some '/' := fun h => hplain.1 (List.mem_of_head? h)
  unfold locate
  rw [components_plain hplain, if_neg hrelative]
  simp [walk, hdir, hempty, hself, hparent, hfile]

/-- The last name of a location comes from the path. -/
theorem locate_eq_some (h : t.locate dir path = some loc) :
    ∃ parent name, loc = parent ++ [name] ∧ PlainName name := by
  unfold locate at h
  dsimp only at h
  split at h
  · cases h
  · split_ifs at h with hname
    obtain rfl := Option.some.inj h
    exact ⟨_, _, rfl, plain_of_mem_components
      (List.mem_of_ne_of_mem hname.2.1 List.getLastD_mem_cons)⟩

theorem Holds.entries (h : t.Holds dir l) : t.entries dir = l.map fun p => (p.1, some p.2) := by
  have hdirs : t.dirs.filterMap (fun loc => (nameIn dir loc).map fun name =>
      (name, (none : Option α))) = [] := by
    rw [List.filterMap_eq_nil_iff]
    intro loc hloc
    rw [h.dirs loc hloc]
    rfl
  rw [FileTree.entries, hdirs, List.append_nil, ← h.files, List.map_filterMap]
  congr 1
  funext f
  cases nameIn dir f.1 <;> rfl

theorem fresh_empty (dir : List String) : (empty : FileTree α).Fresh dir :=
  ⟨fun _ hf => absurd hf List.not_mem_nil, fun _ hloc => absurd hloc List.not_mem_nil⟩

/-- A directory with nothing in it yet. -/
theorem Fresh.holds (h : t.Fresh dir) (hdir : t.isDir dir) : t.Holds dir [] where
  isDir := hdir
  files := by
    rw [List.filterMap_eq_nil_iff]
    intro f hf
    rw [Option.map_eq_none_iff, nameIn_eq_none]
    rintro name heq
    exact h.files f hf (heq ▸ List.prefix_append dir [name])
  dirs loc hloc := by
    rw [nameIn_eq_none]
    rintro name rfl
    have heq := h.dirs _ hloc (List.prefix_append dir [name])
    simp at heq

/-- Making a directory puts nothing into it. -/
theorem Fresh.createDirectories (h : t.Fresh dir) (ht : t.createDirectories dir = some t') :
    t'.Holds dir [] := by
  unfold FileTree.createDirectories at ht
  split_ifs at ht
  obtain rfl := Option.some.inj ht
  refine Fresh.holds ⟨h.files, fun loc hloc hprefix => ?_⟩ ?_
  · rcases List.mem_append.mp hloc with hloc | hloc
    · exact h.dirs loc hloc hprefix
    · rw [List.mem_filter, List.mem_inits] at hloc
      exact hloc.1.eq_of_length_le hprefix.length_le
  · by_cases hmem : dir ∈ t.dirs <;> simp [FileTree.isDir, hmem]

/-- A new file is written next to the others. -/
theorem Holds.write (h : t.Holds dir l) (hplain : PlainName name) (hempty : name ≠ "")
    (hself : name ≠ ".") (hparent : name ≠ "..") (hnew : ∀ p ∈ l, p.1 ≠ name) (content : α) :
    (t.write dir name content).Holds dir (l ++ [(name, content)]) := by
  have hfile : t.isDir (dir ++ [name]) = false := by
    have hnone : dir ++ [name] ∉ t.dirs := fun hmem => nameIn_eq_none.mp (h.dirs _ hmem) name rfl
    simp [FileTree.isDir, hnone]
  have hkeep : t.files.filter (fun f => f.1 ≠ dir ++ [name]) = t.files := by
    rw [List.filter_eq_self]
    intro f hf
    have hne : f.1 ≠ dir ++ [name] := by
      intro heq
      refine hnew (name, f.2) ?_ rfl
      rw [← h.files, List.mem_filterMap]
      exact ⟨f, hf, by rw [nameIn_eq_some.mpr heq]; rfl⟩
    simpa using hne
  have hwrite : t.write dir name content =
      { t with files := t.files ++ [(dir ++ [name], content)] } := by
    rw [FileTree.write, locate_plain h.isDir hplain hempty hself hparent hfile]
    dsimp only
    rw [hkeep]
  rw [hwrite]
  refine ⟨h.isDir, ?_, h.dirs⟩
  rw [List.filterMap_append, h.files]
  simp [nameIn]

/-- The names in a directory are plain ones. -/
def Plain (t : FileTree α) (dir : List String) : Prop := ∀ p ∈ t.entries dir, PlainName p.1

theorem Holds.plain (h : t.Holds dir []) : t.Plain dir := by
  rw [Plain, h.entries]
  simp

/-- Whatever path a file is written to. -/
theorem Plain.write {dir' : List String} (h : t.Plain dir) :
    (t.write dir' path content).Plain dir := by
  unfold FileTree.write
  split
  · exact h
  · rename_i loc hloc
    obtain ⟨parent, name, rfl, hplain⟩ := locate_eq_some hloc
    intro p hp
    rw [FileTree.entries, List.mem_append, List.mem_filterMap, List.mem_filterMap] at hp
    rcases hp with ⟨f, hf, hp⟩ | ⟨d, hd, hp⟩
    · obtain ⟨n, hn, rfl⟩ := Option.map_eq_some_iff.mp hp
      rcases List.mem_append.mp hf with hf | hf
      · refine h (n, some f.2) (List.mem_append_left _ (List.mem_filterMap.mpr ?_))
        exact ⟨f, List.mem_of_mem_filter hf, by rw [hn]; rfl⟩
      · rw [List.mem_singleton.mp hf, nameIn_eq_some] at hn
        have hname : n = name := by simpa using congrArg List.getLast? hn.symm
        rwa [hname]
    · obtain ⟨n, hn, rfl⟩ := Option.map_eq_some_iff.mp hp
      refine h (n, none) (List.mem_append_right _ (List.mem_filterMap.mpr ?_))
      exact ⟨d, hd, by rw [hn]; rfl⟩

end FileTree
