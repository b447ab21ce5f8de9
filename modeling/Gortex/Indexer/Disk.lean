import Mathlib.Data.List.Lex
import Mathlib.Data.Char
import Mathlib.Data.List.Sort
import Gortex.Lib.GoMap
import Gortex.Lib.GoPath

/-!
# The disk

What the indexer sees of the filesystem at one moment: the files by absolute path,
each with its bytes and its modification time, and the working directory.
-/

namespace Gortex

open GoPath

/-- A file. The text of an error is there if it can be seen but not read. -/
structure DiskFile where
  content : ByteArray
  modTime : ℤ
  readErr : Option String := none

/-- The files by path, the paths being absolute and clean, and the directories. -/
structure Disk where
  files : GoMap String DiskFile
  cwd : String
  dirs : List String := []
  isClean : ∀ p ∈ files.keys, IsClean p ∧ isAbs p = true

namespace Disk

/-- A disk without files is clean. -/
theorem isClean_empty : ∀ p ∈ (∅ : GoMap String DiskFile).keys, IsClean p ∧ isAbs p = true :=
  fun _ h => absurd h List.not_mem_nil

variable (d : Disk)

/-- `os.Stat` of a file. -/
def stat (path : String) : Option DiskFile := d.files.lookup (abs d.cwd path)

/-- `os.Stat` of anything: whether it is a directory. -/
def isDir (path : String) : Option Bool :=
  if abs d.cwd path ∈ d.dirs then some true else (d.stat path).map fun _ => false

/-- `os.ReadFile`. -/
def readFile (path : String) : Except String ByteArray :=
  match d.stat path with
  | none => .error ("open " ++ path ++ ": no such file or directory")
  | some f =>
    match f.readErr with
    | some err => .error ("open " ++ path ++ ": " ++ err)
    | none => .ok f.content

theorem abs_eq {path : String} (hc : IsClean path) (ha : isAbs path = true) :
    abs d.cwd path = path := by
  rw [GoPath.abs, if_pos ha, GoPath.clean, hc.clean]

theorem stat_eq {path : String} (hc : IsClean path) (ha : isAbs path = true) :
    d.stat path = d.files.lookup path := by
  rw [stat, d.abs_eq hc ha]

/-- A file that cannot be seen cannot be read. -/
theorem readFile_of_stat_eq_none {path : String} (h : d.stat path = none) :
    d.readFile path = .error ("open " ++ path ++ ": no such file or directory") := by
  rw [readFile, h]

theorem readFile_congr {d' : Disk} {path : String} (h : d'.stat path = d.stat path) :
    d'.readFile path = d.readFile path := by
  rw [readFile, readFile, h]

/-! ### Changes -/

/-- The disk after a file is written. -/
def write (path : String) (hp : IsClean path ∧ isAbs path = true) (f : DiskFile) : Disk where
  files := d.files.insert path f
  cwd := d.cwd
  dirs := d.dirs
  isClean := fun p hm => by
    rw [AList.keys_insert, List.mem_cons] at hm
    rcases hm with rfl | hm
    · exact hp
    · exact d.isClean p (List.mem_of_mem_erase hm)

/-- The disk after a file is removed. -/
def remove (path : String) : Disk where
  files := d.files.erase path
  cwd := d.cwd
  dirs := d.dirs
  isClean := fun p hm => by
    rw [AList.keys_erase] at hm
    exact d.isClean p (List.mem_of_mem_erase hm)

theorem stat_write_of_ne {path p : String} (hp : IsClean path ∧ isAbs path = true) (f : DiskFile)
    (hne : abs d.cwd p ≠ path) : (d.write path hp f).stat p = d.stat p := by
  rw [stat, stat, write, GoMap.lookup_insert, if_neg hne]

theorem stat_remove_of_ne {path p : String} (hne : abs d.cwd p ≠ path) :
    (d.remove path).stat p = d.stat p := by
  rw [stat, stat, remove, GoMap.lookup_erase, if_neg hne]

/-! ### Walks -/

/-- The order of two paths in a walk: component by component. -/
def walkLe (p q : String) : Bool := decide ((parse p).comps ≤ (parse q).comps)

/-- `filepath.WalkDir`: the files below a directory, in lexical order. -/
def walkDir (root : String) : List String :=
  (d.files.keys.filter fun p => Under root p).insertionSort fun p q => walkLe p q

theorem mem_walkDir {root p : String} : p ∈ d.walkDir root ↔ p ∈ d.files.keys ∧ Under root p := by
  rw [walkDir, (List.perm_insertionSort _ _).mem_iff, List.mem_filter, decide_eq_true_iff]

theorem nodup_walkDir (root : String) : (d.walkDir root).Nodup :=
  (List.perm_insertionSort _ _).nodup_iff.mpr (d.files.keys_nodup.filter _)

end Disk

end Gortex
