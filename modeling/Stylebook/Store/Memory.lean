import Stylebook.Store.Basic
import Stylebook.Path.Map

/-!
# Files in memory

The simplest file store is a map from paths to texts. It knows no
directories: a file may be written anywhere. Each action can be denied for
chosen paths, and a denied action changes nothing.
-/

namespace Stylebook

/-- **Files in memory**, with the paths for which an action is denied. -/
structure Memory where
  files : PathMap String := []
  deniedReads : PathSet := []
  deniedWrites : PathSet := []
  deniedRemoves : PathSet := []
  deriving DecidableEq, Repr

namespace Memory

/-- The files of a list, written one after the other. -/
def ofList (files : List (Path × String)) : Memory :=
  ⟨files.foldl (fun m e => PathMap.set m e.1 e.2) [], [], [], []⟩

/-- Writes a file, denied or not. -/
def put (m : Memory) (p : Path) (text : String) : Memory :=
  { m with files := PathMap.set m.files p text }

/-- Removes a file, denied or not. -/
def delete (m : Memory) (p : Path) : Memory := { m with files := PathMap.erase m.files p }

/-- The length of all texts together. -/
def totalLength (m : Memory) : Nat := (m.files.map fun e => e.2.length).foldr (· + ·) 0

instance : FileStore Memory where
  read m p :=
    if p.isIn m.deniedReads then .error "read denied"
    else
      match PathMap.get? m.files p with
      | some text => .ok text
      | none => .error "File not found"
  write m p text :=
    if p.isIn m.deniedWrites then (.error "write denied", m) else (.ok (), m.put p text)
  remove m p :=
    if p.isIn m.deniedRemoves then (.error "remove denied", m) else (.ok (), m.delete p)
  holds m p := (PathMap.get? m.files p).isSome
  isDirectory _ _ := false
  extent m := (m.totalLength + 1) * (m.files.length + 1) + 1

end Memory

end Stylebook
