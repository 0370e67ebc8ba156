import Stylebook.Store.Tree

/-!
# Edits by others

Those who work on a project save files, make links and directories, and
remove what is there. An editor saves into the file that has the name, also
through links, and also when the file at the end of the links is not there
yet. Removing a directory removes everything in it, the inner names first.

What an edit has done to the names of a tree is a list of *incidents*, found
by comparing the tree before and after it. An incident is at a location: it
belongs to the name itself and not to the path by which the name was
reached.
-/

namespace Stylebook

namespace Entry

mutual
/-- The locations of an entry and of all below it, the inner ones first. -/
def locationsAt (location : List String) : Entry → List (List String)
  | .directory es => locationsIn location es ++ [location]
  | _ => [location]

/-- The locations of the entries of a directory at a location, and of all
below them. -/
def locationsIn (location : List String) : List (String × Entry) → List (List String)
  | [] => []
  | (n, e) :: es => locationsAt (location ++ [n]) e ++ locationsIn location es
end

/-- Whether nobody can tell two entries under one name apart by looking at
the name. What is in a directory is a matter of other names. -/
def agrees : Entry → Entry → Bool
  | .file c, .file d => c == d
  | .link s, .link t => s == t
  | .directory _, .directory _ => true
  | _, _ => false

end Entry

/-- **What has happened to the name at a location.** -/
inductive Incident where
  | created (location : List String)
  | modified (location : List String)
  | removed (location : List String)
  deriving DecidableEq, Repr

/-- **What somebody does at a path.** -/
inductive Edit where
  /-- Saves a file, after making the directories above it. -/
  | save (content : ByteArray)
  /-- Makes a link where nothing is, after making the directories above it. -/
  | link (target : String)
  /-- Makes a directory and those above it that are missing. -/
  | makeDirectory
  /-- Removes what is there, a directory with everything in it. -/
  | remove

namespace Tree

/-- What has happened to the name at a location between two trees, unless it
was removed. -/
def incidentAt? (before after : Tree) (location : List String) : Option Incident :=
  match before.top.at? location, after.top.at? location with
  | none, some _ => some (.created location)
  | some (.file c), some (.file d) => if c == d then none else some (.modified location)
  | some old, some new => if old.agrees new then none else some (.created location)
  | _, none => none

/-- **What has happened to the names of a tree until it was another tree.**
Inner names are removed first and created last. -/
def incidents (before after : Tree) : List Incident :=
  let gone := (before.top.locationsAt []).filter fun l => (after.top.at? l).isNone
  let there := (after.top.locationsAt []).mergeSort fun l m => l.length ≤ m.length
  gone.map .removed ++ there.filterMap (before.incidentAt? after)

/-- The spot of the file that is saved at a path, found through at most
`links` names. -/
def fileSpot (t : Tree) : (links : Nat) → Path → Except SystemError Spot
  | 0, _ => .error .tooManyLinks
  | links + 1, p => do
    match ← t.spot p with
    | none => throw .isADirectory
    | some s =>
      match t.top.at? s.location with
      | some (.link target) => fileSpot t links ((pathOf s.directory).join ⟨target⟩)
      | _ => return s

/-- Makes the directories above the name at the end of a path. -/
def makeParents (t : Tree) (p : Path) : Except SystemError Tree :=
  match t.makeDirectories (p.parent?.getD ⟨"."⟩) with
  | (.ok (), t) => .ok t
  | (.error e, _) => .error e

/-- **Carries out an edit**, and tells what has happened. A file that is
saved counts as modified also when it has the same content as before. -/
def edit (t : Tree) (p : Path) (e : Edit) : Except SystemError (Tree × List Incident) := do
  match e with
  | .save content =>
    let made ← t.makeParents p
    let s ← made.fileSpot (linkLimit + 1) p
    if s.slashed || (made.top.at? s.location).any Entry.isDirectory then throw .isADirectory
    let saved := made.putAt s (some (.file content))
    let incidents := t.incidents saved
    let silent := (made.top.at? s.location).isSome && incidents.isEmpty
    return (saved, if silent then [.modified s.location] else incidents)
  | .link target =>
    let made ← t.makeParents p
    match ← made.spot p with
    | none => throw .alreadyExists
    | some s =>
      if (made.top.at? s.location).isSome then throw .alreadyExists
      let linked := made.putAt s (some (.link target))
      return (linked, t.incidents linked)
  | .makeDirectory =>
    match t.makeDirectories p with
    | (.ok (), made) => return (made, t.incidents made)
    | (.error e, _) => throw e
  | .remove =>
    match ← t.spot p with
    | none => throw .busy
    | some s =>
      if (t.top.at? s.location).isNone then throw .notFound
      let removed := t.putAt s none
      return (removed, t.incidents removed)

end Tree

end Stylebook
