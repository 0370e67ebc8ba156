import Stylebook.Store.Basic

/-!
# Directory trees

A `Tree` stands for the files of a computer at one moment: directories,
regular files and symbolic links, and the directory that relative paths
start from. Every action follows the rules of the system for paths. A piece
of a path goes one level down, two points go one level up, and a link is
replaced by its target, at most `linkLimit` times on the way. What goes
wrong is told in the words of the system.

A *location* is the list of names from the root down to an entry, with no
links and no points left in it. Actions that make, replace or remove a name
do not follow a link at the end of their path: they find the directory of
the name first, its `Spot`.
-/

namespace Stylebook

/-- **What stands under a name in a directory.** -/
inductive Entry where
  | file (content : ByteArray)
  | link (target : String)
  | directory (entries : List (String × Entry))

instance : Inhabited Entry := ⟨.directory []⟩

namespace Entry

/-- Whether an entry is a directory. -/
def isDirectory : Entry → Bool
  | .directory _ => true
  | _ => false

/-- Whether an entry is a regular file. -/
def isFile : Entry → Bool
  | .file _ => true
  | _ => false

/-- The entry at a location below an entry. -/
def at? : Entry → List String → Option Entry
  | e, [] => some e
  | .directory es, n :: ns => (es.lookup n).bind fun e => at? e ns
  | _, _ :: _ => none

/-- Puts an entry under a name, or takes the name away. -/
def putName (es : List (String × Entry)) (n : String) : Option Entry → List (String × Entry)
  | none => es.filter fun f => f.1 ≠ n
  | some e => if (es.lookup n).isSome then es.map fun f => if f.1 = n then (n, e) else f
    else es ++ [(n, e)]

/-- **The entry with another entry, or none, at a location** whose directory
is there. -/
def put (new : Option Entry) : List String → Entry → Entry
  | [n], .directory es => .directory (putName es n new)
  | n :: ns, .directory es =>
    match es.lookup n with
    | some e => .directory (putName es n (some (put new ns e)))
    | none => .directory es
  | _, e => e

mutual
/-- **The regular files of an entry** at a location, with their locations. -/
def filesAt (location : List String) : Entry → List (List String × ByteArray)
  | .file content => [(location, content)]
  | .link _ => []
  | .directory es => filesIn location es

/-- The regular files of the entries of a directory at a location. -/
def filesIn (location : List String) :
    List (String × Entry) → List (List String × ByteArray)
  | [] => []
  | (n, e) :: es => filesAt (location ++ [n]) e ++ filesIn location es
end

end Entry

/-- **What the system complains about.** -/
inductive SystemError where
  | notFound
  | alreadyExists
  | notADirectory
  | isADirectory
  | tooManyLinks
  /-- A name, or the path as a whole, is longer than the system takes. -/
  | nameTooLong
  /-- The path holds the character that ends texts in the system. -/
  | nulInName
  /-- The name that is to be replaced is no name, but points or the root. -/
  | busy
  /-- The content of a file is no text. -/
  | notText
  deriving DecidableEq, Repr

/-- **The words of the system.** -/
def SystemError.message : SystemError → String
  | .notFound => "No such file or directory (os error 2)"
  | .alreadyExists => "File exists (os error 17)"
  | .notADirectory => "Not a directory (os error 20)"
  | .isADirectory => "Is a directory (os error 21)"
  | .tooManyLinks => "Too many levels of symbolic links (os error 40)"
  | .nameTooLong => "File name too long (os error 36)"
  | .nulInName => "file name contained an unexpected NUL byte"
  | .busy => "Device or resource busy (os error 16)"
  | .notText => "stream did not contain valid UTF-8"

/-- **The files of a computer** at one moment. -/
structure Tree where
  /-- The directory at the top. -/
  top : Entry := .directory []
  /-- The location of the directory that relative paths start from. -/
  current : List String := []
  deriving Inhabited

/-- **The place of a name**: the location of its directory, and the name. -/
structure Spot where
  directory : List String
  name : String
  /-- Whether slashes follow the name, so that only a directory can be
  meant. -/
  slashed : Bool
  deriving DecidableEq, Repr

namespace Spot

/-- The location of the name itself. -/
def location (s : Spot) : List String := s.directory ++ [s.name]

end Spot

namespace Tree

/-- The number of links that may be followed on the way to one entry. -/
def linkLimit : Nat := 40

/-- The greatest length of a name, in bytes. -/
def nameLimit : Nat := 255

/-- The greatest length of a path, in bytes. -/
def pathLimit : Nat := 4095

/-- Refuses a text that is no path to the system. -/
def checkText (p : Path) : Except SystemError Unit :=
  if p.text.contains '\x00' then .error .nulInName
  else if p.text.isEmpty then .error .notFound
  else .ok ()

/-- **Refuses a path that the system does not even look at.** -/
def checkPath (p : Path) : Except SystemError Unit := do
  checkText p
  if pathLimit < p.text.utf8ByteSize then throw .nameTooLong

/-- Refuses a name that no directory can hold. -/
def checkName (name : String) : Except SystemError Unit :=
  if nameLimit < name.utf8ByteSize then .error .nameTooLong else .ok ()

/-- The pieces of a text between slashes, as names. -/
def piecesOf (text : String) : List String := (Path.cut text.toList).map String.ofList

/-- Whether a text starts at the top. -/
def startsAtTop (text : String) : Bool := text.toList.head? = some '/'

/-- Walks along the pieces of a path from the location `here`, with at most
`links` links on the way. The last piece may stay a link. -/
def walk (t : Tree) (followLast : Bool) (links : Nat) (here : List String) :
    List String → Except SystemError (List String)
  | [] => .ok here
  | piece :: rest =>
    if !((t.top.at? here).any Entry.isDirectory) then .error .notADirectory
    else if piece = "" || piece = "." then walk t followLast links here rest
    else if piece = ".." then walk t followLast links here.dropLast rest
    else if nameLimit < piece.utf8ByteSize then .error .nameTooLong
    else
      match t.top.at? (here ++ [piece]) with
      | none => .error .notFound
      | some (.link target) =>
        if rest.isEmpty && !followLast then .ok (here ++ [piece])
        else
          match links with
          | 0 => .error .tooManyLinks
          | links + 1 =>
            walk t followLast links (if startsAtTop target then [] else here)
              (piecesOf target ++ rest)
      | some _ => walk t followLast links (here ++ [piece]) rest
termination_by pieces => (links, pieces.length)

/-- The location that a path starts from. -/
def start (t : Tree) (p : Path) : List String := if p.isAbsolute then [] else t.current

/-- **The location of what a path leads to**, all links followed. -/
def locate (t : Tree) (p : Path) : Except SystemError (List String) := do
  checkPath p
  t.walk true linkLimit (t.start p) (piecesOf p.text)

/-- The entry that a path leads to. -/
def entry (t : Tree) (p : Path) : Except SystemError Entry := do
  let location ← t.locate p
  match t.top.at? location with
  | some e => return e
  | none => throw .notFound

/-- **The spot of the name at the end of a path**, if there is a name at
its end. -/
def spot (t : Tree) (p : Path) : Except SystemError (Option Spot) := do
  checkPath p
  let reversed := (piecesOf p.text).reverse
  match reversed.dropWhile (· = "") with
  | [] => return none
  | name :: front =>
    let directory ← t.walk true linkLimit (t.start p) (front.reverse ++ [""])
    if name = "." || name = ".." then return none
    checkName name
    return some ⟨directory, name, reversed.head? = some ""⟩

/-- The text of a location as an absolute path. -/
def pathOf (location : List String) : Path := ⟨"/" ++ Text.join "/" location⟩

/-- **The absolute path of what a path leads to**, without points and links.
The way is made step by step here, so that no path is too long as a whole. -/
def canonical (t : Tree) (p : Path) : Except SystemError Path := do
  checkText p
  return pathOf (← t.walk true linkLimit (t.start p) (piecesOf p.text))

/-- Whether a path leads to a directory. -/
def isDirectory (t : Tree) (p : Path) : Bool :=
  match t.entry p with
  | .ok e => e.isDirectory
  | .error _ => false

/-- Whether a path leads to a regular file. -/
def isFile (t : Tree) (p : Path) : Bool :=
  match t.entry p with
  | .ok e => e.isFile
  | .error _ => false

/-- Whether a path leads to anything. -/
def holds (t : Tree) (p : Path) : Bool := (t.entry p).isOk

/-- The tree with another entry, or none, at a spot. -/
def putAt (t : Tree) (s : Spot) (e : Option Entry) : Tree :=
  { t with top := t.top.put e s.location }

/-- Makes one directory. -/
def makeDirectory (t : Tree) (p : Path) : Except SystemError Tree := do
  match ← t.spot p with
  | none => throw .alreadyExists
  | some s =>
    if (t.top.at? s.location).isSome then throw .alreadyExists
    else return t.putAt s (some (.directory []))

/-- Makes one directory, or leaves the one that is there. -/
def ensureDirectory (t : Tree) (p : Path) : Except SystemError Tree :=
  match t.makeDirectory p with
  | .ok t => .ok t
  | .error e => if t.isDirectory p then .ok t else .error e

/-- Makes a directory and those above it that are missing, at most `depth`
of them. What was made stays, also when the rest fails. -/
def makeDirectoriesWithin : (depth : Nat) → Tree → Path → Except SystemError Unit × Tree
  | 0, t, _ => (.error .notFound, t)
  | depth + 1, t, p =>
    match t.ensureDirectory p with
    | .ok t => (.ok (), t)
    | .error .notFound =>
      match p.parent? with
      | none => (.error .notFound, t)
      | some parent =>
        match makeDirectoriesWithin depth t parent with
        | (.error e, t) => (.error e, t)
        | (.ok (), t) =>
          match t.ensureDirectory p with
          | .ok t => (.ok (), t)
          | .error e => (.error e, t)
    | .error e => (.error e, t)

/-- **Makes a directory and those above it that are missing.** -/
def makeDirectories (t : Tree) (p : Path) : Except SystemError Unit × Tree :=
  if p.text.isEmpty then (.ok (), t)
  else makeDirectoriesWithin (p.components.length + 1) t p

/-- **The text of a regular file.** -/
def readText (t : Tree) (p : Path) : Except SystemError String := do
  match ← t.entry p with
  | .directory _ => throw .isADirectory
  | .file content =>
    match String.fromUTF8? content with
    | some text => return text
    | none => throw .notText
  | .link _ => throw .tooManyLinks

/-- Puts a regular file in place of what has the name at the end of a path,
unless that is a directory. -/
def replaceFile (t : Tree) (p : Path) (content : ByteArray) : Except SystemError Tree := do
  match ← t.spot p with
  | none => throw .busy
  | some s =>
    if s.slashed then throw .notADirectory
    else if (t.top.at? s.location).any Entry.isDirectory then throw .isADirectory
    else return t.putAt s (some (.file content))

/-- **Writes a file in one step**, after making the directories above it. -/
def writeText (t : Tree) (p : Path) (text : String) : Except SystemError Unit × Tree :=
  match t.makeDirectories (p.parent?.getD ⟨"."⟩) with
  | (.error e, t) => (.error e, t)
  | (.ok (), t) =>
    match t.replaceFile p text.toUTF8 with
    | .ok t => (.ok (), t)
    | .error e => (.error e, t)

/-- **Removes the name at the end of a path**, unless it is that of a
directory. -/
def removeFile (t : Tree) (p : Path) : Except SystemError Tree := do
  match ← t.spot p with
  | none => throw .isADirectory
  | some s =>
    match t.top.at? s.location with
    | none => throw .notFound
    | some e =>
      if e.isDirectory then throw .isADirectory
      else if s.slashed then throw .notADirectory
      else return t.putAt s none

/-- The tree with an entry at a path, and with the directories above it.
Where that is not possible, the tree stays as it is. -/
def place (t : Tree) (p : Path) (e : Entry) : Tree :=
  let t := (t.makeDirectories (p.parent?.getD ⟨"."⟩)).2
  match t.spot p with
  | .ok (some s) => t.putAt s (some e)
  | _ => t

/-- The regular files below a directory, with their locations below it. -/
def filesBelow (t : Tree) (p : Path) : List (List String × ByteArray) :=
  match t.entry p with
  | .ok e => e.filesAt []
  | .error _ => []

/-- The regular files that are in another tree but not in this one, or not
with this content. -/
def filesNewIn (before after : Tree) : List (Path × ByteArray) :=
  (after.top.filesAt []).filterMap fun (location, content) =>
    match before.top.at? location with
    | some (.file old) => if old == content then none else some (pathOf location, content)
    | _ => some (pathOf location, content)

/-- The regular files that are in this tree, and under no name in another
one. -/
def filesGoneIn (before after : Tree) : List Path :=
  (before.top.filesAt []).filterMap fun (location, _) =>
    if (after.top.at? location).isSome then none else some (pathOf location)

/-- The words for what went wrong, in a result. -/
def worded {α : Type} : Except SystemError α → Except String α
  | .ok a => .ok a
  | .error e => .error e.message

instance : FileStore Tree where
  read t p := worded (t.readText p)
  write t p text :=
    let (result, t) := t.writeText p text
    (worded result, t)
  remove t p :=
    match t.removeFile p with
    | .ok t => (.ok (), t)
    | .error e => (.error e.message, t)
  holds := holds
  isDirectory := isDirectory
  extent t :=
    let files := t.top.filesAt []
    ((files.map fun f => f.2.size).foldr (· + ·) 0 + 1) * (files.length + 1) * (linkLimit + 1) + 1

end Tree

end Stylebook
