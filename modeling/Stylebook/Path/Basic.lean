import Stylebook.Text.Blank

/-!
# Paths

A `Path` is a text with slashes, and it is shown as it was written. What it
means is its list of `components`: repeated slashes and inner points do not
count, and a point counts only at the very start of a relative path. Two
paths are the same file name when their components are equal, and paths are
ordered by their components.

The operations work on the *pieces* between slashes. A piece is *idle* when
it is empty or an inner point. Every operation keeps the spelling of the
pieces that it does not touch.
-/

namespace Stylebook

/-- **A component of a path.** -/
inductive Component where
  /-- The slash in front of an absolute path. -/
  | root
  /-- A point at the start of a relative path. -/
  | here
  /-- Two points. -/
  | up
  | name (text : String)
  deriving DecidableEq, Repr

/-- **A path**, as it is written. -/
structure Path where
  text : String
  deriving DecidableEq, Repr, Inhabited

namespace Component

/-- The place of a kind of component in the order of paths. -/
def rank : Component → Nat
  | .root => 0
  | .here => 1
  | .up => 2
  | .name _ => 3

/-- The order of components: by kind, and names by their characters. -/
def order : Component → Component → Ordering
  | .name s, .name t => compare s t
  | c, d => compare c.rank d.rank

/-- A component as it is written. -/
def text : Component → String
  | .root => "/"
  | .here => "."
  | .up => ".."
  | .name s => s

end Component

namespace Path

/-- The pieces of a text between slashes. -/
def cut : List Char → List (List Char)
  | [] => [[]]
  | c :: cs =>
    if c = '/' then [] :: cut cs
    else
      match cut cs with
      | p :: ps => (c :: p) :: ps
      | [] => [[c]]

/-- Puts slashes between pieces. -/
def glue : List (List Char) → List Char
  | [] => []
  | [p] => p
  | p :: ps => p ++ '/' :: glue ps

/-- Whether a piece counts for nothing. -/
def isIdle (piece : List Char) : Bool := piece = [] || piece = ['.']

/-- Whether the path starts with a slash. -/
def isAbsolute (p : Path) : Bool := p.text.toList.head? = some '/'

/-- The pieces of a path, each with whether it is a component. -/
def pieces (p : Path) : List (List Char × Bool) :=
  match cut p.text.toList with
  | first :: rest =>
    (first, if p.isAbsolute then false else first ≠ []) :: rest.map fun q => (q, !isIdle q)
  | [] => []

/-- The component that a piece stands for. -/
def ofPiece (piece : List Char) : Component :=
  if piece = ['.'] then .here
  else if piece = ['.', '.'] then .up
  else .name (String.ofList piece)

/-- **The components of a path.** -/
def components (p : Path) : List Component :=
  (if p.isAbsolute then [.root] else []) ++
    (p.pieces.filter (·.2)).map fun q => ofPiece q.1

/-- **Whether two paths are the same file name.** -/
def same (p q : Path) : Bool := p.components = q.components

/-- The order of component lists: the first difference decides. -/
def orderComponents : List Component → List Component → Ordering
  | [], [] => .eq
  | [], _ :: _ => .lt
  | _ :: _, [] => .gt
  | c :: cs, d :: ds =>
    match c.order d with
    | .eq => orderComponents cs ds
    | o => o

/-- The order of paths. -/
def order (p q : Path) : Ordering := orderComponents p.components q.components

/-- Whether a path does not come after another. -/
def le (p q : Path) : Bool := (p.order q).isLE

/-- Paths in ascending order. -/
def sort (ps : List Path) : List Path := ps.mergeSort le

/-- The path of pieces; of an absolute path at least the slash is left. -/
def ofPieces (absolute : Bool) (pieces : List (List Char × Bool)) : Path :=
  if absolute && pieces.isEmpty then ⟨"/"⟩ else ⟨String.ofList (glue (pieces.map Prod.fst))⟩

/-- The pieces, last first, without those at the end that are no components. -/
def piecesReversed (p : Path) : List (List Char × Bool) :=
  p.pieces.reverse.dropWhile (!·.2)

/-- **The path without its last component**, if it has one besides the root. -/
def parent? (p : Path) : Option Path :=
  match p.piecesReversed with
  | [] => none
  | _ :: front => some (ofPieces p.isAbsolute (front.dropWhile (!·.2)).reverse)

/-- The name at the end of a path. -/
def fileName? (p : Path) : Option (List Char) :=
  match p.piecesReversed with
  | (piece, _) :: _ => if piece = ['.'] || piece = ['.', '.'] then none else some piece
  | [] => none

/-- A file name cut at its last point into stem and extension. A point at
the start cuts nothing off. -/
def splitName (name : List Char) : List Char × Option (List Char) :=
  let tail := name.reverse.takeWhile (· ≠ '.')
  match name.reverse.dropWhile (· ≠ '.') with
  | _ :: stem => if stem.isEmpty then (name, none) else (stem.reverse, some tail.reverse)
  | [] => (name, none)

/-- The extension of a path. -/
def extension? (p : Path) : Option String :=
  p.fileName?.bind fun name => (splitName name).2.map String.ofList

/-- **A path below another one.** An absolute path stands for itself. -/
def join (p q : Path) : Path :=
  if q.isAbsolute then q
  else
    let base := p.text.toList
    if base.isEmpty || base.getLast? = some '/' then ⟨p.text ++ q.text⟩
    else ⟨p.text ++ "/" ++ q.text⟩

/-- The pieces after the first `count` components. -/
def dropPieces : (count : Nat) → List (List Char × Bool) → List (List Char × Bool)
  | 0, ps => ps
  | _ + 1, [] => []
  | n + 1, (_, true) :: ps => dropPieces n ps
  | n + 1, (_, false) :: ps => dropPieces (n + 1) ps

/-- What is left of a list when another one is taken off its front. -/
def dropFront? {α : Type} [DecidableEq α] : (front whole : List α) → Option (List α)
  | [], whole => some whole
  | _ :: _, [] => none
  | a :: as, b :: bs => if a = b then dropFront? as bs else none

/-- Whether the components of `base` come first in the path. -/
def startsWith (p base : Path) : Bool := (dropFront? base.components p.components).isSome

/-- **The path relative to `base`**, if the components of `base` come first
in it. -/
def relativeTo? (p base : Path) : Option Path :=
  if !p.startsWith base then none
  else
    let trimmed := p.piecesReversed.reverse
    match base.components.length with
    | 0 => some (ofPieces p.isAbsolute trimmed)
    | n + 1 =>
      let rest := dropPieces (if p.isAbsolute then n else n + 1)
        (if p.isAbsolute then trimmed.drop 1 else trimmed)
      some (ofPieces false (rest.dropWhile (!·.2)))

/-- The path up to the start of its last name, and the length of what
follows the name. -/
def aroundName (p : Path) (name : List Char) : List Char × Nat :=
  let cs := p.text.toList
  let trimmed := glue (p.piecesReversed.reverse.map Prod.fst)
  (trimmed.take (trimmed.length - name.length), cs.length - trimmed.length)

/-- **The path with another extension** for its file name, or without one
when `extension` is empty. A path without a file name stays. A name like
`..x` loses its extension and is then no file name any more. -/
def withExtension (p : Path) (extension : String) : Path :=
  match p.fileName? with
  | none => p
  | some name =>
    let (front, after) := p.aroundName name
    match splitName name with
    | (['.'], some _) =>
      if after = 0 then ⟨String.ofList (front ++ ['.', '.'])⟩
      else ⟨String.ofList (front ++ ['.']) ++ suffix⟩
    | (stem, _) => ⟨String.ofList (front ++ stem) ++ suffix⟩
where
  /-- The extension with its point. -/
  suffix : String := if extension.isEmpty then "" else "." ++ extension

/-- Follows one component from the components before, last first. -/
def follow : List Component → Component → List Component
  | stack, .here => stack
  | [], .up => [.up]
  | [.root], .up => [.up, .root]
  | _ :: stack, .up => stack
  | _, .root => [.root]
  | stack, c => c :: stack

/-- The text of components. -/
def ofComponents : List Component → Path
  | .root :: cs => ⟨"/" ++ Text.join "/" (cs.map Component.text)⟩
  | cs => ⟨Text.join "/" (cs.map Component.text)⟩

/-- **The path without points and without the steps up that it can do
without.** A step up takes the component before it away, and stays where
there is none. -/
def normalize (p : Path) : Path := ofComponents (p.components.foldl follow []).reverse

/-- Whether a path is among paths, however it is spelled. -/
def isIn (p : Path) (ps : List Path) : Bool := ps.any (same p)

end Path

end Stylebook
