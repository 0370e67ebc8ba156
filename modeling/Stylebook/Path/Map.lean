import Stylebook.Path.Basic

/-!
# Maps and sets of paths

Paths with the same components are one key, in whatever spelling they come.
A key keeps the spelling that it came in with.
-/

namespace Stylebook

/-- **A set of paths**, in the order of insertion. -/
abbrev PathSet := List Path

namespace PathSet

/-- Adds a path, unless it is there. -/
def insert (s : PathSet) (p : Path) : PathSet := if p.isIn s then s else s ++ [p]

/-- Takes a path out. -/
def erase (s : PathSet) (p : Path) : PathSet := s.filter fun q => !q.same p

end PathSet

/-- **A finite map from paths**, in the order of insertion. -/
abbrev PathMap (β : Type) := List (Path × β)

namespace PathMap

variable {β : Type}

/-- The value of a path. -/
def get? (m : PathMap β) (p : Path) : Option β := (m.find? fun e => e.1.same p).map Prod.snd

/-- Writes the value of a path. A path that is there keeps its place and its
spelling. -/
def set : PathMap β → Path → β → PathMap β
  | [], p, b => [(p, b)]
  | (q, c) :: m, p, b => if q.same p then (q, b) :: m else (q, c) :: set m p b

/-- Takes a path out. -/
def erase (m : PathMap β) (p : Path) : PathMap β := m.filter fun e => !e.1.same p

/-- The paths of a map. -/
def keys (m : PathMap β) : List Path := m.map Prod.fst

end PathMap

end Stylebook
