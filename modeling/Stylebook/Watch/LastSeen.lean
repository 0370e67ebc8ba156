import Stylebook.Path.Map
import Stylebook.Store.Basic
import Stylebook.Text.Digest

/-!
# What was last seen of each file

Editors save files that have not changed, and notifications come more than
once. A watch therefore remembers the digest of each file that it has looked
at. A notification counts only if what is there now differs from what was
seen last: another content, or a file that was there and is gone.
-/

namespace Stylebook

/-- **The digests of the files that were looked at.** A file that is not in
the map was not there when it was last looked at, or has never been looked
at. -/
abbrev LastSeen := PathMap String

namespace LastSeen

variable {σ : Type} [FileStore σ]

/-- The digest of a file, if it can be read. -/
def digest? (store : σ) (p : Path) : Option String :=
  match FileStore.read store p with
  | .ok text => some (Digest.ofText text)
  | .error _ => none

/-- What has been seen once all files of a list that can be read have been
looked at. -/
def ofFiles (store : σ) (files : List Path) : LastSeen :=
  files.foldl
    (fun seen p => match digest? store p with
      | some d => PathMap.set seen p d
      | none => seen)
    []

/-- **Looks at a path again**: whether something else is there than what was
seen last, and what has now been seen. A file that cannot be read counts as
unchanged. -/
def look (store : σ) (seen : LastSeen) (p : Path) : Bool × LastSeen :=
  if FileStore.holds store p then
    match digest? store p with
    | none => (false, seen)
    | some d =>
      if PathMap.get? seen p = some d then (false, seen) else (true, PathMap.set seen p d)
  else ((PathMap.get? seen p).isSome, PathMap.erase seen p)

/-- Looks at paths one after the other, and keeps those where something else
is there. -/
def lookAll (store : σ) : LastSeen → List Path → List Path × LastSeen
  | seen, [] => ([], seen)
  | seen, p :: ps =>
    let (changed, seen) := look store seen p
    let (rest, seen) := lookAll store seen ps
    (if changed then p :: rest else rest, seen)

end LastSeen

end Stylebook
