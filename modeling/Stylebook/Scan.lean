import Stylebook.Settings.Basic
import Stylebook.Store.Tree

/-!
# Finding stylesheets

The stylesheets of a project are found by walking its directory. An entry
that is left out is not looked into, so nothing below it is found either.
Links are not followed, except at the root itself, and only regular files
count.
-/

namespace Stylebook

namespace Scan

mutual
/-- The regular files of an entry at a path. Entries below it that `keep`
refuses are left out, with everything in them. -/
def filesAt (keep : Path → Bool) (p : Path) : Entry → List Path
  | .file _ => [p]
  | .link _ => []
  | .directory es => filesIn keep p es

/-- The regular files of the entries of a directory at a path. -/
def filesIn (keep : Path → Bool) (p : Path) : List (String × Entry) → List Path
  | [] => []
  | (n, e) :: es =>
    (if keep (p.join ⟨n⟩) then filesAt keep (p.join ⟨n⟩) e else []) ++ filesIn keep p es
end

end Scan

/-- **The stylesheets below a root**, in ascending order. Below a root that
is not there, there are none. -/
def scanStylesheets (t : Tree) (s : Settings) (root : Path) : List Path :=
  match t.entry root with
  | .ok e =>
    Path.sort ((Scan.filesAt (fun p => !s.isExcluded root p) root e).filter s.isStylesheet)
  | .error _ => []

end Stylebook
