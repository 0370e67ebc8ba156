import Stylebook.Store.Edit
import Stylebook.Watch.Notification

/-!
# Subscriptions

Whoever wants to be told about a directory and everything below it
subscribes to each directory there is, one by one. The directories are found
by a walk that also follows links, but not back into a directory that it is
just walking through. A link that comes later is not followed.

The system reports a change by the directory that the name stands in. So a
directory that was found under several paths is reported under one of them,
the path under which it was found last. Where the path of a directory, or of
a link to it, is removed, the subscription to the directory ends, whatever
other paths lead to it.

Subscribing takes time. What happens comes in one go, and only when it is
over does the subscription `settle`: it gives up what is gone and walks
through the directories that are new. Nobody is told what has happened in a
new directory before that.
-/

namespace Stylebook

namespace Entry

mutual
/-- The number of links in an entry. -/
def countLinks : Entry → Nat
  | .file _ => 0
  | .link _ => 1
  | .directory es => countLinksIn es

/-- The number of links in the entries of a directory. -/
def countLinksIn : List (String × Entry) → Nat
  | [] => 0
  | (_, e) :: es => countLinks e + countLinksIn es
end

end Entry

/-- **A subscription to a directory and everything below it.** -/
structure Subscription where
  /-- The directories that were found, by their paths. -/
  found : PathMap (List String) := []
  /-- The path under which each directory is reported. -/
  reported : List (List String × Path) := []
  /-- Paths that were removed since the subscription has settled. -/
  gone : List Path := []
  /-- Paths that were made since the subscription has settled, with their
  locations. -/
  fresh : List (Path × List String) := []

namespace Subscription

mutual
/-- The directories that a walk finds from an entry at a location on, with
the paths under which it finds them. The walk has come through the locations
`above`, and follows at most `links` links on its way. -/
def walk (t : Tree) (links : Nat) (above : List (List String)) (p : Path)
    (location : List String) : Entry → List (Path × List String)
  | .directory es => (p, location) :: walkIn t links (location :: above) p location es
  | _ => []
termination_by e => (links, sizeOf e)

/-- The directories that a walk finds from the entries of a directory on. -/
def walkIn (t : Tree) (links : Nat) (above : List (List String)) (p : Path)
    (location : List String) : List (String × Entry) → List (Path × List String)
  | [] => []
  | (n, .link _) :: es =>
    (match links with
      | 0 => []
      | links + 1 =>
        match t.locate (Tree.pathOf (location ++ [n])) with
        | .error _ => []
        | .ok target =>
          if target ∈ above then []
          else
            match t.top.at? target with
            | some e => walk t links above (p.join ⟨n⟩) target e
            | none => []) ++ walkIn t links above p location es
  | (n, e) :: es =>
    walk t links above (p.join ⟨n⟩) (location ++ [n]) e ++ walkIn t links above p location es
termination_by es => (links, sizeOf es)
end

/-- Subscribes to a directory that was found under a path. -/
def add (s : Subscription) (p : Path) (location : List String) : Subscription :=
  { s with
    found := PathMap.set s.found p location
    reported := s.reported.filter (fun r => r.1 ≠ location) ++ [(location, p)] }

/-- Subscribes to the directory at a location, if there is one, and to all
that a walk finds from there. -/
def enter (t : Tree) (s : Subscription) (p : Path) (location : List String) : Subscription :=
  match t.top.at? location with
  | some e => (walk t t.top.countLinks [] p location e).foldl (fun s d => s.add d.1 d.2) s
  | none => s

/-- **Subscribes to a directory** and everything below it. -/
def ofTree (t : Tree) (root : Path) : Subscription :=
  match t.locate root with
  | .ok location => enter t {} root location
  | .error _ => {}

/-- Ends the subscription to the directory that was found under a path, and
to those that are reported below the path. -/
def leave (s : Subscription) (p : Path) : Subscription :=
  match PathMap.get? s.found p with
  | none => s
  | some location =>
    { s with
      found := s.found.filter fun f => !f.1.startsWith p
      reported := s.reported.filter fun r => r.1 ≠ location && !r.2.startsWith p }

/-- **Brings the subscription up to what the tree is now.** -/
def settle (s : Subscription) (t : Tree) : Subscription :=
  let s := s.gone.foldl leave { s with gone := [] }
  s.fresh.foldl (fun s d => enter t s d.1 d.2) { s with fresh := [] }

/-- **The path under which a name is reported**, if somebody has subscribed
to its directory. -/
def pathOf? (s : Subscription) (location : List String) : Option Path :=
  match location.getLast? with
  | some name => (s.reported.lookup location.dropLast).map fun d => d.join ⟨name⟩
  | none => none

/-- The subscription after an incident, and the notification about it. A
directory that is removed is reported no more. -/
def tell (s : Subscription) : Incident → Subscription × Option Notification
  | .created location =>
    match s.pathOf? location with
    | some p => ({ s with fresh := s.fresh ++ [(p, location)] }, some ⟨.create, [p]⟩)
    | none => (s, none)
  | .modified location => (s, (s.pathOf? location).map fun p => ⟨.modify, [p]⟩)
  | .removed location =>
    let path := s.pathOf? location
    let s := { s with
      reported := s.reported.filter fun r => r.1 ≠ location
      gone := s.gone ++ path.toList }
    (s, path.map fun p => ⟨.remove, [p]⟩)

/-- **The subscription after incidents**, and the notifications about them. -/
def tellAll : Subscription → List Incident → Subscription × List Notification
  | s, [] => (s, [])
  | s, i :: is =>
    let (s, n) := s.tell i
    let (s, ns) := s.tellAll is
    (s, n.toList ++ ns)

end Subscription

end Stylebook
