import Stylebook.Settings.Basic
import Stylebook.Watch.LastSeen

/-!
# Notifications

The system notifies a watch of what happens below the project root. Most of
it does not concern a stylesheet compiler: files that are only read, files
that are no stylesheets, and directories that are left out.
-/

namespace Stylebook

/-- What a notification says has happened. -/
inductive NotificationKind where
  | access
  | create
  | modify
  | remove
  /-- Something, without more being known. -/
  | any
  | other
  deriving DecidableEq, Repr

/-- **A notification of the system.** -/
structure Notification where
  kind : NotificationKind
  paths : List Path
  deriving DecidableEq, Repr

namespace Settings

/-- **Whether a path is that of a stylesheet of the project.** -/
def isSource (s : Settings) (root p : Path) : Bool := s.isStylesheet p && !s.isExcluded root p

end Settings

namespace Notification

/-- The stylesheets that a notification is about. To read a file is no
change. -/
def stylesheets (n : Notification) (settings : Settings) (root : Path) : List Path :=
  match n.kind with
  | .access => []
  | _ => n.paths.filter (settings.isSource root)

/-- **The stylesheets of a notification that have changed** since they were
last seen, and what has now been seen. -/
def changed {σ : Type} [FileStore σ] (n : Notification) (store : σ) (settings : Settings)
    (root : Path) (seen : LastSeen) : List Path × LastSeen :=
  LastSeen.lookAll store seen (n.stylesheets settings root)

end Notification

end Stylebook
