import Stylebook.Watch.Session
import Stylebook.Watch.Subscription

/-!
# Sessions among edits

A session does not look around by itself: it is told. In a `LiveSession` the
session stands together with the subscription by which it is told, and with
the notifications that it has not taken yet. Others edit the tree in the
meantime, and what the session writes itself is told to it as well.

Handling a batch takes no time here, and the notifications that wait are
taken without a pause. So a batch is due as soon as a change is recorded
when the window is empty, and after all that waits has been taken when it is
not.
-/

namespace Stylebook

/-- **A session with what it is told.** -/
structure LiveSession where
  session : Session Tree
  subscription : Subscription
  /-- The notifications that the session has not taken, in order. -/
  waiting : List Notification := []

namespace LiveSession

/-- Tells the session what has happened. -/
def tell (l : LiveSession) (incidents : List Incident) : LiveSession :=
  let (subscription, told) := l.subscription.tellAll incidents
  { l with subscription := subscription, waiting := l.waiting ++ told }

/-- Brings the subscription up to what the tree is now. -/
def settle (l : LiveSession) : LiveSession :=
  { l with subscription := l.subscription.settle l.session.store }

/-- **Starts a watch of the project at a root.** The subscription is older
than the first batch. -/
def start (t : Tree) (settings : Settings) (root : Path) :
    Except Failure (Except (Wreck Tree) (LiveSession × List Event)) := do
  let started ← startWatch t settings root
  return started.map fun (session, events) =>
    let l : LiveSession := { session, subscription := Subscription.ofTree t session.root }
    ((l.tell (t.incidents session.store)).settle, events)

/-- **Edits the tree.** An edit that fails changes nothing. -/
def edit (l : LiveSession) (p : Path) (e : Edit) : LiveSession :=
  match l.session.store.edit p e with
  | .ok (t, incidents) => { l with session := { l.session with store := t } }.tell incidents
  | .error _ => l

/-- Takes notifications until a batch is due at once, and gives back those
that are left. -/
def take : Session Tree → List Notification → Session Tree × List Notification
  | s, [] => (s, [])
  | s, n :: ns =>
    let s := s.notify 0 n
    if s.batcher.isReady 0 then (s, ns) else take s ns

/-- **Goes on to the next batch**, if anything that waits leads to one. -/
def nextBatch (l : LiveSession) : Except (Wreck Tree) (LiveSession × List Event) := do
  let l := l.settle
  let (s, waiting) := take l.session l.waiting
  let (done, events) ← s.poll s.settings.debounce
  let l := { l with session := done, waiting := waiting }
  return ((l.tell (s.store.incidents done.store)).settle, events)

end LiveSession

end Stylebook
