import Mathlib.Data.List.Induction
import Stylebook.Proofs.Graph.Edges

/-!
# The import graph and its history

A graph is made by operations, one after the other: an importer is
registered, a file is observed, the edges from an importer are removed. This
module reads the graph off the history of its operations
(`Graph.follows_history`). There is an edge where the importer was
registered for the target and was not removed since, and a file is observed
for the first time when no operation of the history observed it. The two
maps of the graph tell the same at any time, and neither holds an empty set.

What one operation does to the edges is in `Stylebook.Proofs.Graph.Edges`.
What one more operation does to a history is `Graph.registered_concat`, and
the two are compared by induction on the history, from its end.
-/

namespace Stylebook

open Stylebook.Path

/-! ## Sets that are not empty

A set is taken out of the map with its last member. It makes no difference
for the edges, but the map would grow with every file that was ever
imported. -/

namespace PathMap

variable {m : PathMap PathSet}

/-- **No path of the map has an empty set.** -/
def IsFilled (m : PathMap PathSet) : Prop := ∀ e ∈ m, e.2 ≠ []

/-- An empty map has no empty set. -/
theorem isFilled_nil : IsFilled [] := fun _ he => absurd he List.not_mem_nil

/-- Writing a set that is not empty leaves no empty set. -/
theorem IsFilled.set (h : IsFilled m) {s : PathSet} (hs : s ≠ []) (p : Path) :
    IsFilled (PathMap.set m p s) := by
  intro e he
  rcases mem_set he with heq | he
  · rw [heq]
    exact hs
  · exact h e he

/-- Taking out a set leaves no empty one behind. -/
theorem IsFilled.erase (h : IsFilled m) (p : Path) : IsFilled (PathMap.erase m p) :=
  fun e he => h e (mem_of_mem_erase he)

/-- A set with a path put in is not empty. -/
theorem insert_ne_nil (s : PathSet) (p : Path) : PathSet.insert s p ≠ [] := by
  intro hnil
  have hin : p.isIn (PathSet.insert s p) = true :=
    PathSet.isIn_insert.mpr (Or.inr (same_refl p))
  rw [hnil] at hin
  cases hin

/-- Adding a path leaves no empty set. -/
theorem IsFilled.addTo (h : IsFilled m) (key member : Path) :
    IsFilled (Graph.addTo m key member) :=
  h.set (insert_ne_nil _ _) key

/-- Removing a path leaves no empty set either: a set that becomes empty is
taken out. -/
theorem IsFilled.removeFrom (h : IsFilled m) (key member : Path) :
    IsFilled (Graph.removeFrom m key member) := by
  unfold Graph.removeFrom
  split
  · exact h
  · dsimp only
    split
    · exact h.erase key
    · rename_i hrest
      exact h.set (fun hnil => hrest (List.isEmpty_iff.mpr hnil)) key

/-- A path may be removed from many sets, one after the other. -/
theorem IsFilled.foldl_removeFrom (h : IsFilled m) (targets : List Path) (member : Path) :
    IsFilled (targets.foldl (fun m t => Graph.removeFrom m t member) m) := by
  induction targets generalizing m with
  | nil => exact h
  | cons t targets ih => exact ih (h.removeFrom t member)

end PathMap

namespace Graph

variable {g : Graph} {p i t : Path}

/-- **A graph without empty sets**, in either map. -/
structure IsFilled (g : Graph) : Prop where
  importers : PathMap.IsFilled g.importers
  imports : PathMap.IsFilled g.imports

namespace IsFilled

/-- The empty graph has no sets, so none that is empty. -/
theorem empty : Graph.empty.IsFilled := ⟨PathMap.isFilled_nil, PathMap.isFilled_nil⟩

/-- Registering leaves no empty set, as it adds to sets. -/
theorem register (h : g.IsFilled) (p : Path) (targets : List Path) :
    (g.register p targets).IsFilled := by
  unfold Graph.register
  induction targets generalizing g with
  | nil => exact h
  | cons u targets ih =>
    refine ih ?_
    unfold registerOne
    split
    · exact h
    · exact ⟨h.importers.addTo u p, h.imports.addTo p u⟩

/-- Observing leaves no empty set, as it leaves the sets alone. -/
theorem observe (h : g.IsFilled) (p : Path) : (g.observe p).2.IsFilled := by
  refine ⟨?_, ?_⟩
  · rw [importers_observe]
    exact h.importers
  · rw [imports_observe]
    exact h.imports

/-- Removing leaves no empty set, as it takes those out that become empty. -/
theorem removeOutgoing (h : g.IsFilled) (p : Path) : (g.removeOutgoing p).IsFilled := by
  unfold Graph.removeOutgoing
  split
  · exact h
  · exact ⟨h.importers.foldl_removeFrom _ p, h.imports.erase p⟩

end IsFilled

/-! ## Histories

A history says what was asked of the graph. From it the edges can be told
without a graph: look for the last removal of the importer, and for
registrations after it. -/

/-- **An operation on the import graph.** -/
inductive Operation where
  | register (importer : Path) (targets : List Path)
  | observe (p : Path)
  | removeOutgoing (importer : Path)
  deriving DecidableEq, Repr

/-- The graph after one operation. -/
def apply (g : Graph) : Operation → Graph
  | .register importer targets => g.register importer targets
  | .observe p => (g.observe p).2
  | .removeOutgoing importer => g.removeOutgoing importer

/-- **The graph that a history of operations leaves**, the first one first. -/
def ofHistory (history : List Operation) : Graph := history.foldl apply empty

/-- **An importer is registered for a target** in a history, and its edges
are not removed after that. No file is registered for itself. -/
def Registered (history : List Operation) (t i : Path) : Prop :=
  ∃ before importer targets after, history = before ++ .register importer targets :: after
    ∧ importer.same i = true ∧ t.isIn targets = true ∧ t.same i = false
    ∧ ∀ q, .removeOutgoing q ∈ after → q.same i = false

/-- A file is observed in a history. -/
def Observed (history : List Operation) (p : Path) : Prop :=
  ∃ q, .observe q ∈ history ∧ q.same p = true

variable {history : List Operation} {op : Operation}

/-- One more operation comes last. -/
theorem ofHistory_concat (history : List Operation) (op : Operation) :
    ofHistory (history ++ [op]) = (ofHistory history).apply op := by
  unfold ofHistory
  rw [List.foldl_append]
  rfl

/-- **One more operation** registers the importer, or keeps what was
registered unless it removes the importer. -/
theorem registered_concat : Registered (history ++ [op]) t i
    ↔ (Registered history t i ∧ ∀ q, op = .removeOutgoing q → q.same i = false)
      ∨ ∃ importer targets, op = .register importer targets
        ∧ importer.same i = true ∧ t.isIn targets = true ∧ t.same i = false := by
  constructor
  · rintro ⟨before, importer, targets, after, heq, hi, ht, hne, hafter⟩
    -- the operation that registered is the last one, or stands before it
    cases after using List.reverseRecOn with
    | nil =>
      obtain ⟨-, hop⟩ := List.append_inj' heq rfl
      exact Or.inr ⟨importer, targets, List.head_eq_of_cons_eq hop, hi, ht, hne⟩
    | append_singleton after last =>
      rw [← List.cons_append, ← List.append_assoc] at heq
      obtain ⟨hhistory, hlast⟩ := List.append_inj' heq rfl
      obtain rfl : op = last := List.head_eq_of_cons_eq hlast
      refine Or.inl ⟨⟨before, importer, targets, after, hhistory, hi, ht, hne, fun q hq => ?_⟩,
        fun q hq => ?_⟩
      · exact hafter q (List.mem_append_left _ hq)
      · exact hafter q (hq ▸ List.mem_append_right _ (List.mem_singleton_self _))
  · rintro (⟨⟨before, importer, targets, after, rfl, hi, ht, hne, hafter⟩, hop⟩
      | ⟨importer, targets, rfl, hi, ht, hne⟩)
    · refine ⟨before, importer, targets, after ++ [op], by simp, hi, ht, hne, fun q hq => ?_⟩
      rcases List.mem_append.mp hq with hq | hq
      · exact hafter q hq
      · exact hop q (List.mem_singleton.mp hq).symm
    · exact ⟨history, importer, targets, [], rfl, hi, ht, hne, fun q hq => absurd hq
        List.not_mem_nil⟩

/-- In an empty history nothing is registered. -/
theorem not_registered_nil : ¬Registered [] t i := by
  rintro ⟨before, importer, targets, after, heq, -⟩
  exact absurd heq.symm (List.append_ne_nil_of_right_ne_nil _ (List.cons_ne_nil _ _))

/-! ## The graph of a history

Everything goes by induction on the history from its end, since the last
operation is the one that decides: a removal undoes what came before it, and
not what comes after. -/

/-- **What every operation keeps holds of the graph of any history.** -/
theorem ofHistory_induction {P : Graph → Prop} (hempty : P empty)
    (happly : ∀ g op, P g → P (g.apply op)) (history : List Operation) :
    P (ofHistory history) := by
  induction history using List.reverseRecOn with
  | nil => exact hempty
  | append_singleton history op ih =>
    rw [ofHistory_concat]
    exact happly _ op ih

/-- The two maps of such a graph tell the same. -/
theorem consistent_ofHistory (history : List Operation) : (ofHistory history).Consistent := by
  refine ofHistory_induction consistent_empty (fun g op hg => ?_) history
  cases op with
  | register importer targets => exact hg.register importer targets
  | observe p => exact hg.observe p
  | removeOutgoing importer => exact hg.removeOutgoing importer

/-- The two maps of such a graph have no empty sets. -/
theorem isFilled_ofHistory (history : List Operation) : (ofHistory history).IsFilled := by
  refine ofHistory_induction IsFilled.empty (fun g op hg => ?_) history
  cases op with
  | register importer targets => exact hg.register importer targets
  | observe p => exact hg.observe p
  | removeOutgoing importer => exact hg.removeOutgoing importer

/-- The edges that registering adds, as a history tells them. -/
theorem edge_register_iff {targets : List Path} : (g.register p targets).Edge t i
    ↔ g.Edge t i ∨ p.same i = true ∧ t.isIn targets = true ∧ t.same i = false := by
  rw [edge_register, same_comm p i]
  refine or_congr_right (and_congr_right fun hi => ?_)
  rw [isIn_iff]
  constructor
  · rintro ⟨u, hu, hut, hne⟩
    refine ⟨⟨u, hu, by rw [same_comm]; exact hut⟩, ?_⟩
    rw [← same_congr_left hut, same_congr_right hi]
    exact hne
  · rintro ⟨⟨u, hu, htu⟩, hne⟩
    refine ⟨u, hu, by rw [same_comm]; exact htu, ?_⟩
    rw [← same_congr_left htu, ← same_congr_right hi]
    exact hne

/-- **The edges are those that were registered.** -/
theorem edge_ofHistory : (ofHistory history).Edge t i ↔ Registered history t i := by
  induction history using List.reverseRecOn with
  | nil => exact iff_of_false not_edge_empty not_registered_nil
  | append_singleton history op ih =>
    rw [ofHistory_concat, registered_concat, ← ih]
    cases op with
    | register importer targets =>
      show ((ofHistory history).register importer targets).Edge t i ↔ _
      rw [edge_register_iff]
      simp
    | observe p =>
      show ((ofHistory history).observe p).2.Edge t i ↔ _
      rw [edge_observe]
      simp
    | removeOutgoing importer =>
      show ((ofHistory history).removeOutgoing importer).Edge t i ↔ _
      rw [edge_removeOutgoing (consistent_ofHistory history), same_comm i importer]
      simp

/-- **The files that were seen are those that were observed.** -/
theorem hasSeen_ofHistory : (ofHistory history).hasSeen p = true ↔ Observed history p := by
  induction history using List.reverseRecOn with
  | nil =>
    refine iff_of_false (fun h => ?_) fun ⟨q, hq, _⟩ => absurd hq List.not_mem_nil
    cases h
  | append_singleton history op ih =>
    have hconcat : Observed (history ++ [op]) p
        ↔ Observed history p ∨ ∃ q, op = .observe q ∧ q.same p = true := by
      unfold Observed
      simp only [List.mem_append, List.mem_singleton, or_and_right, exists_or, eq_comm]
    rw [ofHistory_concat, hconcat, ← ih]
    cases op with
    | register importer targets =>
      show p.isIn ((ofHistory history).register importer targets).seen = true ↔ _
      rw [seen_register]
      simp [hasSeen]
    | observe q =>
      show ((ofHistory history).observe q).2.hasSeen p = true ↔ _
      rw [hasSeen_observe, same_comm p q]
      simp
    | removeOutgoing importer =>
      show p.isIn ((ofHistory history).removeOutgoing importer).seen = true ↔ _
      rw [seen_removeOutgoing]
      simp [hasSeen]

/-- **The graph follows its history.** After any operations on the empty
graph, a file is among the importers of a target exactly when the target is
among its imports. No file imports itself, and no set that is stored is
empty. There is an edge exactly where the importer was registered for the
target, another file, after its edges were last removed. To remove the edges
of an importer changes no edge of another one, in either map. And a file is
observed for the first time exactly when it was not observed before.

The first three are kept by each operation. Removing edges depends on the
first: it goes through the imports of the importer and takes it out of the
sets of their importers, which leaves no edge behind only if the two maps
agree before. -/
theorem follows_history (history : List Operation) :
    (∀ t i, (ofHistory history).Edge t i ↔ (ofHistory history).Lists i t)
      ∧ (∀ t i, (ofHistory history).Edge t i → t.same i = false)
      ∧ (∀ e ∈ (ofHistory history).importers, e.2 ≠ [])
      ∧ (∀ e ∈ (ofHistory history).imports, e.2 ≠ [])
      ∧ (∀ t i, (ofHistory history).Edge t i ↔ Registered history t i)
      ∧ (∀ i t j, j.same i = false →
          (((ofHistory history).removeOutgoing i).Edge t j ↔ (ofHistory history).Edge t j)
            ∧ (((ofHistory history).removeOutgoing i).Lists j t ↔ (ofHistory history).Lists j t))
      ∧ ∀ p, ((ofHistory history).observe p).1 = .first ↔ ¬Observed history p := by
  have hconsistent := consistent_ofHistory history
  have hfilled := isFilled_ofHistory history
  refine ⟨fun t i => (hconsistent.lists_iff t i).symm, hconsistent.not_same, hfilled.importers,
    hfilled.imports, fun t i => edge_ofHistory, fun i t j hne => ⟨?_, ?_⟩, fun p => ?_⟩
  · rw [edge_removeOutgoing hconsistent]
    exact and_iff_left hne
  · rw [lists_removeOutgoing]
    exact and_iff_left hne
  · rw [observe_fst, ← hasSeen_ofHistory]
    split
    · rename_i hseen
      simp [hseen]
    · rename_i hseen
      simp [hseen]

end Graph

end Stylebook
