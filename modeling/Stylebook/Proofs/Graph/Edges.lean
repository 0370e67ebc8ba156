import Mathlib.Tactic.Tauto
import Stylebook.Graph
import Stylebook.Proofs.Path.Keys

/-!
# The edges of the import graph

The graph keeps each edge twice, once for either end. `Graph.Edge` reads it
from the file that is imported to the one that imports it, which is the way
a change travels, and `Graph.Consistent` says that the other map tells the
same. Every operation of the graph keeps it so, and changes the edges as its
name says: registering adds those of one importer, removing takes those of
one importer away, and observing touches none.

That the edges are kept twice is for speed. To remove a file, the files that
it imports have to be found without going through the graph, and for a
cascade it is the files that import it. The price is that the two may come
apart; a cascade would then not agree with what was registered, and nothing
in the program would notice.
-/

namespace Stylebook

open Stylebook.Path

/-! ## Maps of sets

A path without an entry has the empty set. Read in this way, a map whose
sets may become empty and be taken out looks the same before and after, and
each operation is an equation. -/

namespace PathMap

variable {m : PathMap PathSet} {key member p q : Path}

/-- The set of a path, which is empty where there is none. -/
def setAt (m : PathMap PathSet) (p : Path) : PathSet := (get? m p).getD []

/-- The spelling of the path does not matter. -/
theorem setAt_congr (h : p.same q = true) (m : PathMap PathSet) : setAt m p = setAt m q := by
  rw [setAt, setAt, get?_congr h]

/-- Setting the set of one path leaves those of the others. -/
theorem setAt_set (m : PathMap PathSet) (p q : Path) (s : PathSet) :
    setAt (set m p s) q = if p.same q = true then s else setAt m q := by
  rw [setAt, get?_set]
  split <;> rfl

/-- Taking out the set of one path leaves those of the others. -/
theorem setAt_erase (m : PathMap PathSet) (p q : Path) :
    setAt (erase m p) q = if p.same q = true then [] else setAt m q := by
  rw [setAt, get?_erase]
  split <;> rfl

/-- Adding to a set adds one member to one set. -/
theorem isIn_setAt_addTo : p.isIn (setAt (Graph.addTo m key member) q) = true
    ↔ p.isIn (setAt m q) = true ∨ key.same q = true ∧ p.same member = true := by
  rw [Graph.addTo, setAt_set]
  by_cases hq : key.same q = true
  · rw [if_pos hq, PathSet.isIn_insert, ← setAt, setAt_congr hq]
    simp [hq]
  · rw [if_neg hq]
    simp [hq]

/-- Taking a path out of the set of one key. -/
theorem setAt_removeFrom : setAt (Graph.removeFrom m key member) q
    = if key.same q = true then (setAt m q).erase member else setAt m q := by
  have hat : key.same q = true → setAt m q = (get? m key).getD [] := by
    intro hq
    rw [setAt, get?_congr hq]
  unfold Graph.removeFrom
  split
  · rename_i hget
    split
    · rename_i hq
      rw [hat hq, hget]
      rfl
    · rfl
  · rename_i s hget
    rw [hget] at hat
    dsimp only
    split
    · -- a set that becomes empty is dropped, and none is read as an empty one
      rename_i hempty
      rw [setAt_erase]
      split
      · rename_i hq
        rw [hat hq]
        exact (List.isEmpty_iff.mp hempty).symm
      · rfl
    · rw [setAt_set]
      split
      · rename_i hq
        rw [hat hq]
        rfl
      · rfl

/-- Removing takes one member out of one set. -/
theorem isIn_setAt_removeFrom : p.isIn (setAt (Graph.removeFrom m key member) q) = true
    ↔ p.isIn (setAt m q) = true ∧ ¬(key.same q = true ∧ p.same member = true) := by
  rw [setAt_removeFrom]
  by_cases hq : key.same q = true
  · rw [if_pos hq, PathSet.isIn_erase]
    simp [hq]
  · rw [if_neg hq]
    simp [hq]

/-- What is in the set of a path stands in the map, under a spelling of the
path. -/
theorem exists_of_mem_setAt (h : p ∈ setAt m q) : ∃ k s, (k, s) ∈ m ∧ k.same q = true ∧ p ∈ s := by
  rw [setAt] at h
  cases hget : get? m q with
  | none =>
    rw [hget] at h
    cases h
  | some s =>
    rw [hget] at h
    obtain ⟨k, hk, hsame⟩ := mem_of_get? hget
    exact ⟨k, s, hk, hsame, h⟩

end PathMap

namespace Graph

variable {g : Graph} {p i t : Path}

/-- **An edge of the graph**, from a file to one that imports it. -/
def Edge (g : Graph) (t i : Path) : Prop := i.isIn (PathMap.setAt g.importers t) = true

/-- The same edge, as it is kept for the other end. -/
def Lists (g : Graph) (i t : Path) : Prop := t.isIn (PathMap.setAt g.imports i) = true

/-- **A graph whose two maps tell the same**, without a file that imports
itself. -/
structure Consistent (g : Graph) : Prop where
  lists_iff : ∀ t i, g.Lists i t ↔ g.Edge t i
  not_same : ∀ t i, g.Edge t i → t.same i = false

/-- Edges do not see how a path is spelled. -/
theorem Edge.congr {t' i' : Path} (h : g.Edge t i) (ht : t.same t' = true)
    (hi : i.same i' = true) : g.Edge t' i' := by
  rw [Edge, ← PathMap.setAt_congr ht, ← isIn_congr hi]
  exact h

/-- The empty graph has no edges. -/
theorem not_edge_empty : ¬empty.Edge t i := by
  intro h
  cases h

/-- The two maps of the empty graph agree. -/
theorem consistent_empty : empty.Consistent :=
  ⟨fun _ _ => Iff.rfl, fun _ _ h => absurd h not_edge_empty⟩

/-! ## Registering

A file is registered with all that it imports. One target at a time the edge
is put into both maps, unless the target is the file itself: a stylesheet
that imports itself depends on no other because of that. -/

/-- One target gives one edge, seen from the file that is imported. -/
theorem edge_registerOne {importer target : Path} : (registerOne importer g target).Edge t i
    ↔ g.Edge t i
      ∨ target.same importer = false ∧ target.same t = true ∧ i.same importer = true := by
  unfold registerOne
  by_cases h : target.same importer = true
  · rw [if_pos h]
    simp [h]
  · rw [if_neg h, Edge, PathMap.isIn_setAt_addTo, Edge]
    simp [h]

/-- One target gives one edge, seen from the file that imports it. -/
theorem lists_registerOne {importer target : Path} : (registerOne importer g target).Lists i t
    ↔ g.Lists i t
      ∨ target.same importer = false ∧ target.same t = true ∧ i.same importer = true := by
  unfold registerOne
  by_cases h : target.same importer = true
  · rw [if_pos h]
    simp [h]
  · rw [if_neg h, Lists, PathMap.isIn_setAt_addTo, Lists, same_comm importer i, same_comm t target]
    simp [h, and_comm]

/-- So the two maps keep telling the same, -/
theorem Consistent.registerOne (hg : g.Consistent) (importer target : Path) :
    (registerOne importer g target).Consistent := by
  refine ⟨fun t i => ?_, fun t i h => ?_⟩
  · rw [lists_registerOne, edge_registerOne, hg.lists_iff]
  · rcases edge_registerOne.mp h with h | ⟨hnot, ht, hi⟩
    · exact hg.not_same t i h
    · rw [← same_congr_left ht, same_congr_right hi]
      exact hnot

/-- **Registering adds the edges to one importer**, from every target but
itself. -/
theorem edge_register {targets : List Path} : (g.register p targets).Edge t i
    ↔ g.Edge t i ∨ i.same p = true ∧ ∃ u ∈ targets, u.same t = true ∧ u.same p = false := by
  unfold register
  induction targets generalizing g with
  | nil => simp
  | cons u targets ih =>
    rw [List.foldl_cons, ih, edge_registerOne]
    simp only [List.mem_cons, exists_eq_or_imp]
    tauto

/-- The two maps agree after registering, as each target is put into both. -/
theorem Consistent.register (hg : g.Consistent) (p : Path) (targets : List Path) :
    (g.register p targets).Consistent := by
  unfold Graph.register
  induction targets generalizing g with
  | nil => exact hg
  | cons u targets ih => exact ih (hg.registerOne p u)

/-- Registering marks no file as seen. -/
theorem seen_register (g : Graph) (p : Path) (targets : List Path) :
    (g.register p targets).seen = g.seen := by
  unfold register
  induction targets generalizing g with
  | nil => rfl
  | cons u targets ih =>
    rw [List.foldl_cons, ih, registerOne]
    split <;> rfl

/-! ## Observing

Being seen is apart from the edges. A file may be seen without edges, and
one that was never seen may have some. -/

@[simp] theorem importers_observe (g : Graph) (p : Path) :
    (g.observe p).2.importers = g.importers := by
  unfold observe
  split <;> rfl

@[simp] theorem imports_observe (g : Graph) (p : Path) : (g.observe p).2.imports = g.imports := by
  unfold observe
  split <;> rfl

/-- Observing a file leaves the edges as they are: it only remembers that
the file was seen. -/
theorem edge_observe : (g.observe p).2.Edge t i ↔ g.Edge t i := by
  rw [Edge, Edge, importers_observe]

theorem Consistent.observe (hg : g.Consistent) (p : Path) : (g.observe p).2.Consistent := by
  refine ⟨fun t i => ?_, fun t i h => hg.not_same t i (edge_observe.mp h)⟩
  rw [Lists, imports_observe, edge_observe]
  exact hg.lists_iff t i

/-- **Observing marks one file as seen.** -/
theorem hasSeen_observe {q : Path} :
    (g.observe p).2.hasSeen q = true ↔ g.hasSeen q = true ∨ q.same p = true := by
  unfold observe hasSeen
  by_cases h : p.isIn g.seen = true
  · rw [if_pos h]
    refine ⟨Or.inl, fun hq => hq.elim id fun hqp => ?_⟩
    rw [isIn_congr hqp]
    exact h
  · rw [if_neg h, isIn_append]
    simp [isIn]

/-- The answer tells whether the file was seen before. -/
theorem observe_fst : (g.observe p).1 = if g.hasSeen p = true then .repeated else .first := by
  unfold observe hasSeen
  split <;> rfl

/-! ## Removing

To remove a file its own set of imports is read first, and then it is taken
out of the set of each of these. This is where the two maps have to agree:
an edge that only the other map has would not be found. -/

/-- Taking a path out of several sets. -/
theorem isIn_foldl_removeFrom {m : PathMap PathSet} {targets : List Path} {x q : Path} :
    x.isIn (PathMap.setAt (targets.foldl (fun m t => removeFrom m t p) m) q) = true
      ↔ x.isIn (PathMap.setAt m q) = true
        ∧ ¬((∃ t ∈ targets, t.same q = true) ∧ x.same p = true) := by
  induction targets generalizing m with
  | nil => simp
  | cons t targets ih =>
    rw [List.foldl_cons, ih, PathMap.isIn_setAt_removeFrom, and_assoc, ← not_or, ← or_and_right]
    simp only [List.mem_cons, exists_eq_or_imp]

/-- **Removing takes away the edges to one importer.** -/
theorem edge_removeOutgoing (hg : g.Consistent) :
    (g.removeOutgoing p).Edge t i ↔ g.Edge t i ∧ i.same p = false := by
  unfold removeOutgoing
  cases hget : PathMap.get? g.imports p with
  | none =>
    refine ⟨fun h => ⟨h, ?_⟩, fun h => h.1⟩
    rw [← Bool.not_eq_true]
    intro hip
    have hlists := (hg.lists_iff t i).mpr h
    rw [Lists, PathMap.setAt, PathMap.get?_congr hip, hget] at hlists
    cases hlists
  | some targets =>
    show i.isIn (PathMap.setAt (targets.foldl (fun m t => removeFrom m t p) g.importers) t) = true
      ↔ _
    rw [isIn_foldl_removeFrom]
    refine and_congr_right fun hedge => ?_
    have hlists : i.same p = true → ∃ u ∈ targets, u.same t = true := by
      intro hip
      have hin := (hg.lists_iff t i).mpr hedge
      rw [Lists, PathMap.setAt, PathMap.get?_congr hip, hget, Option.getD_some, isIn_iff] at hin
      obtain ⟨u, hu, hsame⟩ := hin
      exact ⟨u, hu, by rw [same_comm]; exact hsame⟩
    cases hip : i.same p with
    | false => simp
    | true => simp [hlists hip]

/-- So does the other map. -/
theorem lists_removeOutgoing :
    (g.removeOutgoing p).Lists i t ↔ g.Lists i t ∧ i.same p = false := by
  unfold removeOutgoing
  cases hget : PathMap.get? g.imports p with
  | none =>
    refine ⟨fun h => ⟨h, ?_⟩, fun h => h.1⟩
    rw [← Bool.not_eq_true]
    intro hip
    rw [Lists, PathMap.setAt, PathMap.get?_congr hip, hget] at h
    cases h
  | some targets =>
    show t.isIn (PathMap.setAt (PathMap.erase g.imports p) i) = true ↔ _
    rw [PathMap.setAt_erase, same_comm p i]
    cases hip : i.same p with
    | false => simp [Lists]
    | true => simp [isIn]

/-- The two keep telling the same. -/
theorem Consistent.removeOutgoing (hg : g.Consistent) (p : Path) :
    (g.removeOutgoing p).Consistent := by
  refine ⟨fun t i => ?_, fun t i h => hg.not_same t i ((edge_removeOutgoing hg).mp h).1⟩
  rw [lists_removeOutgoing, edge_removeOutgoing hg, hg.lists_iff]

/-- What was seen stays so. A file that is created again is not a new one. -/
theorem seen_removeOutgoing (g : Graph) (p : Path) : (g.removeOutgoing p).seen = g.seen := by
  unfold removeOutgoing
  split <;> rfl

/-! ## Importers

An edge ends in a file that was registered, in the spelling in which it was.
So the files of a cascade are among those that the engine was told of. -/

/-- **The importers of a graph are among some files**, by their spelling. -/
def ImportersIn (g : Graph) (sheets : List Path) : Prop :=
  ∀ e ∈ g.importers, ∀ i ∈ e.2, i ∈ sheets

variable {sheets : List Path}

/-- The empty graph has no importers. -/
theorem importersIn_empty : empty.ImportersIn sheets := fun _ he => absurd he List.not_mem_nil

/-- They are among more files, too. -/
theorem ImportersIn.mono {sheets' : List Path} (h : g.ImportersIn sheets)
    (hsub : ∀ p ∈ sheets, p ∈ sheets') : g.ImportersIn sheets' :=
  fun e he i hi => hsub i (h e he i hi)

/-- Registering a file makes it an importer, and no other. -/
theorem ImportersIn.register (h : g.ImportersIn sheets) (hp : p ∈ sheets) (targets : List Path) :
    (g.register p targets).ImportersIn sheets := by
  unfold Graph.register
  induction targets generalizing g with
  | nil => exact h
  | cons u targets ih =>
    refine ih fun e he i hi => ?_
    unfold registerOne at he
    split at he
    · exact h e he i hi
    · rcases PathMap.mem_set he with heq | he
      · rw [heq] at hi
        rcases PathSet.mem_insert hi with hi | rfl
        · obtain ⟨q, s, hq, -, hi⟩ := PathMap.exists_of_mem_setAt hi
          exact h _ hq i hi
        · exact hp
      · exact h e he i hi

theorem ImportersIn.observe (h : g.ImportersIn sheets) (p : Path) :
    (g.observe p).2.ImportersIn sheets := by
  rw [ImportersIn, importers_observe]
  exact h

/-- Taking a path out of sets adds nothing to them. -/
theorem mem_of_foldl_removeFrom {m : PathMap PathSet} (targets : List Path)
    (h : ∀ e ∈ m, ∀ i ∈ e.2, i ∈ sheets) :
    ∀ e ∈ targets.foldl (fun m t => removeFrom m t p) m, ∀ i ∈ e.2, i ∈ sheets := by
  induction targets generalizing m with
  | nil => exact h
  | cons t targets ih =>
    refine ih fun e he i hi => ?_
    change e ∈ removeFrom m t p at he
    unfold removeFrom at he
    split at he
    · exact h e he i hi
    · rename_i s hget
      obtain ⟨q, hq, -⟩ := PathMap.mem_of_get? hget
      dsimp only at he
      split at he
      · exact h e (PathMap.mem_of_mem_erase he) i hi
      · rcases PathMap.mem_set he with heq | he
        · rw [heq] at hi
          exact h _ hq i (PathSet.mem_of_mem_erase hi)
        · exact h e he i hi

/-- Removing the edges of a file makes no importers. -/
theorem ImportersIn.removeOutgoing (h : g.ImportersIn sheets) (p : Path) :
    (g.removeOutgoing p).ImportersIn sheets := by
  unfold Graph.removeOutgoing
  split
  · exact h
  · exact mem_of_foldl_removeFrom _ h

end Graph

end Stylebook
