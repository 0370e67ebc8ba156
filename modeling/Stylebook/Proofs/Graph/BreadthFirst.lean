import Mathlib.Order.Lattice.Nat
import Stylebook.Proofs.Graph.Cascade
import Stylebook.Proofs.Graph.History
import Stylebook.Proofs.Path.Order

/-!
# The order of the cascade

That the cascade of a file lists what depends on it, each file once, is in
`Stylebook.Proofs.Graph.Cascade`. This module is about the order. The
*distance* of a file is the number of edges on a shortest way to it, and its
*finder* is the first file in the order of the walk that it imports. Nearer
files come first, and of the files with one finder the smaller path comes
first (`Graph.isBreadthFirst_cascade`).

The invariant is that of a queue with two levels (`Graph.Layered`): what was
found so far is in the order of distances, and no file found is farther than
one edge behind the files that wait. It rests on one fact about ways. A way
to a file that was not found yet leaves what was found at a file that waits
(`Graph.exists_waiting_of_way`), so the files that a step finds are one edge
farther than the file that leads to them.
-/

namespace Stylebook

open Stylebook.Path

namespace Graph

variable {g : Graph} {edited current p q i : Path} {n : Nat}
  {order queue walked nodes result : List Path}

/-! ## Ways and distances

Distances are not computed by the program. They are what its order is about,
so they are defined by the edges alone. -/

/-- **A way of `n` edges** from a file to one that depends on it. -/
inductive Way (g : Graph) (edited : Path) : Nat → Path → Prop
  | start {p : Path} (hsame : edited.same p = true) : Way g edited 0 p
  | step {n : Nat} {q p : Path} (hway : Way g edited n q) (hedge : g.Edge q p) :
      Way g edited (n + 1) p

/-- **The distance of a file**: how many edges a shortest way to it has. It
means something for files to which there is a way. -/
noncomputable def distance (g : Graph) (edited p : Path) : Nat := sInf {n | g.Way edited n p}

/-- No way is shorter than the distance. -/
theorem Way.distance_le (h : g.Way edited n p) : g.distance edited p ≤ n := Nat.sInf_le h

/-- If there is a way at all, there is one as short as the distance. -/
theorem Way.shortest (h : g.Way edited n p) : g.Way edited (g.distance edited p) p :=
  Nat.sInf_mem (s := {n | g.Way edited n p}) ⟨n, h⟩

/-- Ways do not see how a path is spelled. -/
theorem Way.congr (h : g.Way edited n p) (hpq : p.same q = true) : g.Way edited n q := by
  cases h with
  | start hsame => exact .start (same_trans hsame hpq)
  | step hway hedge => exact .step hway (hedge.congr (same_refl _) hpq)

/-- What depends on a file can be reached from it by some way. -/
theorem exists_way_of_transGen (h : Relation.TransGen g.Edge edited p) :
    ∃ n, g.Way edited n p := by
  induction h with
  | single hedge => exact ⟨1, .step (.start (same_refl edited)) hedge⟩
  | tail _ hedge ih =>
    obtain ⟨n, hway⟩ := ih
    exact ⟨n + 1, .step hway hedge⟩

/-- There is a way to every file that was found. -/
theorem Walk.exists_way (h : Walk g edited order queue) (hp : p ∈ edited :: order) :
    ∃ n, g.Way edited n p := by
  rcases List.mem_cons.mp hp with rfl | hp
  · exact ⟨0, .start (same_refl p)⟩
  · exact exists_way_of_transGen (h.reached p hp)

/-- **A way to a file that was not found yet** goes through a file that
waits. -/
theorem exists_waiting_of_way (h : Walk g edited order queue) (hway : g.Way edited n p)
    (hp : p.isIn (edited :: order) = false) : ∃ c ∈ queue, g.distance edited c < n := by
  induction hway with
  | start hsame =>
    rw [← isIn_congr hsame, isIn_of_mem List.mem_cons_self] at hp
    cases hp
  | @step n q p hway hedge ih =>
    cases hq : q.isIn (edited :: order) with
    | false =>
      obtain ⟨c, hc, hlt⟩ := ih hq
      exact ⟨c, hc, Nat.lt_succ_of_lt hlt⟩
    | true =>
      -- the last edge leaves what was found, so it starts at a file that is not closed
      obtain ⟨r, hr, hsame⟩ := isIn_iff.mp hq
      rcases h.closed r hr with hwaits | hclosed
      · exact ⟨r, hwaits, Nat.lt_succ_of_le (hway.congr hsame).distance_le⟩
      · rw [hclosed p (hedge.congr hsame (same_refl p))] at hp
        cases hp

/-! ## Finders

Among files at the same distance the order is that of their finders, and
after that the order of paths. So the finder is told by the order in which
files are walked. -/

/-- **The finder of a file**: the first one of some files that it imports. -/
def finder (g : Graph) (nodes : List Path) (p : Path) : Option Path :=
  nodes.find? fun q => p.isIn (PathMap.setAt g.importers q)

/-- The finder is one of the files. -/
theorem mem_of_finder (h : g.finder nodes p = some q) : q ∈ nodes := List.mem_of_find?_eq_some h

/-- The finder has an edge to the file that it finds. -/
theorem edge_of_finder (h : g.finder nodes p = some q) : g.Edge q p := by
  unfold finder at h
  have hfound := List.find?_some h
  exact hfound

/-- A finder stays when more files follow. -/
theorem finder_append (h : g.finder nodes p = some q) (more : List Path) :
    g.finder (nodes ++ more) p = some q := by
  unfold finder at h ⊢
  rw [List.find?_append, h]
  rfl

/-- A file that was not found before is found by the first file with an edge
to it. -/
theorem finder_concat (hnone : ∀ r ∈ nodes, ¬g.Edge r p) (hedge : g.Edge q p) :
    g.finder (nodes ++ [q]) p = some q := by
  have hbefore : nodes.find? (fun r => p.isIn (PathMap.setAt g.importers r)) = none :=
    List.find?_eq_none.mpr hnone
  unfold finder
  rw [List.find?_append, hbefore, Option.none_or]
  exact List.find?_cons_of_pos hedge

/-! ## The queue with two levels

The files that wait are at one distance at first, and then those behind are
one edge farther. When the last of the nearer ones has had its turn, the
farther ones are the nearer ones. At no time do three distances wait. -/

/-- **What holds of the order of the files** that were found. Those that do
not wait any more are `walked`. -/
structure Layered (g : Graph) (edited : Path) (walked order queue : List Path) : Prop where
  split : edited :: order = walked ++ queue
  sorted : (edited :: order).Pairwise fun p q => g.distance edited p ≤ g.distance edited q
  near : ∀ p ∈ edited :: order, ∀ c ∈ queue, g.distance edited p ≤ g.distance edited c + 1
  found : ∀ p ∈ order, ∃ q, g.finder walked p = some q
  ascending : order.Pairwise fun p q =>
    g.finder walked p = g.finder walked q → p.order q = .lt

namespace Layered

theorem start (g : Graph) (edited : Path) : Layered g edited [] [] [edited] where
  split := rfl
  sorted := List.pairwise_singleton _ _
  near p hp c hc := by
    rw [List.mem_singleton.mp hp, List.mem_singleton.mp hc]
    exact Nat.le_succ _
  found := by simp
  ascending := List.Pairwise.nil

variable (h : Layered g edited walked order (current :: queue))
  (hwalk : Walk g edited order (current :: queue))

include h

/-- The file whose turn it is does not come after those that wait behind it. -/
theorem distance_le (hq : q ∈ current :: queue) :
    g.distance edited current ≤ g.distance edited q := by
  rcases List.mem_cons.mp hq with rfl | hq
  · exact Nat.le_refl _
  · have hsorted := h.sorted
    rw [h.split] at hsorted
    exact List.rel_of_pairwise_cons (List.pairwise_append.mp hsorted).2.1 hq

include hwalk

/-- A file that was walked is not the one whose turn it is. -/
theorem ne_of_mem_walked (hq : q ∈ walked) : q ≠ current := by
  rintro rfl
  have hdistinct := hwalk.distinct
  rw [h.split] at hdistinct
  have hself := (List.pairwise_append.mp hdistinct).2.2 q hq q List.mem_cons_self
  rw [same_refl] at hself
  cases hself

/-- No file that was walked leads to one that was not found. -/
theorem not_edge_of_mem_walked (hq : q ∈ walked) (hp : p.isIn (edited :: order) = false) :
    ¬g.Edge q p := by
  intro hedge
  have hmem : q ∈ edited :: order := h.split ▸ List.mem_append_left _ hq
  rcases hwalk.closed q hmem with hwaits | hclosed
  · have hdistinct := hwalk.distinct
    rw [h.split] at hdistinct
    have hself := (List.pairwise_append.mp hdistinct).2.2 q hq q hwaits
    rw [same_refl] at hself
    cases hself
  · rw [hclosed p hedge] at hp
    cases hp

variable (hp : p ∈ unvisited (edited :: order) (g.dependents current))

include hp

/-- **A file that a step finds** is one edge farther than the file that
leads to it. -/
theorem distance_of_unvisited : g.distance edited p = g.distance edited current + 1 := by
  have hedge : g.Edge current p := isIn_of_mem (mem_dependents.mp (mem_of_mem_unvisited hp))
  obtain ⟨n, hway⟩ := hwalk.exists_way (hwalk.queued current List.mem_cons_self)
  have hlong : g.Way edited (g.distance edited current + 1) p := .step hway.shortest hedge
  refine Nat.le_antisymm hlong.distance_le ?_
  obtain ⟨c, hc, hlt⟩ := exists_waiting_of_way hwalk hlong.shortest (isIn_of_mem_unvisited hp)
  exact Nat.lt_of_le_of_lt (h.distance_le hc) hlt

theorem finder_of_unvisited : g.finder (walked ++ [current]) p = some current :=
  finder_concat (fun _ hr => h.not_edge_of_mem_walked hwalk hr (isIn_of_mem_unvisited hp))
    (isIn_of_mem (mem_dependents.mp (mem_of_mem_unvisited hp)))

omit hp

/-- **One step keeps the order.** -/
theorem step : Layered g edited (walked ++ [current])
    (order ++ unvisited (edited :: order) (g.dependents current))
    (queue ++ unvisited (edited :: order) (g.dependents current)) := by
  have hdistance := fun p => h.distance_of_unvisited hwalk (p := p)
  have hfinder := fun p => h.finder_of_unvisited hwalk (p := p)
  constructor
  case split =>
    rw [← List.cons_append, h.split]
    simp
  case sorted =>
    rw [← List.cons_append, List.pairwise_append]
    refine ⟨h.sorted, List.pairwise_of_forall_mem_list fun p hp q hq => ?_, fun p hp q hq => ?_⟩
    · rw [hdistance p hp, hdistance q hq]
    · rw [hdistance q hq]
      exact h.near p hp current List.mem_cons_self
  case near =>
    intro p hp c hc
    rw [← List.cons_append] at hp
    rcases List.mem_append.mp hp with hp | hp <;> rcases List.mem_append.mp hc with hc | hc
    · exact h.near p hp c (List.mem_cons_of_mem _ hc)
    · rw [hdistance c hc]
      exact (h.near p hp current List.mem_cons_self).trans (Nat.le_succ _)
    · rw [hdistance p hp]
      exact Nat.succ_le_succ (h.distance_le (List.mem_cons_of_mem _ hc))
    · rw [hdistance p hp, hdistance c hc]
      exact Nat.le_succ _
  case found =>
    intro p hp
    rcases List.mem_append.mp hp with hp | hp
    · obtain ⟨q, hq⟩ := h.found p hp
      exact ⟨q, finder_append hq _⟩
    · exact ⟨current, hfinder p hp⟩
  case ascending =>
    rw [List.pairwise_append]
    refine ⟨?old, ?new, ?across⟩
    case old =>
      refine h.ascending.imp_of_mem fun hp hq hlt heq => ?_
      obtain ⟨r, hr⟩ := h.found _ hp
      obtain ⟨t, ht⟩ := h.found _ hq
      rw [finder_append hr, finder_append ht] at heq
      exact hlt (hr.trans (heq.trans ht.symm))
    case new =>
      have hsorted : (unvisited (edited :: order) (g.dependents current)).Pairwise
          fun p q => p.le q = true := (pairwise_sort _).sublist sublist_unvisited
      exact hsorted.imp₂ (fun p q hle hne _ => order_eq_lt hle hne) pairwise_unvisited
    case across =>
      -- the finder of an old file was walked before, that of a new one is walked now
      intro p hp q hq heq
      obtain ⟨r, hr⟩ := h.found p hp
      rw [finder_append hr, hfinder q hq] at heq
      exact absurd (Option.some.inj heq) (h.ne_of_mem_walked hwalk (mem_of_finder hr))

end Layered

/-- **The loop keeps the order until its end.** -/
theorem Walks.layered (h : Walks g edited order queue result) (hwalk : Walk g edited order queue)
    (hlayered : Layered g edited walked order queue) :
    Layered g edited (edited :: result) result [] := by
  induction h generalizing walked with
  | done =>
    have hsplit := hlayered.split
    rw [List.append_nil] at hsplit
    exact hsplit ▸ hlayered
  | next _ ih => exact ih hwalk.step (hlayered.step hwalk)

/-! ## The cascade -/

/-- **A list of what depends on a file, breadth first.** -/
structure IsBreadthFirst (g : Graph) (edited : Path) (order : List Path) : Prop where
  /-- The loop of the walk ends, and it ends with the list. -/
  ends : ∀ result, Walks g edited [] [edited] result ↔ result = order
  /-- No file comes twice, and the file itself does not come at all. -/
  distinct : Path.Distinct (edited :: order)
  /-- The files are those that can be reached by one edge or more. -/
  isIn_iff : ∀ p, p.isIn order = true
    ↔ Relation.TransGen g.Edge edited p ∧ edited.same p = false
  /-- Nearer files come first. -/
  sorted : order.Pairwise fun p q => g.distance edited p ≤ g.distance edited q
  /-- Each file has an edge from its finder, which comes before it or is the
  edited file. -/
  found : ∀ p ∈ order, ∃ q ∈ edited :: order, g.finder (edited :: order) p = some q ∧ g.Edge q p
  /-- The files with one finder come in the order of their paths. -/
  ascending : order.Pairwise fun p q =>
    g.finder (edited :: order) p = g.finder (edited :: order) q → p.order q = .lt

/-- **The cascade is breadth first**, in every graph that operations lead
to.

The loop over the work list is a walk, and a walk is determined by where it
starts. Of its steps one keeps that the files found so far come in layers by
their distance, the work list being the end of the last layer but one and
the layer that is being found. The two maps of the graph agree after any
operations, which is why the files that are found are those that depend on
the edited one. -/
theorem isBreadthFirst_cascade (history : List Operation) (edited : Path) :
    IsBreadthFirst (ofHistory history) edited ((ofHistory history).cascade edited) := by
  have hconsistent := consistent_ofHistory history
  have hwalks := walks_cascade hconsistent edited
  have hlayered := hwalks.layered (Walk.start _ edited) (Layered.start _ edited)
  constructor
  case ends =>
    refine fun result => ⟨fun h => h.unique hwalks, ?_⟩
    rintro rfl
    exact hwalks
  case distinct => exact (walk_cascade hconsistent edited).distinct
  case isIn_iff => exact fun p => isIn_cascade_iff hconsistent
  case sorted => exact hlayered.sorted.tail
  case found =>
    intro p hp
    obtain ⟨q, hq⟩ := hlayered.found p hp
    exact ⟨q, mem_of_finder hq, hq, edge_of_finder hq⟩
  case ascending => exact hlayered.ascending

end Graph

end Stylebook
