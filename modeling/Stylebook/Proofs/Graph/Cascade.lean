import Mathlib.Data.List.Perm.Subperm
import Mathlib.Logic.Relation
import Stylebook.Proofs.Graph.Edges

/-!
# What the cascade lists

The cascade of a file walks breadth first along the edges of the graph.
`Graph.Walk` is what holds after each step of it: the files found are
different ones that can be reached, and whatever imports a file that was
found is found too, unless that file still waits in the queue. The walk
takes as many steps as its bound allows, and the bound is enough, because
every file found imports something and is one of the importing files:
without a bound the loop ends with the same (`Graph.Walks`).

So the cascade lists exactly the files that can be reached, without the one
that it started from (`Graph.isIn_cascade_iff`).
-/

namespace Stylebook

open Stylebook.Path

/-- Different paths that are all on a list are not more than the list has. -/
theorem Path.length_le_of_isIn {ps qs : List Path} (h : ps.Pairwise fun p q => p.same q = false)
    (hsub : ∀ p ∈ ps, p.isIn qs = true) : ps.length ≤ qs.length := by
  have hnodup : (ps.map components).Nodup := by
    refine List.pairwise_map.mpr (h.imp fun {p q} hpq heq => ?_)
    rw [same_iff.mpr heq] at hpq
    cases hpq
  have hsubset : ps.map components ⊆ qs.map components := by
    intro cs hcs
    obtain ⟨p, hp, rfl⟩ := List.mem_map.mp hcs
    obtain ⟨q, hq, hsame⟩ := isIn_iff.mp (hsub p hp)
    exact List.mem_map.mpr ⟨q, hq, (same_iff.mp hsame).symm⟩
  have hlength := (List.subperm_of_subset hnodup hsubset).length_le
  rwa [List.length_map, List.length_map] at hlength

namespace Graph

variable {g : Graph} {edited p i : Path} {visited order queue ps : List Path}

/-! ## The files that a step finds

A step looks at the files that import the one whose turn it is, and takes
those that were not found yet. Files are compared as paths, so a file is not
found twice under two spellings, not even in one step. -/

/-- The files that are found are some of those that are asked for, in their
order. -/
theorem sublist_unvisited : (unvisited visited ps).Sublist ps := by
  induction ps generalizing visited with
  | nil => exact List.Sublist.refl _
  | cons q ps ih =>
    rw [unvisited]
    split
    · exact ih.cons q
    · exact ih.cons_cons q

/-- Each file that is found is one of those that are asked for. -/
theorem mem_of_mem_unvisited (h : p ∈ unvisited visited ps) : p ∈ ps :=
  sublist_unvisited.subset h

/-- None of the files that are found was found before. -/
theorem isIn_of_mem_unvisited (h : p ∈ unvisited visited ps) : p.isIn visited = false := by
  induction ps generalizing visited with
  | nil => cases h
  | cons q ps ih =>
    rw [unvisited] at h
    split at h
    · exact ih h
    · rename_i hq
      rcases List.mem_cons.mp h with rfl | h
      · exact Bool.not_eq_true _ ▸ hq
      · have hp := ih h
        rw [← Bool.not_eq_true, isIn_cons, not_or, Bool.not_eq_true, Bool.not_eq_true] at hp
        exact hp.2

/-- No two of the files that are found are the same. -/
theorem pairwise_unvisited :
    (unvisited visited ps).Pairwise fun p q => p.same q = false := by
  induction ps generalizing visited with
  | nil => exact List.Pairwise.nil
  | cons q ps ih =>
    rw [unvisited]
    split
    · exact ih
    · refine List.Pairwise.cons (fun p hp => ?_) ih
      have hnot := isIn_of_mem_unvisited hp
      rw [← Bool.not_eq_true, isIn_cons, not_or, Bool.not_eq_true] at hnot
      rw [same_comm]
      exact hnot.1

/-- The others were found before. -/
theorem isIn_append_unvisited (h : p ∈ ps) : p.isIn (visited ++ unvisited visited ps) = true := by
  induction ps generalizing visited with
  | nil => cases h
  | cons q ps ih =>
    rw [unvisited]
    rcases List.mem_cons.mp h with rfl | h
    · split
      · rename_i hp
        exact isIn_append.mpr (Or.inl hp)
      · exact isIn_of_mem (List.mem_append_right _ List.mem_cons_self)
    · split
      · exact ih h
      · rcases isIn_append.mp (@ih (q :: visited) h) with hp | hp
        · rcases isIn_cons.mp hp with hp | hp
          · exact isIn_append.mpr (Or.inr (isIn_cons.mpr (Or.inl hp)))
          · exact isIn_append.mpr (Or.inl hp)
        · exact isIn_append.mpr (Or.inr (isIn_cons.mpr (Or.inr hp)))

/-- The files that depend on one are its importers, in order. -/
theorem mem_dependents : i ∈ g.dependents p ↔ i ∈ PathMap.setAt g.importers p := by
  rw [dependents, Path.sort, List.mem_mergeSort]
  rfl

/-! ## The walk

The program bounds its loop by the number of importing files. The bound is a
matter of the language in which it is written here. That it is never met is
shown by counting: each file that is found is a different importer, and each
step uses up one file of the queue. -/

/-- **The loop of the walk**, without a bound on its steps: from what was
found and what waits to what is found in the end. -/
inductive Walks (g : Graph) (edited : Path) : (order queue result : List Path) → Prop
  | done {order : List Path} : Walks g edited order [] order
  | next {order queue result : List Path} {current : Path}
      (hrest : Walks g edited (order ++ unvisited (edited :: order) (g.dependents current))
        (queue ++ unvisited (edited :: order) (g.dependents current)) result) :
      Walks g edited order (current :: queue) result

/-- **What holds of the files found so far and of those that wait.** -/
structure Walk (g : Graph) (edited : Path) (order queue : List Path) : Prop where
  distinct : (edited :: order).Pairwise fun p q => p.same q = false
  reached : ∀ p ∈ order, Relation.TransGen g.Edge edited p
  stored : ∀ p ∈ order, ∃ t, p ∈ PathMap.setAt g.importers t
  queued : ∀ p ∈ queue, p ∈ edited :: order
  closed : ∀ p ∈ edited :: order, p ∈ queue ∨ ∀ i, g.Edge p i → i.isIn (edited :: order) = true

namespace Walk

/-- At the start only the file itself waits. -/
theorem start (g : Graph) (edited : Path) : Walk g edited [] [edited] where
  distinct := List.pairwise_singleton _ _
  reached := by simp
  stored := by simp
  queued := fun _ hp => hp
  closed := fun _ hp => Or.inl hp

/-- One file is taken from the queue, and those that it leads to are found. -/
theorem step {current : Path} (h : Walk g edited order (current :: queue)) :
    Walk g edited (order ++ unvisited (edited :: order) (g.dependents current))
      (queue ++ unvisited (edited :: order) (g.dependents current)) := by
  have hedge : ∀ p ∈ unvisited (edited :: order) (g.dependents current),
      p ∈ PathMap.setAt g.importers current :=
    fun p hp => mem_dependents.mp (mem_of_mem_unvisited hp)
  constructor
  case distinct =>
    rw [← List.cons_append, List.pairwise_append]
    refine ⟨h.distinct, pairwise_unvisited, fun p hp q hq => ?_⟩
    have hnot := isIn_of_mem_unvisited hq
    rw [← Bool.not_eq_true] at hnot ⊢
    exact fun hsame => hnot (isIn_iff.mpr ⟨p, hp, by rw [same_comm]; exact hsame⟩)
  case reached =>
    intro p hp
    rcases List.mem_append.mp hp with hp | hp
    · exact h.reached p hp
    · have hlast : g.Edge current p := isIn_of_mem (hedge p hp)
      rcases List.mem_cons.mp (h.queued current List.mem_cons_self) with rfl | hcurrent
      · exact Relation.TransGen.single hlast
      · exact (h.reached current hcurrent).tail hlast
  case stored =>
    intro p hp
    rcases List.mem_append.mp hp with hp | hp
    · exact h.stored p hp
    · exact ⟨current, hedge p hp⟩
  case queued =>
    intro p hp
    rw [← List.cons_append]
    rcases List.mem_append.mp hp with hp | hp
    · exact List.mem_append_left _ (h.queued p (List.mem_cons_of_mem _ hp))
    · exact List.mem_append_right _ hp
  case closed =>
    intro p hp
    rw [← List.cons_append] at hp ⊢
    rcases List.mem_append.mp hp with hp | hp
    · rcases h.closed p hp with hqueue | hclosed
      · rcases List.mem_cons.mp hqueue with rfl | hqueue
        · -- the file that leaves the queue: all that it leads to is found now
          refine Or.inr fun i hi => ?_
          obtain ⟨q, hq, hsame⟩ := isIn_iff.mp hi
          rw [isIn_congr hsame]
          exact isIn_append_unvisited (mem_dependents.mpr hq)
        · exact Or.inl (List.mem_append_left _ hqueue)
      · exact Or.inr fun i hi => isIn_append.mpr (Or.inl (hclosed i hi))
    · exact Or.inl (List.mem_append_right _ hp)

/-- Every file found is one of the importing files. -/
theorem length_le (h : Walk g edited order queue) (hg : g.Consistent) :
    order.length ≤ g.imports.length := by
  have hkeys : ∀ p ∈ order, p.isIn (g.imports.map Prod.fst) = true := by
    intro p hp
    obtain ⟨t, ht⟩ := h.stored p hp
    have hlists : g.Lists p t := (hg.lists_iff t p).mpr (isIn_of_mem ht)
    obtain ⟨u, hu, -⟩ := isIn_iff.mp hlists
    obtain ⟨q, s, hq, hsame, -⟩ := PathMap.exists_of_mem_setAt hu
    exact isIn_iff.mpr ⟨q, List.mem_map.mpr ⟨_, hq, rfl⟩, by rw [same_comm]; exact hsame⟩
  have hlength := Path.length_le_of_isIn h.distinct.tail hkeys
  rwa [List.length_map] at hlength

/-- **The walk goes on until nothing waits.** -/
theorem walks (h : Walk g edited order queue) (hg : g.Consistent) {steps : Nat}
    (hsteps : steps + order.length = g.imports.length + queue.length) :
    Walks g edited order queue (g.walk edited steps order queue) := by
  induction steps generalizing order queue with
  | zero =>
    -- by now as many files are found as can be, so none waits
    have hlength := h.length_le hg
    have hempty : queue = [] := List.eq_nil_of_length_eq_zero (by omega)
    rw [Graph.walk, hempty]
    exact .done
  | succ steps ih =>
    cases queue with
    | nil =>
      rw [Graph.walk]
      exact .done
    | cons current queue =>
      rw [Graph.walk]
      refine .next (ih h.step ?_)
      rw [List.length_cons] at hsteps
      rw [List.length_append, List.length_append]
      omega

/-- However many steps it takes, what holds of the files found holds of
those that it ends with. -/
theorem exists_walk (h : Walk g edited order queue) (steps : Nat) :
    ∃ left, Walk g edited (g.walk edited steps order queue) left := by
  induction steps generalizing order queue with
  | zero => exact ⟨queue, h⟩
  | succ steps ih =>
    cases queue with
    | nil => exact ⟨[], h⟩
    | cons current queue =>
      rw [Graph.walk]
      exact ih h.step

end Walk

namespace Walks

variable {result result' : List Path}

/-- What holds of the files found holds until the end. -/
theorem walk (h : Walks g edited order queue result) (hwalk : Walk g edited order queue) :
    Walk g edited result [] := by
  induction h with
  | done => exact hwalk
  | next _ ih => exact ih hwalk.step

/-- The loop ends in one way only. -/
theorem unique (h : Walks g edited order queue result) (h' : Walks g edited order queue result') :
    result = result' := by
  induction h with
  | done =>
    cases h'
    rfl
  | next _ ih =>
    cases h' with
    | next hrest => exact ih hrest

end Walks

/-! ## The cascade

When nothing waits any more, the last condition of a walk says that what was
found is closed under edges. So everything that can be reached was found. -/

/-- The cascade is what the loop ends with. -/
theorem walks_cascade (hg : g.Consistent) (edited : Path) :
    Walks g edited [] [edited] (g.cascade edited) :=
  (Walk.start g edited).walks hg rfl

/-- The cascade is a finished walk. -/
theorem walk_cascade (hg : g.Consistent) (edited : Path) :
    Walk g edited (g.cascade edited) [] :=
  (walks_cascade hg edited).walk (Walk.start g edited)

/-- The cascade of a file lists others, each of them once. This holds of any
graph. -/
theorem pairwise_cascade (g : Graph) (edited : Path) :
    (edited :: g.cascade edited).Pairwise fun p q => p.same q = false := by
  obtain ⟨left, hwalk⟩ := (Walk.start g edited).exists_walk (g.imports.length + 1)
  exact hwalk.distinct

/-- **The cascade lists what can be reached**, and not the file itself. -/
theorem isIn_cascade_iff (hg : g.Consistent) :
    p.isIn (g.cascade edited) = true
      ↔ Relation.TransGen g.Edge edited p ∧ edited.same p = false := by
  have hwalk := walk_cascade hg edited
  constructor
  · intro hp
    obtain ⟨q, hq, hsame⟩ := isIn_iff.mp hp
    have hqp : q.same p = true := by
      rw [same_comm]
      exact hsame
    refine ⟨?_, ?_⟩
    · rcases Relation.TransGen.tail'_iff.mp (hwalk.reached q hq) with ⟨r, hr, hlast⟩
      exact Relation.TransGen.tail' hr (hlast.congr (same_refl r) hqp)
    · rw [← same_congr_right hqp]
      exact List.rel_of_pairwise_cons hwalk.distinct hq
  · rintro ⟨hreach, hnot⟩
    have hall : ∀ q, Relation.ReflTransGen g.Edge edited q →
        q.isIn (edited :: g.cascade edited) = true := by
      intro q hq
      induction hq with
      | refl => exact isIn_of_mem List.mem_cons_self
      | tail _ hlast ih =>
        -- nothing waits, so what the file found before leads to was found too
        obtain ⟨r, hr, hsame⟩ := isIn_iff.mp ih
        exact (hwalk.closed r hr).resolve_left List.not_mem_nil _ (hlast.congr hsame (same_refl _))
    rcases isIn_cons.mp (hall p hreach.to_reflTransGen) with hp | hp
    · rw [same_comm, hnot] at hp
      cases hp
    · exact hp

/-- The edges to a file do not matter for what can be reached from it. -/
theorem transGen_register {targets : List Path} (hnot : p.same i = false) :
    Relation.TransGen (g.register p targets).Edge p i ↔ Relation.TransGen g.Edge p i := by
  constructor
  · intro h
    -- a new edge leads back to the start, from where the walk goes on without it
    have hall : ∀ q, Relation.ReflTransGen (g.register p targets).Edge p q →
        p.same q = true ∨ Relation.TransGen g.Edge p q := by
      intro q hq
      induction hq with
      | refl => exact Or.inl (same_refl p)
      | tail _ hlast ih =>
        rcases edge_register.mp hlast with hedge | ⟨hsame, -⟩
        · rcases ih with ih | ih
          · exact Or.inr (Relation.TransGen.single
              (hedge.congr (by rw [same_comm]; exact ih) (same_refl _)))
          · exact Or.inr (ih.tail hedge)
        · exact Or.inl (by rw [same_comm]; exact hsame)
    rcases hall i h.to_reflTransGen with hsame | hreach
    · rw [hnot] at hsame
      cases hsame
    · exact hreach
  · exact fun h =>
      Relation.TransGen.mono (fun _ _ hedge => edge_register.mpr (Or.inl hedge)) _ _ h

/-- Every file of the cascade is listed as an importer. -/
theorem ImportersIn.mem_of_mem_cascade {sheets : List Path} (h : g.ImportersIn sheets)
    (hg : g.Consistent) (hp : p ∈ g.cascade edited) : p ∈ sheets := by
  obtain ⟨t, ht⟩ := (walk_cascade hg edited).stored p hp
  obtain ⟨q, s, hq, -, hp⟩ := PathMap.exists_of_mem_setAt ht
  exact h _ hq p hp

end Graph

end Stylebook
