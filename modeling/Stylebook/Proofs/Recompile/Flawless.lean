import Stylebook.Proofs.Recompile.Batch

/-!
# A batch without failures

When a batch comes to its end and nothing failed in it, every stylesheet
that is reported as there is on record afterwards: it has been seen, and
each of its imports leads to it in the graph (`Recorded`). The graph only
grows, so what was on record before still is. And every stylesheet that is
touched was compiled with success at some moment of the batch.

Failures are counted and stay counted, so that none at the end means none at
any step. That is how the one number in the summary tells of every compile
in between (`failed_of_foldlM`).
-/

namespace Stylebook

/-- **A graph has everything that another one has.** -/
structure Graph.Grows (g g' : Graph) : Prop where
  edge : ∀ t i, g.Edge t i → g'.Edge t i
  seen : ∀ p, g.hasSeen p = true → g'.hasSeen p = true

namespace Graph.Grows

variable {g g' g'' : Graph}

/-- A graph has what it has. -/
theorem refl (g : Graph) : g.Grows g := ⟨fun _ _ h => h, fun _ h => h⟩

/-- And it may grow more than once. -/
theorem trans (h : g.Grows g') (h' : g'.Grows g'') : g.Grows g'' :=
  ⟨fun t i hedge => h'.edge t i (h.edge t i hedge), fun p hseen => h'.seen p (h.seen p hseen)⟩

/-- Registering takes nothing away from the edges, since what was listed is
kept. -/
theorem register (g : Graph) (p : Path) (targets : List Path) : g.Grows (g.register p targets) := by
  refine ⟨fun t i h => Graph.edge_register.mpr (Or.inl h), fun q h => ?_⟩
  rw [Graph.hasSeen, Graph.seen_register]
  exact h

/-- Observing adds a mark. -/
theorem observe (g : Graph) (p : Path) : g.Grows (g.observe p).2 :=
  ⟨fun _ _ h => Graph.edge_observe.mpr h, fun _ h => Graph.hasSeen_observe.mpr (Or.inl h)⟩

end Graph.Grows

/-- **A stylesheet is on record**: it was seen, and each file that its text
imports leads to it. -/
structure Recorded (m : Memory) (g : Graph) (p : Path) : Prop where
  seen : g.hasSeen p = true
  edge : ∀ text, FileStore.fetch m p = .ok text → ∀ u ∈ importTargets text,
    (importPath p u).same p = false → g.Edge (importPath p u) p

namespace Recorded

variable {m m' : Memory} {g g' : Graph} {p : Path}

/-- What is on record stays on record as the graph grows. -/
theorem grows (h : Recorded m g p) (hg : g.Grows g') : Recorded m g' p :=
  ⟨hg.seen p h.seen, fun text hfetch u hu hnot => hg.edge _ _ (h.edge text hfetch u hu hnot)⟩

/-- The record is about the text of the stylesheet, so other files do not
matter. -/
theorem congr (h : Recorded m g p) (hfetch : FileStore.fetch m' p = FileStore.fetch m p) :
    Recorded m' g p :=
  ⟨h.seen, fun text htext => h.edge text (hfetch ▸ htext)⟩

end Recorded

namespace Project

variable {project : Project} {sheets ps : List Path} {m : Memory} {s s' : Progress Memory}
  {f b p trigger : Path} {fresh : CompiledStylesheet} {c : Change} {cs : List Change}

/-! ## What is on record

Two facts meet here. A compile on its own account registers what it imports,
and without failures each change is one that worked out. From then on
nothing leaves the record, because files that are gone are not among the
changes. -/

/-- **A stylesheet that was compiled on its own account is on record.** -/
theorem recorded_afterPresent (hcompile : compileFile s.store project.defaultUnit p = .ok fresh) :
    Recorded s.store (project.afterPresent s p b fresh).graph p := by
  obtain ⟨source, hfetch, himports⟩ := exists_fetch_of_compileFile hcompile
  refine ⟨Graph.hasSeen_observe.mpr (Or.inr (Path.same_refl p)), fun text htext u hu hnot => ?_⟩
  obtain rfl : source = text := Except.ok.inj (hfetch.symm.trans htext)
  refine Graph.edge_observe.mpr (Graph.edge_register.mpr (Or.inr ⟨Path.same_refl p, ?_⟩))
  rw [himports]
  exact ⟨_, List.mem_map_of_mem hu, Path.same_refl _, hnot⟩

/-- A compile registers and observes, and nothing else. -/
theorem grows_afterPresent (project : Project) (s : Progress Memory) (p b : Path)
    (fresh : CompiledStylesheet) : s.graph.Grows (project.afterPresent s p b fresh).graph :=
  (Graph.Grows.register _ _ _).trans (Graph.Grows.observe _ _)

/-- A file that is there lets the graph grow, whatever its cascade does. -/
theorem grows_handlePresent (h : project.handlePresent s p = .ok s') :
    s.graph.Grows s'.graph := by
  rcases handlePresent_cases h with ⟨e, -, rfl⟩ | ⟨b, fresh, -, -, -, -, hrun⟩
  · exact Graph.Grows.refl _
  · rw [graph_foldlM_recompile hrun]
    exact project.grows_afterPresent s p b fresh

/-- So does a change to one. -/
theorem grows_handleChange (hc : c.IsPresent) (h : project.handleChange s c = .ok s') :
    s.graph.Grows s'.graph := by
  rw [handleChange_of_isPresent hc] at h
  exact grows_handlePresent h

/-- **Changes to stylesheets that are there let the graph grow.** -/
theorem grows_foldlM_handleChange (hcs : ∀ c ∈ cs, c.IsPresent)
    (h : cs.foldlM project.handleChange s = .ok s') : s.graph.Grows s'.graph :=
  Except.foldlM_induction (motive := fun t : Progress Memory => s.graph.Grows t.graph) h
    (Graph.Grows.refl _) fun c hc _ _ hstep hgrows =>
      hgrows.trans (grows_handleChange (hcs c hc) hstep)

/-- A change to a stylesheet that is there, without failure, puts it on
record. -/
theorem recorded_handleChange (hc : c.IsPresent) (h : project.handleChange s c = .ok s')
    (hfailed : s'.summary.failed = 0) : Recorded s.store s'.graph c.path
      ∧ ∃ r, (project.compileAndWrite s.store c.path).1 = .ok r := by
  rw [handleChange_of_isPresent hc] at h
  rcases handlePresent_cases h with ⟨e, -, rfl⟩ | ⟨b, fresh, -, hcompile, hok, -, hrun⟩
  · cases hfailed
  · rw [graph_foldlM_recompile hrun]
    exact ⟨recorded_afterPresent hcompile, (b, fresh), by rw [hok]⟩

/-- What did not fail in the end did not fail in between. -/
theorem failed_of_foldlM (h : cs.foldlM project.handleChange s = .ok s')
    (hfailed : s'.summary.failed = 0) : s.summary.failed = 0 :=
  Nat.le_zero.mp ((foldlM_handleChange_le h).2.trans hfailed.le)

/-- **A batch without failures puts every stylesheet on record** that it
reports as there. -/
theorem recorded_foldlM_handleChange (hs : Sound project sheets m s)
    (hcs : ∀ c ∈ cs, c.IsPresent ∧ c.path ∈ sheets)
    (hunlisted : ∀ p ∈ sheets, ∀ b, project.layout.artifact p = .ok b →
      ∀ q ∈ sheets, b.same q = false)
    (hrun : cs.foldlM project.handleChange s = .ok s') (hfailed : s'.summary.failed = 0)
    (hc : c ∈ cs) : Recorded m s'.graph c.path := by
  induction cs generalizing s with
  | nil => cases hc
  | cons d cs ih =>
    obtain ⟨hpresent, hd⟩ := hcs d List.mem_cons_self
    obtain ⟨turn, hstep, hrest⟩ := Except.foldlM_cons_eq_ok.mp hrun
    have hlater : ∀ e ∈ cs, e.IsPresent ∧ e.path ∈ sheets :=
      fun e he => hcs e (List.mem_cons_of_mem _ he)
    rcases List.mem_cons.mp hc with rfl | hc
    · -- on record when its turn comes, and the graph only grows from there
      have hnow := (recorded_handleChange hpresent hstep (failed_of_foldlM hrest hfailed)).1
      refine (hnow.congr ?_).grows
        (grows_foldlM_handleChange (fun e he => (hlater e he).1) hrest)
      exact (hs.store.fetch_eq fun p hp b hb => hunlisted p hp b hb c.path hd).symm
    · exact ih (hs.handleChange hd hstep) hlater hrest hc

/-- **In a batch without failures a stylesheet is touched** by every file
that is reported as there, was seen before and leads to it. -/
theorem touched_of_transGen (hcs : ∀ c ∈ cs, c.IsPresent)
    (hrun : cs.foldlM project.handleChange s = .ok s') (hfailed : s'.summary.failed = 0)
    (hc : c ∈ cs) (hseen : s.graph.hasSeen c.path = true)
    (hreach : Relation.TransGen s.graph.Edge c.path f) : Touched project s cs f := by
  induction cs generalizing s with
  | nil => cases hc
  | cons d cs ih =>
    have hpresent := hcs d List.mem_cons_self
    obtain ⟨turn, hstep, hrest⟩ := Except.foldlM_cons_eq_ok.mp hrun
    rcases List.mem_cons.mp hc with rfl | hc
    · have hok := (recorded_handleChange hpresent hstep (failed_of_foldlM hrest hfailed)).2
      exact (touched_cons hstep).mpr (Or.inl ⟨hpresent, Or.inr ⟨hseen, hok, hreach⟩⟩)
    · -- it still leads there when its turn comes
      have hgrows := grows_handleChange hpresent hstep
      refine (touched_cons hstep).mpr (Or.inr ?_)
      exact ih (fun e he => hcs e (List.mem_cons_of_mem _ he)) hrest hc (hgrows.seen _ hseen)
        (Relation.TransGen.mono hgrows.edge _ _ hreach)

/-! ## What was compiled

A stylesheet that is touched has a turn. Without failures the turn worked
out. It need not be the last one, so all that is said is that there was a
moment. -/

/-- **A stylesheet compiles at some moment of a batch**, when nothing but
modules changed. -/
def CompilesOnce (project : Project) (sheets : List Path) (m : Memory) (f : Path) : Prop :=
  ∃ m' r, OnlyModules project sheets m m' ∧ (project.compileAndWrite m' f).1 = .ok r

/-- No failure counted means no failure. -/
theorem exists_ok_of_failed_recompile (h : project.recompile trigger s p = .ok s')
    (hfailed : s'.summary.failed = 0) : ∃ r, (project.compileAndWrite s.store p).1 = .ok r := by
  unfold recompile at h
  generalize project.compileAndWrite s.store p = compiled at h ⊢
  obtain ⟨(e | crash) | r, store⟩ := compiled
  · obtain rfl := Except.ok.inj h
    cases hfailed
  · cases h
  · exact ⟨r, rfl⟩

/-- A stylesheet of a cascade has its turn in it. -/
theorem compilesOnce_of_mem (hs : Sound project sheets m s) (hps : ∀ p ∈ ps, p ∈ sheets)
    (hf : f ∈ ps) (hrun : ps.foldlM (project.recompile trigger) s = .ok s')
    (hfailed : s'.summary.failed = 0) : CompilesOnce project sheets m f := by
  induction ps generalizing s with
  | nil => cases hf
  | cons p ps ih =>
    obtain ⟨turn, hstep, hrest⟩ := Except.foldlM_cons_eq_ok.mp hrun
    rcases List.mem_cons.mp hf with rfl | hf
    · have hnow : turn.summary.failed = 0 :=
        Nat.le_zero.mp ((foldlM_recompile_le hrest).2.trans hfailed.le)
      obtain ⟨r, hr⟩ := exists_ok_of_failed_recompile hstep hnow
      exact ⟨s.store, r, hs.store, hr⟩
    · exact ih (hs.recompile (hps p List.mem_cons_self) hstep)
        (fun q hq => hps q (List.mem_cons_of_mem _ hq)) hf hrest

/-- A stylesheet that one change touches is the changed one, or in its
cascade. -/
theorem compilesOnce_of_touches (hs : Sound project sheets m s)
    (hspelled : ∀ q ∈ sheets, q.same f = true → q = f) (hc : c.path ∈ sheets)
    (htouches : Touches project s c f) (h : project.handleChange s c = .ok s')
    (hfailed : s'.summary.failed = 0) : CompilesOnce project sheets m f := by
  obtain ⟨hpresent, hwhy⟩ := htouches
  rw [handleChange_of_isPresent hpresent] at h
  rcases handlePresent_cases h with ⟨e, -, rfl⟩ | ⟨b, fresh, ha, -, hok, hcascade, hrun⟩
  · cases hfailed
  · by_cases hpath : c.path = f
    · exact ⟨s.store, (b, fresh), hs.store, by rw [← hpath, hok]⟩
    · obtain ⟨hseen, -, hreach⟩ := hwhy.resolve_left hpath
      have hf : f ∈ project.cascadeOf s c.path := by
        rw [hcascade, if_pos hseen]
        exact (hs.mem_cascade_iff hspelled hc hpath ha fresh).mpr hreach
      exact compilesOnce_of_mem (hs.afterPresent hc ha fresh)
        (fun q hq => hs.mem_of_mem_cascadeOf hc ha hcascade hq) hf hrun hfailed

/-- **A stylesheet that is touched in a batch without failures was compiled
in it.** -/
theorem compilesOnce_of_touched (hs : Sound project sheets m s)
    (hspelled : ∀ q ∈ sheets, q.same f = true → q = f) (hcs : ∀ c ∈ cs, c.path ∈ sheets)
    (htouched : Touched project s cs f) (hrun : cs.foldlM project.handleChange s = .ok s')
    (hfailed : s'.summary.failed = 0) : CompilesOnce project sheets m f := by
  induction cs generalizing s with
  | nil => exact absurd htouched not_touched_nil
  | cons c cs ih =>
    have hc := hcs c List.mem_cons_self
    obtain ⟨turn, hstep, hrest⟩ := Except.foldlM_cons_eq_ok.mp hrun
    rcases (touched_cons hstep).mp htouched with htouches | htouched
    · exact compilesOnce_of_touches hs hspelled hc htouches hstep (failed_of_foldlM hrest hfailed)
    · exact ih (hs.handleChange hc hstep) (fun d hd => hcs d (List.mem_cons_of_mem _ hd)) htouched
        hrest

end Project

end Stylebook
