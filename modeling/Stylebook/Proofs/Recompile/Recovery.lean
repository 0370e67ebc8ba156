import Stylebook.Proofs.Recompile.Effect

/-!
# Stylesheets that recover

A stylesheet whose import cannot be read fails, and failing leaves no trace.
When what it imports is there again the stylesheet is not compiled by
itself: a batch compiles it when it reports the stylesheet, or a file that
was compiled before and leads to it in the graph. The graph has the imports
of compiles that succeeded. So a stylesheet that compiled before its import
was removed recovers with it, and one that never compiled does not recover
when the file that it misses is created.

A batch also has to get as far as the stylesheet. When the imports of
another one that is compiled in it have no end, the program crashes there,
and everything that was still to come waits for the next run
(`recovers_of_touched`).
-/

namespace Stylebook

namespace Project

variable {project : Project} {sheets : List Path} {s : Memory × Graph} {m : Memory}
  {changes : List Change} {f a : Path} {compiled : CompiledStylesheet}

/-- **What rounds reach** that start without a graph and report stylesheets
only. -/
inductive Reachable (project : Project) (sheets : List Path) : Memory × Graph → Prop
  | start (m : Memory) : Reachable project sheets (m, .empty)
  | round {s t : Memory × Graph} (h : Reachable project sheets s) (edit : Memory → Memory)
      {changes : List Change} (hchanges : ∀ c ∈ changes, c.path ∈ sheets)
      (hround : project.round s edit changes = .ok t) : Reachable project sheets t

/-- **The graph of a run** is consistent and has no importers but
stylesheets, however the files are edited. -/
theorem Reachable.sound (h : Reachable project sheets s) (m : Memory) :
    Sound project sheets m { store := m, graph := s.2 } := by
  induction h generalizing m with
  | start m₀ => exact Sound.start m Graph.consistent_empty Graph.importersIn_empty
  | @round s t h edit changes hchanges hround ih =>
    obtain ⟨done, hbatch, rfl⟩ := round_eq_ok.mp hround
    obtain ⟨last, hrun, rfl⟩ := handleBatch_eq_ok.mp hbatch
    have hdone := (ih (edit s.1)).foldlM_handleChange
      (fun c hc => hchanges c (Change.mem_of_mem_inOrder hc)) hrun
    exact Sound.start m hdone.consistent hdone.importers

/-! ## A batch that breaks off

Where the program crashes is a stylesheet of the project, because changes
are to stylesheets and what depends on one is another. And up to there only
modules were written. -/

/-- A stylesheet that works out on its own account keeps the state sound. -/
theorem Sound.handleOwn {t : Progress Memory} {p : Path} (h : Sound project sheets m t)
    (hp : p ∈ sheets) {r : Path × CompiledStylesheet} (hown : project.outcome ⟨p, t.store⟩ = .ok r) :
    Sound project sheets m (project.handleOwn t p) := by
  rcases project.compileAndWrite_cases t.store p with ⟨e, hcw⟩ | ⟨output, compiled, ha, -, hcw⟩
  · unfold outcome at hown
    rw [hcw] at hown
    cases hown
  · rw [handleOwn_eq_afterPresent hcw]
    exact h.afterPresent hp ha compiled

/-- What is compiled because of a stylesheet are stylesheets. -/
theorem Sound.mem_cascadeOf {t : Progress Memory} {p q : Path} (h : Sound project sheets m t)
    (hp : p ∈ sheets) (hq : q ∈ project.cascadeOf t p) : q ∈ sheets := by
  cases hown : project.outcome ⟨p, t.store⟩ with
  | error e =>
    unfold cascadeOf at hq
    rw [hown] at hq
    cases hq
  | ok r =>
    rw [cascadeOf_eq_of_ok hown] at hq
    split at hq
    · exact (h.handleOwn hp hown).mem_of_mem_cascade hq
    · cases hq

/-- **Where a batch breaks off**, only modules differ from the files that it
started with, and it is a stylesheet of the project that the program crashes
at. -/
theorem exists_crashes_of_handleBatch {w : Wreck Memory} {g : Graph}
    (hs : Sound project sheets m { store := m, graph := g })
    (hchanges : ∀ c ∈ changes, c.path ∈ sheets)
    (h : project.handleBatch m g changes = .error w) :
    OnlyModules project sheets m w.store ∧ ∃ p ∈ sheets, Crashes project w.store p w.crash := by
  obtain ⟨before, c, turn, hbreaks⟩ := handleBatch_eq_error h
  have hsheets : ∀ d ∈ before ++ [c], d.path ∈ sheets := fun d hd =>
    hchanges d (Change.mem_of_mem_inOrder (hbreaks.order.subset hd))
  have hturn : Sound project sheets m turn := hs.foldlM_handleChange
    (fun d hd => hsheets d (List.mem_append_left _ hd)) hbreaks.reached
  have hall : ∀ q ∈ c.path :: project.cascadeOf turn c.path, q ∈ sheets := by
    have hc : c.path ∈ sheets := hsheets c (by simp)
    exact List.forall_mem_cons.mpr ⟨hc, fun q hq => hturn.mem_cascadeOf hc hq⟩
  obtain ⟨done, p, hfront, hstore, hcrash⟩ := hbreaks.crashes
  refine ⟨?_, p, hall p (hfront.subset (by simp)), hcrash⟩
  rw [hstore]
  exact hturn.store.trans (onlyModules_storeAfter
    (fun q hq => hall q (hfront.subset (List.mem_append_left _ hq))) _)

/-! ## An import that comes back

The smallest case of it. The stylesheet was compiled once, so the graph
knows what it imports, and it still knows when the import is gone: a failure
takes nothing off the record. -/

/-- A stylesheet that was compiled before, and whose import was removed
later. -/
def orphaned : Memory × Graph :=
  (⟨[(⟨"/p/f.css"⟩, "@import \"g.css\";"), (⟨"/p/.cache/f.js"⟩, "export default styles = {}")],
      [], [], []⟩,
    ⟨[(⟨"/p/g.css"⟩, [⟨"/p/f.css"⟩])], [(⟨"/p/f.css"⟩, [⟨"/p/g.css"⟩])],
      [⟨"/p/g.css"⟩, ⟨"/p/f.css"⟩]⟩)

/-- The import is there again, with another text. -/
def restored : Memory := orphaned.1.put ⟨"/p/g.css"⟩ ".g{}"

/-- Both are compiled, the imported one is removed, and the other one then
fails. -/
theorem reachable_orphaned : Reachable site [⟨"/p/f.css"⟩, ⟨"/p/g.css"⟩] orphaned := by
  have hrounds : (do
      let s ← site.round (importing, .empty) id [.existing ⟨"/p/g.css"⟩]
      let s ← site.round s id [.existing ⟨"/p/f.css"⟩]
      let s ← site.round s (·.delete ⟨"/p/g.css"⟩) [.gone ⟨"/p/g.css"⟩]
      site.round s id [.existing ⟨"/p/f.css"⟩]) = .ok orphaned :=
    Except.eq_ok_of_toOption (by decide +kernel)
  obtain ⟨s, hs, hrounds⟩ := Except.bind_eq_ok.mp hrounds
  obtain ⟨t, ht, hrounds⟩ := Except.bind_eq_ok.mp hrounds
  obtain ⟨u, hu, hlast⟩ := Except.bind_eq_ok.mp hrounds
  exact (((Reachable.start importing).round id (by decide) hs).round id (by decide) ht).round
    (·.delete ⟨"/p/g.css"⟩) (by decide) hu |>.round id (by decide) hlast

/-- With its import back the stylesheet compiles again. -/
theorem compiles_restored {compiled : CompiledStylesheet}
    (h : compileFile restored "px" ⟨"/p/f.css"⟩ = .ok compiled) :
    Compiles site [⟨"/p/f.css"⟩, ⟨"/p/g.css"⟩] restored ⟨"/p/f.css"⟩ ⟨"/p/.cache/f.js"⟩
      compiled := by
  have hreads : ∀ q, LooksUp restored ⟨"/p/f.css"⟩ q → q = ⟨"/p/g.css"⟩ := by
    rintro q ⟨c, hc, t, ht, rfl⟩
    have hvisits : ∀ c ∈ visits restored ⟨"/p/f.css"⟩, ∀ t ∈ c.targets,
        c.path t = ⟨"/p/g.css"⟩ := by decide +kernel
    exact hvisits c (hc.mem_visits h) t ht
  have hown : ∀ p ∈ [(⟨"/p/f.css"⟩ : Path), ⟨"/p/g.css"⟩], p ≠ ⟨"/p/f.css"⟩ →
      ∀ b ∈ site.modules p, b.same ⟨"/p/.cache/f.js"⟩ = false := by decide +kernel
  have hunread : ∀ p ∈ [(⟨"/p/f.css"⟩ : Path), ⟨"/p/g.css"⟩], ∀ b ∈ site.modules p,
      b.same ⟨"/p/f.css"⟩ = false ∧ b.same ⟨"/p/g.css"⟩ = false := by decide +kernel
  refine { mem := List.mem_cons_self, spelled := by decide +kernel, artifact := artifact_f,
           own := fun p hp hne b hb => hown p hp hne b (mem_modules hb), unread := ?_,
           writable := by decide +kernel, compiles := h }
  intro p hp b hb
  obtain ⟨hself, hother⟩ := hunread p hp b (mem_modules hb)
  exact ⟨hself, fun q hq => hreads q hq ▸ hother⟩

/-! ## Stylesheets that recover

Nothing is remembered of a failure, so there is nothing to recover from. A
stylesheet that compiles is compiled if it has a turn, and it has one if it
is reported or in the cascade of a change. The graph decides that, and not
whether the stylesheet failed before. -/

/-- **A stylesheet that compiles recovers in a batch exactly when the batch
touches it**: then it is compiled and has its module when the batch ends,
and otherwise its module is what it was. The batch comes to its end unless
the imports of a stylesheet that is compiled in it have no end. Failures do
not keep it from that, and neither do modules that have no place: this
stylesheet has one, so every other one has one or fails. -/
theorem recovers_of_touched (hrun : Reachable project sheets s)
    (hchanges : ∀ c ∈ changes, c.path ∈ sheets)
    (hthere : ∀ c ∈ changes, ¬(c.IsGone ∧ c.path = f))
    (hf : Compiles project sheets m f a compiled) :
    (∃ done, project.handleBatch m s.2 changes = .ok done
        ∧ compileFile done.store project.defaultUnit f = .ok compiled
        ∧ (Touched project { store := m, graph := s.2 } (Change.inOrder changes) f →
            Done project f a compiled done)
        ∧ (¬Touched project { store := m, graph := s.2 } (Change.inOrder changes) f →
            PathMap.get? done.store.files a = PathMap.get? m.files a))
      ∨ ∃ w, project.handleBatch m s.2 changes = .error w ∧ w.crash = .endlessImports
        ∧ OnlyModules project sheets m w.store
        ∧ ∃ p ∈ sheets, Endless (compileFile w.store project.defaultUnit p) := by
  have hsound := hrun.sound m
  have hsheets : ∀ c ∈ Change.inOrder changes, c.path ∈ sheets :=
    fun c hc => hchanges c (Change.mem_of_mem_inOrder hc)
  have hstays : ∀ c ∈ Change.inOrder changes, ¬(c.IsGone ∧ c.path = f) :=
    fun c hc => hthere c (Change.mem_of_mem_inOrder hc)
  cases hbatch : project.handleBatch m s.2 changes with
  | ok done =>
    obtain ⟨last, hsteps, rfl⟩ := handleBatch_eq_ok.mp hbatch
    have hlast := hsound.foldlM_handleChange hsheets hsteps
    refine Or.inl ⟨_, rfl, (hf.compileFile_iff hlast.store).mpr rfl, fun htouched => ?_,
      fun hnot => ?_⟩
    · obtain ⟨hget, name, hevent⟩ :=
        hf.done_of_touched hsound hsheets hstays (Or.inl htouched) hsteps
      exact ⟨hget, name, List.mem_append_left _ hevent⟩
    · show PathMap.get? last.store.files a = _
      exact hf.get?_of_untouched hsound hsheets hstays hnot hsteps
  | error w =>
    obtain ⟨honly, p, hp, hcrash⟩ := exists_crashes_of_handleBatch hsound hchanges hbatch
    refine Or.inr ⟨w, rfl, ?_⟩
    -- a slash in the extension would leave the stylesheet without a module
    have hslash := CacheLayout.not_mem_extension_of_artifact hf.artifact
    cases hreason : w.crash with
    | slashInExtension =>
      rw [hreason] at hcrash
      cases hcrash with
      | slash hin _ => exact absurd hin hslash
    | endlessImports =>
      rw [hreason] at hcrash
      cases hcrash with
      | endless _ hendless => exact ⟨rfl, honly, p, hp, hendless⟩

/-- The other one recovers in the batch that reports it. -/
theorem recovers_of_restored : ∃ compiled done,
    site.handleBatch restored orphaned.2 [.existing ⟨"/p/g.css"⟩] = .ok done
      ∧ Done site ⟨"/p/f.css"⟩ ⟨"/p/.cache/f.js"⟩ compiled done := by
  have hsome : (compileFile restored "px" ⟨"/p/f.css"⟩).toOption.isSome = true := by
    decide +kernel
  have hwritten : (site.compileAndWrite restored ⟨"/p/g.css"⟩).1.toOption.isSome = true := by
    decide +kernel
  have hcomes : (site.handleBatch restored orphaned.2
      [.existing ⟨"/p/g.css"⟩]).toOption.isSome = true := by
    decide +kernel
  obtain ⟨compiled, hcompiled⟩ := Except.exists_eq_ok hsome
  obtain ⟨r, hr⟩ := Except.exists_eq_ok hwritten
  obtain ⟨done, hdone⟩ := Except.exists_eq_ok hcomes
  have hseen : orphaned.2.hasSeen ⟨"/p/g.css"⟩ = true := by decide +kernel
  have hedge : Graph.Edge orphaned.2 ⟨"/p/g.css"⟩ ⟨"/p/f.css"⟩ := by
    rw [Graph.Edge]
    decide +kernel
  have htouches : Touches site { store := restored, graph := orphaned.2 }
      (.existing ⟨"/p/g.css"⟩) ⟨"/p/f.css"⟩ :=
    ⟨⟨rfl, rfl⟩, Or.inr ⟨hseen, ⟨r, hr⟩, Relation.TransGen.single hedge⟩⟩
  have hchanges : ∀ c ∈ [Change.existing ⟨"/p/g.css"⟩],
      c.path ∈ [(⟨"/p/f.css"⟩ : Path), ⟨"/p/g.css"⟩] := by decide
  refine ⟨compiled, done, hdone, ?_⟩
  rcases recovers_of_touched reachable_orphaned hchanges (by decide)
    (compiles_restored hcompiled) with ⟨last, hlast, -, hrecovers, -⟩ | ⟨w, hw, -⟩
  · obtain rfl := Except.ok.inj (hdone.symm.trans hlast)
    refine hrecovers ⟨[], _, [], _, ?_, rfl, htouches⟩
    rw [Change.inOrder_of_pairwise (List.pairwise_singleton _ _)]
    rfl
  · cases hw.symm.trans hdone

/-! ## Stylesheets that do not

If the graph does not know of the import, a change to it does not reach the
stylesheet. That is so when no compile of the stylesheet worked out before. -/

/-- **A stylesheet does not recover.** It fails because a file cannot be
read, which leaves no trace. The files are edited and a batch is handled,
and then it compiles, but its module is not there. -/
def Misses (project : Project) (m : Memory) (f : Path) (edit : Memory → Memory)
    (changes : List Change) : Prop :=
  (∃ q cause, compileFile m project.defaultUnit f = .error (.failed (.read q cause)))
    ∧ project.round (m, .empty) id [.existing f] = .ok (m, .empty)
    ∧ ∃ left, left = storeLeft (project.handleBatch (edit m) .empty changes)
      ∧ ∃ a compiled, project.layout.artifact f = .ok a
        ∧ compileFile left project.defaultUnit f = .ok compiled
        ∧ PathMap.get? left.files a ≠ some compiled.module

theorem misses_of {edit : Memory → Memory}
    (hfails : (compileFile m project.defaultUnit f matches .error (.failed (.read ..))) = true)
    (hfirst : (project.round (m, .empty) id [.existing f]).toOption = some (m, .empty))
    (hartifact : project.layout.artifact f = .ok a) {left : Memory}
    (hleft : storeLeft (project.handleBatch (edit m) .empty changes) = left)
    (hmiss : ((compileFile left project.defaultUnit f).toOption.any fun compiled =>
      PathMap.get? left.files a ≠ some compiled.module) = true) :
    Misses project m f edit changes := by
  refine ⟨?_, Except.eq_ok_of_toOption hfirst, left, hleft.symm, a, ?_⟩
  · split at hfails
    · rename_i q cause heq
      exact ⟨q, cause, heq⟩
    · cases hfails
  · cases hcompile : compileFile left project.defaultUnit f with
    | error e =>
      rw [hcompile] at hmiss
      cases hmiss
    | ok compiled =>
      rw [hcompile] at hmiss
      exact ⟨compiled, hartifact, rfl, of_decide_eq_true hmiss⟩

/-- A batch in ascending order leaves the files that its changes leave as
they stand. -/
theorem storeLeft_handleBatch {g : Graph}
    (h : changes.Pairwise fun c d => c.path.le d.path = true) :
    storeLeft (project.handleBatch m g changes)
      = storeLeft ((Change.dropRepeats changes).foldlM project.handleChange
          { store := m, graph := g }) := by
  unfold handleBatch
  rw [Change.inOrder_of_pairwise h]
  cases (Change.dropRepeats changes).foldlM project.handleChange { store := m, graph := g } <;> rfl

/-- A stylesheet whose import is missing. -/
def lonely : Memory := .ofList [(⟨"/p/f.css"⟩, "@import \"g.css\";")]

/-- The program crashes at a stylesheet that imports itself, before it comes
to the next. -/
theorem storeLeft_handleBatch_selfImport {g : Graph}
    (hfetch : FileStore.fetch m ⟨"/p/a.css"⟩ = .ok selfImport) :
    storeLeft (site.handleBatch m g [.existing ⟨"/p/a.css"⟩, .existing ⟨"/p/f.css"⟩]) = m := by
  have horder : Change.inOrder [.existing ⟨"/p/a.css"⟩, .existing ⟨"/p/f.css"⟩]
      = [.existing ⟨"/p/a.css"⟩, .existing ⟨"/p/f.css"⟩] := by
    rw [Change.inOrder_of_pairwise (by decide +kernel)]
    decide +kernel
  rw [handleBatch_of_first horder (handleChange_selfImport hfetch)]
  rfl

/-- **A stylesheet does not always recover**: not when its import is
created, not where its module is that of another one too, or is a
stylesheet, or may not be written, and not in a batch that crashes before
its turn. -/
theorem not_recovers :
    Misses site lonely ⟨"/p/f.css"⟩ (·.put ⟨"/p/g.css"⟩ "") [.existing ⟨"/p/g.css"⟩]
      ∧ Misses site lonely ⟨"/p/f.css"⟩
        (fun m => (m.put ⟨"/p/g.css"⟩ "").put ⟨"/p/f.scss"⟩ ".s{}")
        [.existing ⟨"/p/f.css"⟩, .existing ⟨"/p/f.scss"⟩, .existing ⟨"/p/g.css"⟩]
      ∧ Misses overlaid lonely ⟨"/p/f.css"⟩ (·.put ⟨"/p/g.css"⟩ ".g{}")
        [.existing ⟨"/p/f.css"⟩, .existing ⟨"/p/g.css"⟩]
      ∧ Misses site { lonely with deniedWrites := [⟨"/p/.cache/f.js"⟩] } ⟨"/p/f.css"⟩
        (·.put ⟨"/p/g.css"⟩ "") [.existing ⟨"/p/f.css"⟩, .existing ⟨"/p/g.css"⟩]
      ∧ Misses site lonely ⟨"/p/f.css"⟩
        (fun m => (m.put ⟨"/p/g.css"⟩ "").put ⟨"/p/a.css"⟩ selfImport)
        [.existing ⟨"/p/a.css"⟩, .existing ⟨"/p/f.css"⟩] := by
  have hoverlaid : overlaid.layout.artifact ⟨"/p/f.css"⟩ = .ok ⟨"/p/f.css"⟩ :=
    Except.eq_ok_of_toOption (by decide +kernel)
  refine ⟨?_, ?_, ?_, ?_, ?_⟩
  · exact misses_of (by decide +kernel) (by decide +kernel) artifact_f
      (storeLeft_handleBatch (by decide +kernel)) (by decide +kernel)
  · exact misses_of (by decide +kernel) (by decide +kernel) artifact_f
      (storeLeft_handleBatch (by decide +kernel)) (by decide +kernel)
  · exact misses_of (by decide +kernel) (by decide +kernel) hoverlaid
      (storeLeft_handleBatch (by decide +kernel)) (by decide +kernel)
  · exact misses_of (by decide +kernel) (by decide +kernel) artifact_f
      (storeLeft_handleBatch (by decide +kernel)) (by decide +kernel)
  · exact misses_of (by decide +kernel) (by decide +kernel) artifact_f
      (storeLeft_handleBatch_selfImport (Except.eq_ok_of_toOption (by decide +kernel)))
      (by decide +kernel)

end Project

end Stylebook
