import Stylebook.Proofs.Graph.Cascade
import Stylebook.Proofs.Recompile.Cascade
import Stylebook.Proofs.Recompile.Reading

/-!
# One change

This module says what handling one change does to the files, to the graph
and to the report. Compiling a stylesheet has no result and changes nothing,
or writes its module and nothing else (`compileAndWrite_cases`); the other
operations follow from that. Of the files, only modules of stylesheets are
written or removed (`OnlyModules`), the two maps of the graph keep telling
the same, and what was reported stays reported.

All of this is about changes that come to their end. A change that crashes
has no state afterwards, so that a lemma here takes the state which a step
has led to together with the equation that it has. What each step keeps, a
run of steps keeps, by the one induction for runs
(`Except.foldlM_induction`).
-/

namespace Stylebook

/-- What the module of a compiled stylesheet holds: its dictionary, as a
text. -/
def CompiledStylesheet.module (compiled : CompiledStylesheet) : String :=
  (Dictionary.ofStyles compiled.styles).module

namespace Project

variable {project : Project} {m m' m'' : Memory} {p q output : Path} {sheets : List Path}

/-! ## Compiling and removing

Both operations look for the place of the module first, and a stylesheet
without one is neither read nor written. In memory a write changes one file
or, where it is denied, none. -/

/-- A file that has a place for its module and compiles is written, if it
may be. -/
theorem compileAndWrite_eq {compiled : CompiledStylesheet}
    (hartifact : project.layout.artifact p = .ok output)
    (hcompile : compileFile m project.defaultUnit p = .ok compiled) :
    project.compileAndWrite m p = if output.isIn m.deniedWrites = true
      then (.error (.failed (.io "write denied")), m)
      else (.ok (output, compiled), m.put output compiled.module) := by
  have hproduce : project.produce m p = .ok (output, compiled) := by
    unfold produce
    rw [hartifact, hcompile]
    rfl
  have hwrite : FileStore.write m output (Dictionary.ofStyles compiled.styles).module
      = if output.isIn m.deniedWrites = true then (.error "write denied", m)
        else (.ok (), m.put output compiled.module) := rfl
  unfold compileAndWrite
  rw [hproduce]
  dsimp only
  rw [hwrite]
  by_cases hdenied : output.isIn m.deniedWrites = true
  · rw [if_pos hdenied, if_pos hdenied]
  · rw [if_neg hdenied, if_neg hdenied]

/-- **Compiling has no result, or writes the module.** In the first case the
memory is exactly what it was, whatever the reason: this is the form in
which the other lemmas use the operation. -/
theorem compileAndWrite_cases (project : Project) (m : Memory) (p : Path) :
    (∃ e, project.compileAndWrite m p = (.error e, m))
      ∨ ∃ output compiled, project.layout.artifact p = .ok output
        ∧ compileFile m project.defaultUnit p = .ok compiled
        ∧ project.compileAndWrite m p = (.ok (output, compiled), m.put output compiled.module) := by
  cases hartifact : project.layout.artifact p with
  | error e =>
    refine Or.inl ⟨e, ?_⟩
    unfold compileAndWrite produce
    rw [hartifact]
    rfl
  | ok output =>
    cases hcompile : compileFile m project.defaultUnit p with
    | error e =>
      refine Or.inl ⟨e, ?_⟩
      unfold compileAndWrite produce
      rw [hartifact, hcompile]
      rfl
    | ok compiled =>
      have heq := compileAndWrite_eq hartifact hcompile
      by_cases hdenied : output.isIn m.deniedWrites = true
      · exact Or.inl ⟨_, heq.trans (if_pos hdenied)⟩
      · exact Or.inr ⟨output, compiled, rfl, rfl, heq.trans (if_neg hdenied)⟩

/-- Removing a module leaves the files as they are, or takes out the module. -/
theorem removeModule_cases (project : Project) (m : Memory) (p : Path) :
    (project.removeModule m p).2 = m
      ∨ ∃ output, project.layout.artifact p = .ok output
        ∧ (project.removeModule m p).2 = m.delete output := by
  unfold removeModule
  cases hartifact : project.layout.artifact p with
  | error e => exact Or.inl rfl
  | ok output =>
    by_cases hholds : FileStore.holds m output = true
    · by_cases hdenied : output.isIn m.deniedRemoves = true
      · have hremove : FileStore.remove m output = (.error "remove denied", m) := if_pos hdenied
        refine Or.inl ?_
        dsimp only
        rw [if_pos hholds, hremove]
      · have hremove : FileStore.remove m output = (.ok (), m.delete output) := if_neg hdenied
        refine Or.inr ⟨output, rfl, ?_⟩
        dsimp only
        rw [if_pos hholds, hremove]
    · refine Or.inl ?_
      dsimp only
      rw [if_neg hholds]

/-! ## What changes of the files

Between two moments of a batch only modules of stylesheets differ. The
relation is reflexive and transitive, so a run of steps needs no argument of
its own. Nothing is said of *which* modules differ, because for what is read
it does not matter. -/

/-- **Only modules of stylesheets differ** between two memories. A path that
is no stylesheet's module holds the same text in both, and what may not be
read or written is the same. -/
structure OnlyModules (project : Project) (sheets : List Path) (m m' : Memory) : Prop where
  deniedReads : m'.deniedReads = m.deniedReads
  deniedWrites : m'.deniedWrites = m.deniedWrites
  files : ∀ q, (∀ p ∈ sheets, ∀ output, project.layout.artifact p = .ok output →
    output.same q = false) → PathMap.get? m'.files q = PathMap.get? m.files q

namespace OnlyModules

/-- A memory differs in nothing from itself. -/
theorem refl (project : Project) (sheets : List Path) (m : Memory) :
    OnlyModules project sheets m m := ⟨rfl, rfl, fun _ _ => rfl⟩

/-- What is the same twice is the same. -/
theorem trans (h : OnlyModules project sheets m m') (h' : OnlyModules project sheets m' m'') :
    OnlyModules project sheets m m'' :=
  ⟨h'.deniedReads.trans h.deniedReads, h'.deniedWrites.trans h.deniedWrites,
    fun q hq => (h'.files q hq).trans (h.files q hq)⟩

/-- Writing a module is a difference in modules. -/
theorem put (hp : p ∈ sheets) (hartifact : project.layout.artifact p = .ok output) (m : Memory)
    (text : String) : OnlyModules project sheets m (m.put output text) := by
  refine ⟨rfl, rfl, fun q hq => ?_⟩
  rw [Memory.get?_put, hq p hp output hartifact]
  rfl

/-- Removing a module is a difference in modules. -/
theorem delete (hp : p ∈ sheets) (hartifact : project.layout.artifact p = .ok output)
    (m : Memory) : OnlyModules project sheets m (m.delete output) := by
  refine ⟨rfl, rfl, fun q hq => ?_⟩
  rw [Memory.get?_delete, hq p hp output hartifact]
  rfl

/-- Compiling a stylesheet makes a difference in modules, if any. -/
theorem compileAndWrite (hp : p ∈ sheets) (m : Memory) :
    OnlyModules project sheets m (project.compileAndWrite m p).2 := by
  rcases project.compileAndWrite_cases m p with ⟨e, h⟩ | ⟨output, compiled, hartifact, -, h⟩
  · rw [h]
    exact refl project sheets m
  · rw [h]
    exact put hp hartifact m _

/-- Removing the module of a stylesheet does so too. -/
theorem removeModule (hp : p ∈ sheets) (m : Memory) :
    OnlyModules project sheets m (project.removeModule m p).2 := by
  rcases project.removeModule_cases m p with h | ⟨output, hartifact, h⟩
  · rw [h]
    exact refl project sheets m
  · rw [h]
    exact delete hp hartifact m

/-- What is no module is read as before. -/
theorem fetch_eq (h : OnlyModules project sheets m m')
    (hq : ∀ p ∈ sheets, ∀ output, project.layout.artifact p = .ok output →
      output.same q = false) : FileStore.fetch m' q = FileStore.fetch m q :=
  Memory.fetch_congr h.deniedReads (h.files q hq)

end OnlyModules

/-! ## What happens to the state

A change goes through several states, and each part of the state has a life
of its own: the files change with every attempt, the graph once at most, and
the report only grows. The lemmas on one compile are about one part each. -/

variable {s s' : Progress Memory} {trigger : Path} {c : Change} {cs : List Change}
  {ps : List Path}

/-- Compiling again leaves the files of the attempt. -/
theorem store_recompile (h : project.recompile trigger s p = .ok s') :
    s'.store = (project.compileAndWrite s.store p).2 := by
  obtain ⟨-, rfl⟩ := recompile_eq_ok.mp h
  rfl

/-- Compiling again leaves the graph. -/
theorem graph_recompile (h : project.recompile trigger s p = .ok s') : s'.graph = s.graph := by
  obtain ⟨-, rfl⟩ := recompile_eq_ok.mp h
  rfl

/-- Compiling again adds to the events. -/
theorem events_recompile (h : project.recompile trigger s p = .ok s') : s.events <+: s'.events := by
  obtain ⟨-, rfl⟩ := recompile_eq_ok.mp h
  exact List.prefix_append _ _

/-- A cascade leaves the graph. So every stylesheet of it is one of the
graph it was taken from, and no cascade grows while it is gone through. -/
theorem graph_foldlM_recompile (h : ps.foldlM (project.recompile trigger) s = .ok s') :
    s'.graph = s.graph := by
  obtain ⟨-, rfl⟩ := foldlM_recompile_eq_ok.mp h
  rfl

/-- The state after a stylesheet was compiled on its own account, before
anything that depends on it. It is `handleOwn` where the compile works out,
with the parts of the state written out. -/
def afterPresent (project : Project) (s : Progress Memory) (p output : Path)
    (compiled : CompiledStylesheet) : Progress Memory :=
  project.reportSuccess { s with
      store := s.store.put output compiled.module
      graph := ((s.graph.register p (compiled.imports.map (importPath p))).observe p).2 }
    p output compiled none

/-- A stylesheet that was compiled and written is on its own account. -/
theorem handleOwn_eq_afterPresent {compiled : CompiledStylesheet}
    (h : project.compileAndWrite s.store p
      = (.ok (output, compiled), s.store.put output compiled.module)) :
    project.handleOwn s p = project.afterPresent s p output compiled := by
  have hown : project.outcome ⟨p, s.store⟩ = .ok (output, compiled) := congrArg Prod.fst h
  unfold handleOwn
  rw [hown, h]
  rfl

/-- **A stylesheet that is there** and whose change comes to its end fails,
or is compiled, and with it what depends on it if it was seen before.
Everything that a change to a stylesheet can do in memory is in this
statement, so that later proofs go by its cases and not by the program. -/
theorem handlePresent_cases (h : project.handlePresent s p = .ok s') :
    (∃ e, project.compileAndWrite s.store p = (.error (.failed e), s.store)
        ∧ s' = project.reportFailure s p e)
      ∨ ∃ output compiled, project.layout.artifact p = .ok output
        ∧ compileFile s.store project.defaultUnit p = .ok compiled
        ∧ project.compileAndWrite s.store p
          = (.ok (output, compiled), s.store.put output compiled.module)
        ∧ project.cascadeOf s p = (if s.graph.hasSeen p = true then
            (project.afterPresent s p output compiled).graph.cascade p else [])
        ∧ (project.cascadeOf s p).foldlM (project.recompile p)
            (project.afterPresent s p output compiled) = .ok s' := by
  rcases project.compileAndWrite_cases s.store p with
    ⟨e | crash, hcw⟩ | ⟨output, compiled, ha, hc, hcw⟩
  · refine Or.inl ⟨e, hcw, ?_⟩
    unfold handlePresent at h
    rw [hcw] at h
    exact (Except.ok.inj h).symm
  · have hcrash : project.outcome ⟨p, s.store⟩ = .error (.crashed crash) := congrArg Prod.fst hcw
    rw [handlePresent_of_crashed hcrash] at h
    cases h
  · have hown : project.outcome ⟨p, s.store⟩ = .ok (output, compiled) := congrArg Prod.fst hcw
    have hafter := handleOwn_eq_afterPresent hcw
    rw [handlePresent_eq (by rw [hown]; exact Ends.ok _), hafter] at h
    refine Or.inr ⟨output, compiled, ha, hc, hcw, ?_, h⟩
    rw [cascadeOf_eq_of_ok hown, hafter]

/-- What the removal of a module comes to, when it does not crash. -/
theorem handleRemoval_of_ok (h : project.handleRemoval s p = .ok s') :
    s'.store = (project.removeModule s.store p).2
      ∧ (s'.graph = s.graph ∨ s'.graph = s.graph.removeOutgoing p)
      ∧ s.events <+: s'.events
      ∧ s.summary.failed ≤ s'.summary.failed := by
  rcases project.handleRemoval_cases s p with
    ⟨output, store, hremove, heq⟩ | ⟨e, store, hremove, heq⟩ | ⟨crash, store, -, heq⟩
  · obtain rfl := Except.ok.inj (heq.symm.trans h)
    rw [hremove]
    exact ⟨rfl, Or.inr rfl, List.prefix_append _ _, le_refl _⟩
  · obtain rfl := Except.ok.inj (heq.symm.trans h)
    rw [hremove]
    exact ⟨rfl, Or.inl rfl, List.prefix_append _ _, Nat.le_succ _⟩
  · cases heq.symm.trans h

/-! ## What holds of the state

The invariant of a batch. It is stated relative to the files that the batch
began with, because that is what the statements on batches compare with; and
it has the stylesheets of the project as a parameter, since a cascade must
not lead out of them. -/

/-- **What holds during a batch** that starts from some files: only modules
were touched, and the graph is consistent and has no importers but
stylesheets. Consistent means that its two maps tell the same edges; a
cascade follows one of them, and it is the other that is kept up to date
when a stylesheet is compiled. -/
structure Sound (project : Project) (sheets : List Path) (m : Memory) (s : Progress Memory) :
    Prop where
  store : OnlyModules project sheets m s.store
  consistent : s.graph.Consistent
  importers : s.graph.ImportersIn sheets

namespace Sound

/-- At the beginning nothing was touched. -/
theorem start (m : Memory) {g : Graph} (hg : g.Consistent) (hin : g.ImportersIn sheets) :
    Sound project sheets m { store := m, graph := g } :=
  ⟨OnlyModules.refl project sheets m, hg, hin⟩

/-- One compile of a stylesheet keeps the state sound. -/
theorem recompile (h : Sound project sheets m s) (hp : p ∈ sheets)
    (hstep : project.recompile trigger s p = .ok s') : Sound project sheets m s' := by
  refine ⟨?_, ?_, ?_⟩
  · rw [store_recompile hstep]
    exact h.store.trans (OnlyModules.compileAndWrite hp _)
  · rw [graph_recompile hstep]
    exact h.consistent
  · rw [graph_recompile hstep]
    exact h.importers

/-- A cascade keeps the state sound. -/
theorem foldlM_recompile (h : Sound project sheets m s) (hps : ∀ p ∈ ps, p ∈ sheets)
    (hrun : ps.foldlM (project.recompile trigger) s = .ok s') : Sound project sheets m s' :=
  Except.foldlM_induction hrun h fun p hp _ _ hstep hs => hs.recompile (hps p hp) hstep

/-- A turn that works out keeps the state sound: it writes the module of a
stylesheet and puts imports of one on record. -/
theorem afterPresent (h : Sound project sheets m s) (hp : p ∈ sheets)
    (hartifact : project.layout.artifact p = .ok output) (compiled : CompiledStylesheet) :
    Sound project sheets m (project.afterPresent s p output compiled) where
  store := h.store.trans (OnlyModules.put hp hartifact _ _)
  consistent := (h.consistent.register _ _).observe _
  importers := (h.importers.register hp _).observe _

/-- What depends on something is a stylesheet, because only stylesheets are
registered as importers. -/
theorem mem_of_mem_cascade (h : Sound project sheets m s) (hq : q ∈ s.graph.cascade p) :
    q ∈ sheets := h.importers.mem_of_mem_cascade h.consistent hq

/-- The stylesheets of a cascade are stylesheets. -/
theorem mem_of_mem_cascadeOf (h : Sound project sheets m s) (hp : p ∈ sheets)
    (hartifact : project.layout.artifact p = .ok output) {compiled : CompiledStylesheet}
    (hcascade : project.cascadeOf s p = if s.graph.hasSeen p = true then
      (project.afterPresent s p output compiled).graph.cascade p else [])
    (hq : q ∈ project.cascadeOf s p) : q ∈ sheets := by
  rw [hcascade] at hq
  split at hq
  · exact (h.afterPresent hp hartifact compiled).mem_of_mem_cascade hq
  · cases hq

/-- A stylesheet that is there keeps the state sound, with all that depends
on it. -/
theorem handlePresent (h : Sound project sheets m s) (hp : p ∈ sheets)
    (hstep : project.handlePresent s p = .ok s') : Sound project sheets m s' := by
  rcases handlePresent_cases hstep with ⟨e, -, rfl⟩ | ⟨output, compiled, ha, -, -, hcascade, hrun⟩
  · exact ⟨h.store, h.consistent, h.importers⟩
  · exact (h.afterPresent hp ha compiled).foldlM_recompile
      (fun q hq => h.mem_of_mem_cascadeOf hp ha hcascade hq) hrun

/-- A stylesheet that is gone keeps the state sound. -/
theorem handleRemoval (h : Sound project sheets m s) (hp : p ∈ sheets)
    (hstep : project.handleRemoval s p = .ok s') : Sound project sheets m s' := by
  obtain ⟨hstore, hgraph, -⟩ := handleRemoval_of_ok hstep
  refine ⟨?_, ?_, ?_⟩
  · rw [hstore]
    exact h.store.trans (OnlyModules.removeModule hp _)
  · rcases hgraph with hgraph | hgraph <;> rw [hgraph]
    · exact h.consistent
    · exact h.consistent.removeOutgoing p
  · rcases hgraph with hgraph | hgraph <;> rw [hgraph]
    · exact h.importers
    · exact h.importers.removeOutgoing p

/-- **Handling a change keeps the state sound.** The change is to a
stylesheet of the project; a path that is none could bring an importer into
the graph that is none. -/
theorem handleChange (h : Sound project sheets m s) (hc : c.path ∈ sheets)
    (hstep : project.handleChange s c = .ok s') : Sound project sheets m s' := by
  rcases project.handleChange_cases s c with ⟨-, heq⟩ | ⟨-, heq⟩ | ⟨-, heq⟩ <;> rw [heq] at hstep
  · rwa [← Except.ok.inj hstep]
  · exact h.handlePresent hc hstep
  · exact h.handleRemoval hc hstep

/-- A run of changes keeps the state sound. -/
theorem foldlM_handleChange (h : Sound project sheets m s) (hcs : ∀ c ∈ cs, c.path ∈ sheets)
    (hrun : cs.foldlM project.handleChange s = .ok s') : Sound project sheets m s' :=
  Except.foldlM_induction hrun h fun c hc _ _ hstep hs => hs.handleChange (hcs c hc) hstep

end Sound

/-! ## What is reported

Nothing that was reported is taken back, and no failure is uncounted. So
what is seen at the end of a batch is enough to know what did *not* happen
in it. -/

/-- A cascade adds to what was reported. -/
theorem foldlM_recompile_le (h : ps.foldlM (project.recompile trigger) s = .ok s') :
    s.events <+: s'.events ∧ s.summary.failed ≤ s'.summary.failed := by
  obtain ⟨-, rfl⟩ := foldlM_recompile_eq_ok.mp h
  exact ⟨List.prefix_append _ _, BatchSummary.failed_le_foldl_count _ _⟩

/-- **What was reported stays**, failures too. -/
theorem handleChange_le (h : project.handleChange s c = .ok s') :
    s.events <+: s'.events ∧ s.summary.failed ≤ s'.summary.failed := by
  rcases project.handleChange_cases s c with ⟨-, heq⟩ | ⟨-, heq⟩ | ⟨-, heq⟩ <;> rw [heq] at h
  · rw [Except.ok.inj h]
    exact ⟨List.prefix_refl _, le_refl _⟩
  · rcases handlePresent_cases h with ⟨e, -, rfl⟩ | ⟨output, compiled, -, -, -, -, hrun⟩
    · exact ⟨List.prefix_append _ _, Nat.le_succ _⟩
    · have hafter : s.events <+: (project.afterPresent s c.path output compiled).events :=
        List.prefix_append _ _
      obtain ⟨hevents, hfailed⟩ := foldlM_recompile_le hrun
      exact ⟨hafter.trans hevents, hfailed⟩
  · obtain ⟨-, -, hevents, hfailed⟩ := handleRemoval_of_ok h
    exact ⟨hevents, hfailed⟩

/-- A run of changes adds to what was reported. -/
theorem foldlM_handleChange_le (h : cs.foldlM project.handleChange s = .ok s') :
    s.events <+: s'.events ∧ s.summary.failed ≤ s'.summary.failed :=
  Except.foldlM_induction (motive := fun t : Progress Memory =>
      s.events <+: t.events ∧ s.summary.failed ≤ t.summary.failed) h
    ⟨List.prefix_refl _, le_refl _⟩ fun _ _ _ _ hstep ⟨hevents, hfailed⟩ =>
      ⟨hevents.trans (handleChange_le hstep).1, hfailed.trans (handleChange_le hstep).2⟩

end Project

end Stylebook
