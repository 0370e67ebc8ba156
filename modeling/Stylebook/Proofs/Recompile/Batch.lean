import Stylebook.Proofs.Recompile.Step

/-!
# One module through a batch

A stylesheet is compiled in a batch on its own account, or because a change
to another one reaches it: that one was seen before, compiles, and leads to
it in the import graph. `Project.Touches` says that one change does either.
When a stylesheet that compiles is touched in a batch its module is the one
of its compile at the end (`done_of_touched`), and when it is not its module
is what it was before (`get?_of_untouched`). The two together say all that a
batch does to one module, as long as the batch comes to its end.
-/

namespace Stylebook

/-! ## The order of changes

A batch is handled in ascending order of paths, and of the changes to one
path only the first is handled. Nothing is lost by that but repeats: for
each path that a batch names there is a change that is handled. -/

namespace Change

variable {cs : List Change} {c last : Change}

theorem mem_of_mem_go (h : c ∈ dropRepeats.go last cs) : c ∈ cs := by
  induction cs generalizing last with
  | nil => exact h
  | cons d cs ih =>
    rw [dropRepeats.go] at h
    split at h
    · exact List.mem_cons_of_mem _ (ih h)
    · rcases List.mem_cons.mp h with rfl | h
      · exact List.mem_cons_self
      · exact List.mem_cons_of_mem _ (ih h)

/-- No change is handled that was not given. -/
theorem mem_of_mem_inOrder (h : c ∈ inOrder cs) : c ∈ cs := by
  have hsort : c ∈ cs.mergeSort (fun a b => a.path.le b.path) ↔ c ∈ cs := List.mem_mergeSort
  rw [← hsort]
  unfold inOrder at h
  cases hsorted : cs.mergeSort fun a b => a.path.le b.path with
  | nil =>
    rw [hsorted] at h
    exact h
  | cons d ds =>
    rw [hsorted] at h
    rcases List.mem_cons.mp h with rfl | h
    · exact List.mem_cons_self
    · exact List.mem_cons_of_mem _ (mem_of_mem_go h)

/-- A change is left out only when one to the same path stands before it. -/
theorem exists_mem_go (h : c ∈ cs) : last.path.same c.path = true
    ∨ ∃ d ∈ dropRepeats.go last cs, d.path.same c.path = true := by
  induction cs generalizing last with
  | nil => cases h
  | cons d cs ih =>
    rw [dropRepeats.go]
    by_cases hrepeat : d.path.same last.path = true
    · rw [if_pos hrepeat]
      rcases List.mem_cons.mp h with rfl | h
      · exact Or.inl (by rw [Path.same_comm]; exact hrepeat)
      · exact ih h
    · rw [if_neg hrepeat]
      rcases List.mem_cons.mp h with rfl | h
      · exact Or.inr ⟨c, List.mem_cons_self, Path.same_refl _⟩
      · rcases @ih d h with hd | ⟨e, he, hsame⟩
        · exact Or.inr ⟨d, List.mem_cons_self, hd⟩
        · exact Or.inr ⟨e, List.mem_cons_of_mem _ he, hsame⟩

/-- **Each path of a batch is handled**, by a change to the same path, which
need not be the same change. -/
theorem exists_mem_inOrder (h : c ∈ cs) : ∃ d ∈ inOrder cs, d.path.same c.path = true := by
  have hsort : c ∈ cs.mergeSort (fun a b => a.path.le b.path) := List.mem_mergeSort.mpr h
  unfold inOrder
  cases hsorted : cs.mergeSort fun a b => a.path.le b.path with
  | nil =>
    rw [hsorted] at hsort
    cases hsort
  | cons d ds =>
    rw [hsorted] at hsort
    rcases List.mem_cons.mp hsort with rfl | hrest
    · exact ⟨c, List.mem_cons_self, Path.same_refl _⟩
    · rcases @exists_mem_go _ _ d hrest with hd | ⟨e, he, hsame⟩
      · exact ⟨d, List.mem_cons_self, hd⟩
      · exact ⟨e, List.mem_cons_of_mem _ he, hsame⟩

/-- Changes in ascending order stay as they are, but for repeats. -/
theorem inOrder_of_pairwise (h : cs.Pairwise fun c d => c.path.le d.path = true) :
    inOrder cs = dropRepeats cs := by
  rw [inOrder, List.mergeSort_of_pairwise h]

end Change

namespace Project

variable {project : Project} {sheets : List Path} {m : Memory} {s s' : Progress Memory}
  {f a b p trigger : Path} {ps : List Path} {compiled : CompiledStylesheet} {c : Change}
  {cs : List Change}

/-- **A change touches a stylesheet**: it reports the stylesheet as there,
or another one that was seen before, compiles, and leads to it in the graph.
The three conditions on the other one are those under which it has a cascade
at all, and the last says that the stylesheet is in it. -/
def Touches (project : Project) (s : Progress Memory) (c : Change) (f : Path) : Prop :=
  c.IsPresent ∧ (c.path = f ∨ s.graph.hasSeen c.path = true
    ∧ (∃ r, (project.compileAndWrite s.store c.path).1 = .ok r)
    ∧ Relation.TransGen s.graph.Edge c.path f)

/-- **One of several changes touches a stylesheet**, when its turn comes.
The state at its turn is that of the run so far, since changes before it may
have seen a stylesheet for the first time or changed the graph. -/
def Touched (project : Project) (s : Progress Memory) (cs : List Change) (f : Path) : Prop :=
  ∃ before c after turn, cs = before ++ c :: after
    ∧ before.foldlM project.handleChange s = .ok turn ∧ Touches project turn c f

/-- Nothing touches anything in a batch without changes. -/
theorem not_touched_nil : ¬Touched project s [] f := by
  rintro ⟨before, c, after, -, heq, -⟩
  exact absurd heq.symm (List.append_ne_nil_of_right_ne_nil _ (List.cons_ne_nil _ _))

/-- The first change touches a stylesheet, or one of the others does from
there. -/
theorem touched_cons (hstep : project.handleChange s c = .ok s') : Touched project s (c :: cs) f
    ↔ Touches project s c f ∨ Touched project s' cs f := by
  constructor
  · rintro ⟨before, d, after, turn, heq, hturn, h⟩
    cases before with
    | nil =>
      cases heq
      rw [Except.foldlM_nil_eq_ok.mp hturn] at h
      exact Or.inl h
    | cons b before =>
      cases heq
      obtain ⟨t, ht, hrest⟩ := Except.foldlM_cons_eq_ok.mp hturn
      obtain rfl := Except.ok.inj (hstep.symm.trans ht)
      exact Or.inr ⟨before, d, after, turn, rfl, hrest, h⟩
  · rintro (h | ⟨before, d, after, turn, rfl, hturn, h⟩)
    · exact ⟨[], c, cs, s, rfl, rfl, h⟩
    · exact ⟨c :: before, d, after, turn, rfl, Except.foldlM_cons_eq_ok.mpr ⟨s', hstep, hturn⟩, h⟩

/-- **A stylesheet with one spelling and a module of its own**: no other
stylesheet has the same module. One path can be spelled in several ways, and
a project that names a stylesheet in two of them would have two stylesheets
with one module. -/
structure Owns (project : Project) (sheets : List Path) (f a : Path) : Prop where
  mem : f ∈ sheets
  spelled : ∀ p ∈ sheets, p.same f = true → p = f
  artifact : project.layout.artifact f = .ok a
  own : ∀ p ∈ sheets, p ≠ f → ∀ b, project.layout.artifact p = .ok b → b.same a = false

/-- **A stylesheet that compiles**, where no module is read and its own may
be written. That no module is read makes its compile the same at every
moment of a batch, and one result can be named for all of them. -/
structure Compiles (project : Project) (sheets : List Path) (m : Memory) (f a : Path)
    (compiled : CompiledStylesheet) : Prop extends Owns project sheets f a where
  unread : ∀ p ∈ sheets, ∀ b, project.layout.artifact p = .ok b →
    b.same f = false ∧ ∀ q, LooksUp m f q → b.same q = false
  writable : a.isIn m.deniedWrites = false
  compiles : compileFile m project.defaultUnit f = .ok compiled

/-- **The stylesheet was compiled**: its module is there and it was
reported. Both are said, because the module alone could have been there
before. -/
def Done (project : Project) (f a : Path) (compiled : CompiledStylesheet) (s : Progress Memory) :
    Prop :=
  PathMap.get? s.store.files a = some compiled.module
    ∧ ∃ trigger, Event.compiled (project.display f) (project.display a)
        compiled.styles.names.length trigger ∈ s.events

/-- The cascade of another stylesheet has this one when the graph leads to
it. The graph is the one *before* the other stylesheet was compiled: the
edges that its compile adds go out from it, and a way to this one that
passes through it again could have started there. -/
theorem Sound.mem_cascade_iff (hs : Sound project sheets m s)
    (hspelled : ∀ q ∈ sheets, q.same f = true → q = f) (hp : p ∈ sheets) (hne : p ≠ f)
    (hb : project.layout.artifact p = .ok b) (fresh : CompiledStylesheet) :
    f ∈ (project.afterPresent s p b fresh).graph.cascade p
      ↔ Relation.TransGen s.graph.Edge p f := by
  have hafter := hs.afterPresent hp hb fresh
  have hnot : p.same f = false := by
    rw [← Bool.not_eq_true]
    exact fun hsame => hne (hspelled p hp hsame)
  have hedge : (project.afterPresent s p b fresh).graph.Edge
      = (s.graph.register p (fresh.imports.map (importPath p))).Edge := by
    funext t i
    exact propext Graph.edge_observe
  -- a cascade is known up to spelling, and the stylesheet has one spelling only
  have hin : f ∈ (project.afterPresent s p b fresh).graph.cascade p
      ↔ f.isIn ((project.afterPresent s p b fresh).graph.cascade p) = true := by
    refine ⟨Path.isIn_of_mem, fun hf => ?_⟩
    obtain ⟨q, hq, hsame⟩ := Path.isIn_iff.mp hf
    have hqf := hspelled q (hafter.mem_of_mem_cascade hq) (by rw [Path.same_comm]; exact hsame)
    rwa [hqf] at hq
  rw [hin, Graph.isIn_cascade_iff hafter.consistent, hedge, Graph.transGen_register hnot,
    and_iff_left hnot]

/-! ## A module that nothing touches

The frame of a batch. For each operation there is a lemma that it leaves the
module of a stylesheet as it is, if it is not that stylesheet which it is
about; the modules of the others are other files. -/

namespace Owns

/-- Writing another module leaves this one. -/
theorem get?_put (h : Owns project sheets f a) (hp : p ∈ sheets) (hne : p ≠ f)
    (hb : project.layout.artifact p = .ok b) (m' : Memory) (text : String) :
    PathMap.get? (m'.put b text).files a = PathMap.get? m'.files a := by
  rw [Memory.get?_put, h.own p hp hne b hb]
  rfl

/-- Removing another module leaves this one. -/
theorem get?_removeModule (h : Owns project sheets f a) (hp : p ∈ sheets)
    (hne : p ≠ f) (m' : Memory) : PathMap.get? (project.removeModule m' p).2.files a
      = PathMap.get? m'.files a := by
  rcases project.removeModule_cases m' p with heq | ⟨output, hartifact, heq⟩
  · rw [heq]
  · rw [heq, Memory.get?_delete, h.own p hp hne output hartifact]
    rfl

/-- Compiling another stylesheet leaves the module as it is. -/
theorem get?_recompile (h : Owns project sheets f a) (hp : p ∈ sheets) (hne : p ≠ f)
    (hstep : project.recompile trigger s p = .ok s') :
    PathMap.get? s'.store.files a = PathMap.get? s.store.files a := by
  rw [store_recompile hstep]
  rcases project.compileAndWrite_cases s.store p with ⟨e, heq⟩ | ⟨output, fresh, ha, -, heq⟩
  · rw [heq]
  · rw [heq]
    exact h.get?_put hp hne ha s.store _

/-- A cascade without the stylesheet leaves its module as it is. -/
theorem get?_foldlM_recompile (h : Owns project sheets f a) (hps : ∀ p ∈ ps, p ∈ sheets)
    (hf : f ∉ ps) (hrun : ps.foldlM (project.recompile trigger) s = .ok s') :
    PathMap.get? s'.store.files a = PathMap.get? s.store.files a := by
  refine Except.foldlM_induction (motive := fun t : Progress Memory =>
    PathMap.get? t.store.files a = PathMap.get? s.store.files a) hrun rfl ?_
  intro p hp t t' hstep ht
  have hne : p ≠ f := fun heq => hf (heq ▸ hp)
  rw [h.get?_recompile (hps p hp) hne hstep, ht]

/-- Compiling another stylesheet on its own account does not touch the
module. -/
theorem get?_afterPresent (h : Owns project sheets f a) (hp : p ∈ sheets)
    (hne : p ≠ f) (hb : project.layout.artifact p = .ok b) (s : Progress Memory)
    (fresh : CompiledStylesheet) :
    PathMap.get? (project.afterPresent s p b fresh).store.files a
      = PathMap.get? s.store.files a := h.get?_put hp hne hb s.store _

/-- Another stylesheet that is there, and does not lead to this one, leaves
the module as it is. -/
theorem get?_handlePresent (h : Owns project sheets f a) (hs : Sound project sheets m s)
    (hp : p ∈ sheets) (hne : p ≠ f)
    (hnot : s.graph.hasSeen p = true → (∃ r, (project.compileAndWrite s.store p).1 = .ok r) →
      ¬Relation.TransGen s.graph.Edge p f) (hstep : project.handlePresent s p = .ok s') :
    PathMap.get? s'.store.files a = PathMap.get? s.store.files a := by
  rcases handlePresent_cases hstep with ⟨e, -, rfl⟩ | ⟨b, fresh, ha, -, hok, hcascade, hrun⟩
  · rfl
  · have hf : f ∉ project.cascadeOf s p := by
      rw [hcascade]
      split
      · rename_i hseen
        exact fun hmem =>
          hnot hseen ⟨_, by rw [hok]⟩ ((hs.mem_cascade_iff h.spelled hp hne ha fresh).mp hmem)
      · exact List.not_mem_nil
    rw [h.get?_foldlM_recompile (fun q hq => hs.mem_of_mem_cascadeOf hp ha hcascade hq) hf hrun,
      h.get?_afterPresent hp hne ha]

/-- **A change that does not touch the stylesheet** leaves its module as it
is, unless it reports the stylesheet as gone. -/
theorem get?_handleChange (h : Owns project sheets f a)
    (hs : Sound project sheets m s) (hc : c.path ∈ sheets) (hgone : ¬(c.IsGone ∧ c.path = f))
    (hnot : ¬Touches project s c f) (hstep : project.handleChange s c = .ok s') :
    PathMap.get? s'.store.files a = PathMap.get? s.store.files a := by
  rcases project.handleChange_cases s c with ⟨-, heq⟩ | ⟨hthere, heq⟩ | ⟨habsent, heq⟩ <;>
    rw [heq] at hstep
  · rw [Except.ok.inj hstep]
  · exact h.get?_handlePresent hs hc (fun hpath => hnot ⟨hthere, Or.inl hpath⟩)
      (fun hseen hok hreach => hnot ⟨hthere, Or.inr ⟨hseen, hok, hreach⟩⟩) hstep
  · rw [(handleRemoval_of_ok hstep).1,
      h.get?_removeModule hc fun hpath => hgone ⟨habsent, hpath⟩]

/-- **A stylesheet that is not touched** keeps the module that it has. It is
the half of the account that does not ask whether the stylesheet compiles. -/
theorem get?_of_untouched (h : Owns project sheets f a)
    (hs : Sound project sheets m s) (hcs : ∀ c ∈ cs, c.path ∈ sheets)
    (hgone : ∀ c ∈ cs, ¬(c.IsGone ∧ c.path = f)) (hf : ¬Touched project s cs f)
    (hrun : cs.foldlM project.handleChange s = .ok s') :
    PathMap.get? s'.store.files a = PathMap.get? s.store.files a := by
  induction cs generalizing s with
  | nil => rw [Except.foldlM_nil_eq_ok.mp hrun]
  | cons c cs ih =>
    have hc := hcs c List.mem_cons_self
    obtain ⟨t, hstep, hrest⟩ := Except.foldlM_cons_eq_ok.mp hrun
    rw [touched_cons hstep, not_or] at hf
    refine (ih (hs.handleChange hc hstep) (fun d hd => hcs d (List.mem_cons_of_mem _ hd))
      (fun d hd => hgone d (List.mem_cons_of_mem _ hd)) hf.2 hrest).trans ?_
    exact h.get?_handleChange hs hc (hgone c List.mem_cons_self) hf.1 hstep

end Owns

/-! ## A module that is written

The other half. A stylesheet that compiles has the same result at every
moment of a batch. So once it was compiled its module is right, and whatever
compiles it again writes the same: being done is kept by every later change,
except one that reports the stylesheet as gone. -/

namespace Compiles

/-- Compiling the stylesheet succeeds at any time of the batch, with one
result. Only modules differ from the files at the beginning, and it reads
none. -/
theorem compileFile_iff (h : Compiles project sheets m f a compiled) {m' : Memory}
    (hs : OnlyModules project sheets m m') {result : CompiledStylesheet} :
    compileFile m' project.defaultUnit f = .ok result ↔ result = compiled := by
  have hown : FileStore.fetch m' f = FileStore.fetch m f :=
    hs.fetch_eq fun p hp b hb => (h.unread p hp b hb).1
  have hreads : ∀ q, LooksUp m f q → FileStore.fetch m' q = FileStore.fetch m q :=
    fun q hq => hs.fetch_eq fun p hp b hb => (h.unread p hp b hb).2 q hq
  rw [compileFile_congr _ hown hreads, h.compiles]
  exact ⟨fun heq => (Except.ok.inj heq).symm, fun heq => congrArg _ heq.symm⟩

/-- So its module can be written at any time. -/
theorem compileAndWrite_self (h : Compiles project sheets m f a compiled)
    (hs : Sound project sheets m s) : project.compileAndWrite s.store f
      = (.ok (a, compiled), s.store.put a compiled.module) := by
  rw [compileAndWrite_eq h.artifact ((h.compileFile_iff hs.store).mpr rfl), if_neg]
  rw [hs.store.deniedWrites, h.writable]
  exact Bool.false_ne_true

/-! ## Compiling again -/

/-- Compiling the stylesheet again makes it done. -/
theorem done_recompile (h : Compiles project sheets m f a compiled)
    (hs : Sound project sheets m s) (hstep : project.recompile trigger s f = .ok s') :
    Done project f a compiled s' := by
  refine ⟨?_, some (project.display trigger), ?_⟩
  · rw [store_recompile hstep, h.compileAndWrite_self hs, Memory.get?_put, Path.same_refl]
    rfl
  · unfold recompile at hstep
    rw [h.compileAndWrite_self hs] at hstep
    rw [← Except.ok.inj hstep]
    exact List.mem_append_right _ (List.mem_append_right _ List.mem_cons_self)

/-- Compiling any stylesheet keeps it done. -/
theorem keeps_recompile (h : Compiles project sheets m f a compiled)
    (hs : Sound project sheets m s) (hdone : Done project f a compiled s) (hp : p ∈ sheets)
    (hstep : project.recompile trigger s p = .ok s') : Done project f a compiled s' := by
  by_cases hpf : p = f
  · rw [hpf] at hstep
    exact h.done_recompile hs hstep
  · obtain ⟨hget, name, hevent⟩ := hdone
    refine ⟨?_, name, (events_recompile hstep).subset hevent⟩
    rw [h.get?_recompile hp hpf hstep, hget]

/-- **A stylesheet of a cascade is compiled in it**, and what comes behind
it in the cascade keeps it done. -/
theorem done_foldlM_recompile (h : Compiles project sheets m f a compiled)
    (hs : Sound project sheets m s) (hps : ∀ p ∈ ps, p ∈ sheets)
    (hf : f ∈ ps ∨ Done project f a compiled s)
    (hrun : ps.foldlM (project.recompile trigger) s = .ok s') :
    Done project f a compiled s' := by
  induction ps generalizing s with
  | nil =>
    rw [Except.foldlM_nil_eq_ok.mp hrun]
    exact hf.resolve_left List.not_mem_nil
  | cons p ps ih =>
    have hp := hps p List.mem_cons_self
    obtain ⟨t, hstep, hrest⟩ := Except.foldlM_cons_eq_ok.mp hrun
    refine ih (hs.recompile hp hstep) (fun q hq => hps q (List.mem_cons_of_mem _ hq)) ?_ hrest
    rcases hf with hf | hdone
    · rcases List.mem_cons.mp hf with rfl | hf
      · exact Or.inr (h.done_recompile hs hstep)
      · exact Or.inl hf
    · exact Or.inr (h.keeps_recompile hs hdone hp hstep)

/-! ## One change -/

/-- A change to the stylesheet itself makes it done. Its own cascade may
have it as well, when it imports itself through others. -/
theorem done_handlePresent (h : Compiles project sheets m f a compiled)
    (hs : Sound project sheets m s) (hstep : project.handlePresent s f = .ok s') :
    Done project f a compiled s' := by
  rcases handlePresent_cases hstep with ⟨e, herror, -⟩ | ⟨b, fresh, ha, hc, -, hcascade, hrun⟩
  · rw [h.compileAndWrite_self hs] at herror
    cases herror
  · obtain rfl : fresh = compiled := (h.compileFile_iff hs.store).mp hc
    obtain rfl : b = a := Except.ok.inj (ha.symm.trans h.artifact)
    have hdone : Done project f b fresh (project.afterPresent s f b fresh) := by
      refine ⟨?_, none, List.mem_append_right _ (List.mem_append_right _ List.mem_cons_self)⟩
      show PathMap.get? (s.store.put b fresh.module).files b = _
      rw [Memory.get?_put, Path.same_refl]
      rfl
    -- whatever is compiled behind it writes other modules
    exact h.done_foldlM_recompile (hs.afterPresent h.mem ha fresh)
      (fun q hq => hs.mem_of_mem_cascadeOf h.mem ha hcascade hq) (Or.inr hdone) hrun

/-- **A change that touches the stylesheet compiles it.** -/
theorem done_handleChange (h : Compiles project sheets m f a compiled)
    (hs : Sound project sheets m s) (hc : c.path ∈ sheets) (htouch : Touches project s c f)
    (hstep : project.handleChange s c = .ok s') : Done project f a compiled s' := by
  obtain ⟨hpresent, hwhy⟩ := htouch
  rw [handleChange_of_isPresent hpresent] at hstep
  by_cases hpath : c.path = f
  · rw [hpath] at hstep
    exact h.done_handlePresent hs hstep
  · obtain ⟨hseen, ⟨r, hr⟩, hreach⟩ := hwhy.resolve_left hpath
    rcases handlePresent_cases hstep with ⟨e, herror, -⟩ | ⟨b, fresh, ha, -, -, hcascade, hrun⟩
    · rw [herror] at hr
      cases hr
    · have hf : f ∈ project.cascadeOf s c.path := by
        rw [hcascade, if_pos hseen]
        exact (hs.mem_cascade_iff h.spelled hc hpath ha fresh).mpr hreach
      exact h.done_foldlM_recompile (hs.afterPresent hc ha fresh)
        (fun q hq => hs.mem_of_mem_cascadeOf hc ha hcascade hq) (Or.inl hf) hrun

/-- A change keeps it done, unless it reports the stylesheet as gone. -/
theorem keeps_handleChange (h : Compiles project sheets m f a compiled)
    (hs : Sound project sheets m s) (hc : c.path ∈ sheets) (hgone : ¬(c.IsGone ∧ c.path = f))
    (hdone : Done project f a compiled s) (hstep : project.handleChange s c = .ok s') :
    Done project f a compiled s' := by
  by_cases htouch : Touches project s c f
  · exact h.done_handleChange hs hc htouch hstep
  · obtain ⟨hget, name, hevent⟩ := hdone
    refine ⟨?_, name, (handleChange_le hstep).1.subset hevent⟩
    rw [h.get?_handleChange hs hc hgone htouch hstep, hget]

/-! ## Several changes -/

/-- **A stylesheet that is touched is compiled**, and stays so to the end of
the run. Together with `get?_of_untouched` this decides what its module is. -/
theorem done_of_touched (h : Compiles project sheets m f a compiled)
    (hs : Sound project sheets m s) (hcs : ∀ c ∈ cs, c.path ∈ sheets)
    (hgone : ∀ c ∈ cs, ¬(c.IsGone ∧ c.path = f))
    (hf : Touched project s cs f ∨ Done project f a compiled s)
    (hrun : cs.foldlM project.handleChange s = .ok s') : Done project f a compiled s' := by
  induction cs generalizing s with
  | nil =>
    rw [Except.foldlM_nil_eq_ok.mp hrun]
    exact hf.resolve_left not_touched_nil
  | cons c cs ih =>
    have hc := hcs c List.mem_cons_self
    obtain ⟨t, hstep, hrest⟩ := Except.foldlM_cons_eq_ok.mp hrun
    refine ih (hs.handleChange hc hstep) (fun d hd => hcs d (List.mem_cons_of_mem _ hd))
      (fun d hd => hgone d (List.mem_cons_of_mem _ hd)) ?_ hrest
    rcases hf with hf | hdone
    · rcases (touched_cons hstep).mp hf with htouch | hf
      · exact Or.inr (h.done_handleChange hs hc htouch hstep)
      · exact Or.inl hf
    · exact Or.inr (h.keeps_handleChange hs hc (hgone c List.mem_cons_self) hdone hstep)

end Compiles

/-- The module of a stylesheet, if it has one. -/
def modules (project : Project) (f : Path) : List Path :=
  (project.layout.artifact f).toOption.toList

/-- A module of a stylesheet is its module. -/
theorem mem_modules (ha : project.layout.artifact f = .ok a) : a ∈ project.modules f := by
  rw [modules, ha]
  exact List.mem_singleton_self a

/-! ## A round -/

/-- **One round**: the files are edited, and a batch of changes is handled. -/
def round (project : Project) (s : Memory × Graph) (edit : Memory → Memory)
    (changes : List Change) : Except (Wreck Memory) (Memory × Graph) :=
  (project.handleBatch (edit s.1) s.2 changes).map fun done => (done.store, done.graph)

/-- **A batch that comes to its end** has handled its changes, in their
order, and says so in its last event. It is the equation by which every
statement on batches becomes one on runs of changes. -/
theorem handleBatch_eq_ok {σ : Type} [FileStore σ] {project : Project} {store : σ} {g : Graph}
    {changes : List Change} {done : Progress σ} : project.handleBatch store g changes = .ok done
    ↔ ∃ s, (Change.inOrder changes).foldlM project.handleChange { store := store, graph := g }
      = .ok s ∧ done = report s [.batchComplete s.summary] := by
  unfold handleBatch
  rw [Except.bind_eq_ok]
  refine exists_congr fun s => and_congr_right fun _ => ?_
  exact ⟨fun h => (Except.ok.inj h).symm, fun h => congrArg _ h.symm⟩

/-- A round comes to its end as its batch does. -/
theorem round_eq_ok {s t : Memory × Graph} {edit : Memory → Memory} :
    project.round s edit cs = .ok t ↔ ∃ done, project.handleBatch (edit s.1) s.2 cs = .ok done
      ∧ t = (done.store, done.graph) := by
  unfold round
  cases project.handleBatch (edit s.1) s.2 cs with
  | error w => simp [Except.map]
  | ok done =>
    simp only [Except.map, Except.ok.injEq, exists_eq_left']
    exact eq_comm

/-- A project with its modules in `.cache`. -/
def site : Project := ⟨.new ⟨"/p"⟩ ⟨".cache"⟩ "js", "px"⟩

/-- A project whose modules stand where its stylesheets do. -/
def overlaid : Project := ⟨.new ⟨"/p"⟩ ⟨"/p"⟩ "css", "px"⟩

/-- A stylesheet that has a rule and imports nothing. -/
def plain : Memory := .ofList [(⟨"/p/f.css"⟩, ".f{}")]

/-- Two stylesheets, one of which imports the other. -/
def importing : Memory := .ofList
  [(⟨"/p/f.css"⟩, "@import \"g.css\";"), (⟨"/p/g.css"⟩, "")]

/-- Where the module of the first of them is. -/
theorem artifact_f : site.layout.artifact ⟨"/p/f.css"⟩ = .ok ⟨"/p/.cache/f.js"⟩ :=
  Except.eq_ok_of_toOption (by decide +kernel)

end Project

end Stylebook
