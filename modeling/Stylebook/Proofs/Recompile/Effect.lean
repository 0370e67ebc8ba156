import Stylebook.Proofs.Graph.History
import Stylebook.Proofs.Recompile.Crash

/-!
# What one change compiles

A stylesheet that is there and compiles has a precise effect
(`RecompilesExactly`). The graph gains its direct imports and its mark. If
it was not seen before nothing else is compiled, and else everything that
depends on it is, each stylesheet once, in the order of the cascade. The
attempts may fail or not: each one is reported, and each that works out
leaves the module of what it compiled. No other file changes.

What an attempt compiles is what the files say at its turn. The modules that
were written before do not matter as long as none of them is a file that it
reads, so then it compiles the same before the change and after it.

One thing can come in between. The imports of a dependent stylesheet may
have no end, and then the program crashes at its turn: what stands before it
in the cascade was compiled, and what stands behind it was not. This is the
only way for the change not to come to its end, since the stylesheet itself
has compiled and so there is a place for every module
(`recompilesExactly_handleChange`).

The graphs that the engine works with are those of histories
(`Graph.IsReachable`), since all that it does to a graph is to register, to
observe and to remove.
-/

namespace Stylebook

open Stylebook.Path

/-! ## Graphs that can be reached

A graph keeps its edges twice, once from each end. That the two agree is not
so for any graph, but it is for those that operations lead to, and these are
all that the engine ever has. -/

/-- **A graph that operations on the empty graph lead to.** -/
def Graph.IsReachable (g : Graph) : Prop := ∃ history, g = .ofHistory history

namespace Graph.IsReachable

variable {g : Graph}

/-- The engine starts with the graph of an empty history. -/
theorem empty : Graph.empty.IsReachable := ⟨[], rfl⟩

/-- Every operation leads to the graph of a longer history. -/
theorem apply (h : g.IsReachable) (op : Graph.Operation) : (g.apply op).IsReachable := by
  obtain ⟨history, rfl⟩ := h
  exact ⟨history ++ [op], (Graph.ofHistory_concat history op).symm⟩

/-- The two sides of such a graph agree. -/
theorem consistent (h : g.IsReachable) : g.Consistent := by
  obtain ⟨history, rfl⟩ := h
  exact Graph.consistent_ofHistory history

/-- What a compile puts on record are operations. -/
theorem record (h : g.IsReachable) (p : Path) (o : Outcome) : (g.record p o).IsReachable := by
  cases o with
  | error e => exact h
  | ok r => exact (h.apply (.register p (r.2.imports.map (importPath p)))).apply (.observe p)

end Graph.IsReachable

namespace Graph

variable (g : Graph) (p output : Path) (compiled : CompiledStylesheet) {q t i : Path}

/-- A stylesheet on record has its direct imports. -/
theorem edge_record_iff : (g.record p (.ok (output, compiled))).Edge t i ↔ g.Edge t i
    ∨ p.same i = true ∧ t.isIn (compiled.imports.map (importPath p)) = true ∧ t.same i = false :=
  edge_observe.trans edge_register_iff

/-- And it is seen from then on, as what was seen before. -/
theorem hasSeen_record_iff : (g.record p (.ok (output, compiled))).hasSeen q = true
    ↔ g.hasSeen q = true ∨ q.same p = true := by
  refine hasSeen_observe.trans ?_
  rw [hasSeen, seen_register]
  rfl

end Graph

namespace Project

section Reachable

variable {σ : Type} [FileStore σ] {project : Project} {s s' : Progress σ} {c : Change}

/-- **Every change keeps to graphs that can be reached**, in any store. -/
theorem isReachable_handleChange (h : s.graph.IsReachable)
    (hstep : project.handleChange s c = .ok s') : s'.graph.IsReachable := by
  rcases project.handleChange_cases s c with ⟨-, heq⟩ | ⟨-, heq⟩ | ⟨-, heq⟩ <;> rw [heq] at hstep
  · rwa [← Except.ok.inj hstep]
  · obtain ⟨-, rfl⟩ := handlePresent_eq_ok.mp hstep
    exact h.record c.path _
  · rcases project.handleRemoval_cases s c.path with
      ⟨output, store, -, heq⟩ | ⟨e, store, -, heq⟩ | ⟨crash, store, -, heq⟩
    · rw [← Except.ok.inj (heq.symm.trans hstep)]
      exact h.apply (.removeOutgoing c.path)
    · rw [← Except.ok.inj (heq.symm.trans hstep)]
      exact h
    · cases heq.symm.trans hstep

/-- **Batches work on graphs that can be reached.** -/
theorem isReachable_handleBatch {store : σ} {g : Graph} {cs : List Change} {done : Progress σ}
    (h : g.IsReachable) (hrun : project.handleBatch store g cs = .ok done) :
    done.graph.IsReachable := by
  obtain ⟨s, hsteps, rfl⟩ := handleBatch_eq_ok.mp hrun
  show s.graph.IsReachable
  exact Except.foldlM_induction (motive := fun t : Progress σ => t.graph.IsReachable) hsteps h
    fun _ _ _ _ hstep ht => isReachable_handleChange ht hstep

end Reachable

/-! ## Attempts

A cascade is a list of attempts, each of which has the files that those
before it left. What stays of an attempt at the end of the list depends on
the modules alone: if they are different files, no later attempt writes over
it. -/

variable {project : Project} {s : Progress Memory} {m : Memory} {p q output : Path}
  {ps sheets : List Path} {a : Attempt Memory} {compiled : CompiledStylesheet}

/-- **The modules of stylesheets are different files.** -/
def Apart (project : Project) (ps : List Path) : Prop :=
  ps.Pairwise fun f g => ∀ a b, project.layout.artifact f = .ok a →
    project.layout.artifact g = .ok b → a.same b = false

/-- Each attempt has the files that the attempts before it left. -/
theorem exists_of_mem_attempts {σ : Type} [FileStore σ] {project : Project} {store : σ}
    {ps : List Path} {a : Attempt σ} (h : a ∈ project.attempts store ps) :
    ∃ before after, ps = before ++ a.path :: after ∧ a.store = project.storeAfter store before := by
  induction ps generalizing store with
  | nil => cases h
  | cons p ps ih =>
    obtain rfl | h := List.mem_cons.mp h
    · exact ⟨[], ps, rfl, rfl⟩
    · obtain ⟨before, after, rfl, hstore⟩ := ih h
      exact ⟨p :: before, after, rfl, hstore⟩

/-- **An attempt that works out** compiles the stylesheet and writes its
module. -/
theorem of_outcome_eq_ok (h : project.outcome a = .ok (output, compiled)) :
    project.layout.artifact a.path = .ok output
      ∧ compileFile a.store project.defaultUnit a.path = .ok compiled
      ∧ (project.compileAndWrite a.store a.path).2 = a.store.put output compiled.module := by
  unfold outcome at h
  obtain ⟨e, heq⟩ | ⟨output', compiled', hplace, hcompile, heq⟩ :=
    project.compileAndWrite_cases a.store a.path
  · rw [heq] at h
    cases h
  · rw [heq] at h
    obtain ⟨rfl, rfl⟩ := Prod.mk.inj (Except.ok.inj h)
    exact ⟨hplace, hcompile, by rw [heq]⟩

/-- Attempts change modules only, those that fail like those that do not. -/
theorem onlyModules_storeAfter (h : ∀ q ∈ ps, q ∈ sheets) (m : Memory) :
    OnlyModules project sheets m (project.storeAfter m ps) := by
  induction ps generalizing m with
  | nil => exact OnlyModules.refl project sheets m
  | cons p ps ih =>
    exact (OnlyModules.compileAndWrite (h p List.mem_cons_self) m).trans
      (ih (fun q hq => h q (List.mem_cons_of_mem p hq)) _)

/-- **A module that was written stays**, when the modules are different
files. -/
theorem get?_storeAfter_of_mem (hapart : Apart project ps) (ha : a ∈ project.attempts m ps)
    (h : project.outcome a = .ok (output, compiled)) :
    PathMap.get? (project.storeAfter m ps).files output = some compiled.module := by
  obtain ⟨before, after, rfl, hstore⟩ := exists_of_mem_attempts ha
  obtain ⟨hplace, -, hwritten⟩ := of_outcome_eq_ok h
  have hafter : ∀ g ∈ after, ∀ b, project.layout.artifact g = .ok b → b.same output = false := by
    intro g hg b hb
    rw [same_comm]
    exact List.rel_of_pairwise_cons (List.pairwise_append.mp hapart).2.1 hg output b hplace hb
  have hsplit : project.storeAfter m (before ++ a.path :: after)
      = project.storeAfter (a.store.put output compiled.module) after := by
    unfold storeAfter
    rw [List.foldl_append, List.foldl_cons, ← hwritten, hstore]
    rfl
  rw [hsplit, (onlyModules_storeAfter (fun _ hq => hq) _).files output hafter, Memory.get?_put,
    if_pos (same_refl output)]

/-- **A file that no attempt writes stays.** -/
theorem get?_storeAfter_of_not_written
    (h : ∀ a ∈ project.attempts m ps, ∀ output compiled,
      project.outcome a = .ok (output, compiled) → output.same q = false) :
    PathMap.get? (project.storeAfter m ps).files q = PathMap.get? m.files q := by
  induction ps generalizing m with
  | nil => rfl
  | cons p ps ih =>
    obtain ⟨hp, hps⟩ := List.forall_mem_cons.mp h
    refine (ih hps).trans ?_
    obtain ⟨e, heq⟩ | ⟨output, compiled, -, -, heq⟩ := project.compileAndWrite_cases m p
    · rw [heq]
    · have hout : project.outcome ⟨p, m⟩ = .ok (output, compiled) := by
        unfold outcome
        rw [heq]
      rw [heq, Memory.get?_put, hp output compiled hout]
      rfl

/-- They do not change what may be removed. -/
theorem deniedRemoves_storeAfter (m : Memory) (ps : List Path) :
    (project.storeAfter m ps).deniedRemoves = m.deniedRemoves := by
  induction ps generalizing m with
  | nil => rfl
  | cons p ps ih =>
    have hnow : (project.compileAndWrite m p).2.deniedRemoves = m.deniedRemoves := by
      obtain ⟨e, heq⟩ | ⟨output, compiled, -, -, heq⟩ := project.compileAndWrite_cases m p
      · rw [heq]
      · rw [heq]
        rfl
    exact (ih _).trans hnow

/-! ## The effect of a change

The statement is about the state before and after, and about every attempt
in between. It does not ask that the attempts of the cascade work out: a
dependent that fails has its error and no module, and it belongs to the
effect like the others. -/

/-- **No module is a file that compiling a stylesheet reads.** -/
def ReadsNoModule (project : Project) (sheets : List Path) (m : Memory) (f : Path) : Prop :=
  ∀ p ∈ sheets, ∀ b, project.layout.artifact p = .ok b →
    b.same f = false ∧ ∀ q, LooksUp m f q → b.same q = false

/-- A stylesheet that reads no module compiles alike while only modules
change. -/
theorem ReadsNoModule.compileFile_eq {m' : Memory} {f : Path}
    (h : ReadsNoModule project sheets m f) (hm : OnlyModules project sheets m m') :
    compileFile m' project.defaultUnit f = compileFile m project.defaultUnit f :=
  compileFile_congr _ (hm.fetch_eq fun p hp b hb => (h p hp b hb).1)
    fun q hq => hm.fetch_eq fun p hp b hb => (h p hp b hb).2 q hq

/-- **A change to one stylesheet compiles exactly what it has to.** It leads
from one state to another, the stylesheet is compiled with success, and then
those of `order` are tried. -/
structure RecompilesExactly (project : Project) (s s' : Progress Memory) (p output : Path)
    (compiled : CompiledStylesheet) (order : List Path) : Prop where
  /-- The edges to its direct imports come in, and no others. -/
  edge_iff : ∀ t i, s'.graph.Edge t i ↔ s.graph.Edge t i
    ∨ p.same i = true ∧ t.isIn (compiled.imports.map (importPath p)) = true ∧ t.same i = false
  lists_iff : ∀ t i, s'.graph.Lists i t ↔ s'.graph.Edge t i
  seen_iff : ∀ q, s'.graph.hasSeen q = true ↔ s.graph.hasSeen q = true ∨ q.same p = true
  /-- What was not seen before has no cascade. -/
  order_eq : order = if s.graph.hasSeen p = true then s'.graph.cascade p else []
  /-- The cascade is all that depends on the stylesheet. -/
  isIn_order : s.graph.hasSeen p = true → ∀ f, f.isIn order = true
    ↔ Relation.TransGen s'.graph.Edge p f ∧ p.same f = false
  /-- No file is attempted twice. -/
  distinct : (p :: order).Pairwise fun f g => f.same g = false
  /-- The stylesheet is compiled first, and each of the others is tried
  once, in order. -/
  path_attempts : (project.attempts s.store (p :: order)).map Attempt.path = p :: order
  events_eq : s'.events = s.events ++ project.successEvents p output compiled none
    ++ (project.attempts s.store (p :: order)).tail.flatMap (project.attemptEvents p)
  summary_eq : s'.summary = ((project.attempts s.store (p :: order)).map project.outcome).foldl
    BatchSummary.count s.summary
  /-- Each attempt that works out leaves the module of its compile. -/
  written : ∀ a ∈ project.attempts s.store (p :: order), ∀ b fresh,
    project.outcome a = .ok (b, fresh) →
      project.layout.artifact a.path = .ok b
        ∧ compileFile a.store project.defaultUnit a.path = .ok fresh
        ∧ PathMap.get? s'.store.files b = some fresh.module
  /-- That compile is the one with the files before the change, if it reads no
  module. -/
  fresh : ∀ a ∈ project.attempts s.store (p :: order), ∀ b fresh,
    project.outcome a = .ok (b, fresh) → ReadsNoModule project (p :: order) s.store a.path →
      compileFile s.store project.defaultUnit a.path = .ok fresh
        ∧ compileFile s'.store project.defaultUnit a.path = .ok fresh
  /-- No other file changes. -/
  unchanged : ∀ q, (∀ a ∈ project.attempts s.store (p :: order), ∀ b fresh,
      project.outcome a = .ok (b, fresh) → b.same q = false) →
    PathMap.get? s'.store.files q = PathMap.get? s.store.files q
  denied_eq : s'.store.deniedReads = s.store.deniedReads
    ∧ s'.store.deniedWrites = s.store.deniedWrites
    ∧ s'.store.deniedRemoves = s.store.deniedRemoves

/-- The attempts that a change makes have this effect if they are all of the
cascade. Whether they are is another question, which crashes have the answer
to. -/
theorem recompilesExactly_afterAttempts {order : List Path} (hgraph : s.graph.IsReachable)
    (hown : project.outcome ⟨p, s.store⟩ = .ok (output, compiled))
    (horder : order = if s.graph.hasSeen p = true
      then (s.graph.record p (.ok (output, compiled))).cascade p else [])
    (hapart : Apart project (p :: order)) :
    RecompilesExactly project s (project.afterAttempts p (project.handleOwn s p) order) p
      output compiled order := by
  have hconsistent := (hgraph.record p (.ok (output, compiled))).consistent
  have hgraph' : (project.handleOwn s p).graph = s.graph.record p (.ok (output, compiled)) := by
    show s.graph.record p (project.outcome ⟨p, s.store⟩) = _
    rw [hown]
  have hevents : (project.handleOwn s p).events
      = s.events ++ project.successEvents p output compiled none := by
    show s.events ++ project.outcomeEvents p none (project.outcome ⟨p, s.store⟩) = _
    rw [hown]
    rfl
  have hstore : project.storeAfter (project.handleOwn s p).store order
      = project.storeAfter s.store (p :: order) := rfl
  have honly : ∀ ps, (∀ q ∈ ps, q ∈ p :: order) →
      OnlyModules project (p :: order) s.store (project.storeAfter s.store ps) :=
    fun ps hps => onlyModules_storeAfter hps s.store
  have hall := honly (p :: order) fun _ hq => hq
  rw [afterAttempts, hgraph', hevents, hstore]
  constructor
  case edge_iff => exact fun t i => s.graph.edge_record_iff p output compiled
  case lists_iff => exact hconsistent.lists_iff
  case seen_iff => exact fun q => s.graph.hasSeen_record_iff p output compiled
  case order_eq => exact horder
  case isIn_order =>
    intro hseen f
    rw [horder, if_pos hseen]
    exact Graph.isIn_cascade_iff hconsistent
  case distinct =>
    rw [horder]
    split
    · exact (Graph.walk_cascade hconsistent p).distinct
    · exact List.pairwise_singleton ..
  case path_attempts => exact project.map_path_attempts s.store (p :: order)
  case events_eq => rfl
  case summary_eq => rfl
  case written =>
    intro a ha b fresh hok
    obtain ⟨hplace, hcompile, -⟩ := of_outcome_eq_ok hok
    exact ⟨hplace, hcompile, get?_storeAfter_of_mem hapart ha hok⟩
  case fresh =>
    intro a ha b fresh hok hreads
    obtain ⟨before, after, hsplit, hturn⟩ := exists_of_mem_attempts ha
    obtain ⟨-, hcompile, -⟩ := of_outcome_eq_ok hok
    rw [hturn] at hcompile
    -- only modules were written before the turn, and none of them is read
    rw [hreads.compileFile_eq (honly before fun q hq =>
      hsplit ▸ List.mem_append_left _ hq)] at hcompile
    exact ⟨hcompile, (hreads.compileFile_eq hall).trans hcompile⟩
  case unchanged => exact fun q hq => get?_storeAfter_of_not_written hq
  case denied_eq => exact ⟨hall.deniedReads, hall.deniedWrites, deniedRemoves_storeAfter _ _⟩

/-- **The effect of a change** to a stylesheet that is there and compiles,
for any files in memory and any graph that can be reached, if the modules of
what is compiled are different files. The change comes to its end with
exactly that effect, or the cascade of the stylesheet meets one whose
imports have no end. There is no state after such a change: the program has
crashed, and it leaves the files and the events of the attempts that were
made by then. -/
theorem recompilesExactly_handleChange (hgraph : s.graph.IsReachable)
    (hown : project.outcome ⟨p, s.store⟩ = .ok (output, compiled))
    (hapart : Apart project (p :: project.cascadeOf s p)) :
    (∃ s', project.handleChange s (.existing p) = .ok s'
        ∧ RecompilesExactly project s s' p output compiled (project.cascadeOf s p))
      ∨ ∃ before q after, project.cascadeOf s p = before ++ q :: after
        ∧ project.EachEnds s.store (p :: before)
        ∧ Endless (compileFile (project.storeAfter s.store (p :: before)) project.defaultUnit q)
        ∧ project.handleChange s (.existing p) = .error
          { crash := .endlessImports
            store := project.storeAfter s.store (p :: before)
            events := (project.afterAttempts p (project.handleOwn s p) before).events } := by
  have horder : project.cascadeOf s p = if s.graph.hasSeen p = true
      then (s.graph.record p (.ok (output, compiled))).cascade p else [] := by
    rw [cascadeOf_eq_of_ok hown, handleOwn, hown]
  have hends : Ends (project.outcome ⟨p, s.store⟩) := by
    rw [hown]
    exact Ends.ok _
  have hchange : project.handleChange s (.existing p)
      = (project.cascadeOf s p).foldlM (project.recompile p) (project.handleOwn s p) :=
    handlePresent_eq hends
  cases hrun : (project.cascadeOf s p).foldlM (project.recompile p) (project.handleOwn s p) with
  | ok s' =>
    obtain ⟨-, rfl⟩ := foldlM_recompile_eq_ok.mp hrun
    exact Or.inl ⟨_, hchange.trans hrun, recompilesExactly_afterAttempts hgraph hown horder hapart⟩
  | error w =>
    obtain ⟨before, q, after, hsplit, hbefore, hcrash, hw⟩ := foldlM_recompile_eq_error.mp hrun
    refine Or.inr ⟨before, q, after, hsplit, eachEnds_cons.mpr ⟨hends, hbefore⟩, ?_⟩
    -- a slash would have stopped the stylesheet itself
    obtain ⟨hplace, -, -⟩ := of_outcome_eq_ok hown
    have hslash := CacheLayout.not_mem_extension_of_artifact hplace
    cases hreason : w.crash with
    | slashInExtension =>
      rw [hreason] at hcrash
      cases outcome_eq_crashed_iff.mp hcrash with
      | slash hin _ => exact absurd hin hslash
    | endlessImports =>
      rw [hreason] at hcrash hw
      cases outcome_eq_crashed_iff.mp hcrash with
      | endless _ hendless =>
        refine ⟨hendless, ?_⟩
        rw [hchange, hrun, hw]
        rfl

/-- Two stylesheets that were compiled, one of which imports the other,
which now has another text. -/
def outdated : Progress Memory where
  store := ⟨[(⟨"/p/f.css"⟩, "@import \"g.css\";"), (⟨"/p/g.css"⟩, ".g{}"),
      (⟨"/p/.cache/f.js"⟩, "export default styles = {}"),
      (⟨"/p/.cache/g.js"⟩, "export default styles = {}")], [], [], []⟩
  graph := .ofHistory [.register ⟨"/p/f.css"⟩ [⟨"/p/g.css"⟩], .observe ⟨"/p/f.css"⟩,
    .register ⟨"/p/g.css"⟩ [], .observe ⟨"/p/g.css"⟩]

/-- The one is compiled, and then the other one that imports it. -/
theorem recompilesExactly_handleChange_of_outdated : ∃ output compiled s',
    site.handleChange outdated (.existing ⟨"/p/g.css"⟩) = .ok s'
      ∧ RecompilesExactly site outdated s' ⟨"/p/g.css"⟩ output compiled [⟨"/p/f.css"⟩] := by
  have hcompiles : (site.outcome ⟨⟨"/p/g.css"⟩, outdated.store⟩).toOption.isSome = true := by
    decide +kernel
  have hcascade : site.cascadeOf outdated ⟨"/p/g.css"⟩ = [⟨"/p/f.css"⟩] := by
    decide +kernel
  have hcomes : (site.handleChange outdated (.existing ⟨"/p/g.css"⟩)).toOption.isSome = true := by
    decide +kernel
  have hmodules : ∀ a ∈ site.modules ⟨"/p/g.css"⟩, ∀ b ∈ site.modules ⟨"/p/f.css"⟩,
      a.same b = false := by
    decide +kernel
  have hapart : Apart site [⟨"/p/g.css"⟩, ⟨"/p/f.css"⟩] :=
    List.pairwise_pair.mpr fun a b ha hb => hmodules a (mem_modules ha) b (mem_modules hb)
  obtain ⟨⟨output, compiled⟩, hown⟩ := Except.exists_eq_ok hcompiles
  obtain ⟨s', hs'⟩ := Except.exists_eq_ok hcomes
  rw [← hcascade] at hapart ⊢
  refine ⟨output, compiled, s', hs', ?_⟩
  rcases recompilesExactly_handleChange ⟨_, rfl⟩ hown hapart with
    ⟨t, ht, hexactly⟩ | ⟨before, q, after, -, -, -, herror⟩
  · obtain rfl := Except.ok.inj (hs'.symm.trans ht)
    exact hexactly
  · cases herror.symm.trans hs'

/-- Three stylesheets that imported one another in a row. The one in the
middle now imports itself without end, and the last one nothing. -/
def cornered : Progress Memory where
  store := .ofList [(⟨"/p/a.css"⟩, selfImport), (⟨"/p/g.css"⟩, ".g{}"), (⟨"/p/h.css"⟩, ".h{}")]
  graph := .ofHistory [.observe ⟨"/p/g.css"⟩, .register ⟨"/p/a.css"⟩ [⟨"/p/g.css"⟩],
    .register ⟨"/p/h.css"⟩ [⟨"/p/a.css"⟩]]

/-- **Two things are not so in general.** A module is not that of a compile
on the files that the change leaves, if it was written over a stylesheet:
here over the one it was made of. And not each stylesheet of the cascade is
attempted, if the imports of one before it have no end: here the program
crashes at the first of two, and for the second there is no module. -/
theorem not_recompilesExactly :
    (∃ output compiled fresh s', overlaid.outcome ⟨⟨"/p/f.css"⟩, plain⟩ = .ok (output, compiled)
        ∧ Apart overlaid [⟨"/p/f.css"⟩]
        ∧ overlaid.handleChange { store := plain, graph := .empty } (.existing ⟨"/p/f.css"⟩)
          = .ok s'
        ∧ compileFile s'.store "px" ⟨"/p/f.css"⟩ = .ok fresh
        ∧ PathMap.get? s'.store.files output ≠ some fresh.module)
      ∧ ∃ output compiled w, cornered.graph.IsReachable
        ∧ site.outcome ⟨⟨"/p/g.css"⟩, cornered.store⟩ = .ok (output, compiled)
        ∧ site.cascadeOf cornered ⟨"/p/g.css"⟩ = [⟨"/p/a.css"⟩, ⟨"/p/h.css"⟩]
        ∧ Apart site [⟨"/p/g.css"⟩, ⟨"/p/a.css"⟩, ⟨"/p/h.css"⟩]
        ∧ site.handleChange cornered (.existing ⟨"/p/g.css"⟩) = .error w
        ∧ PathMap.get? w.store.files ⟨"/p/.cache/h.js"⟩ = none := by
  refine ⟨?overlaid, ?endless⟩
  case overlaid =>
    -- the module is written over the stylesheet
    have hcomes : (overlaid.handleChange { store := plain, graph := .empty }
        (.existing ⟨"/p/f.css"⟩)).toOption.any (fun s' =>
          (overlaid.outcome ⟨⟨"/p/f.css"⟩, plain⟩).toOption.any fun r =>
            (compileFile s'.store "px" ⟨"/p/f.css"⟩).toOption.any fun fresh =>
              PathMap.get? s'.store.files r.1 ≠ some fresh.module) = true := by
      decide +kernel
    obtain ⟨s', hchange, h⟩ := Except.exists_of_any hcomes
    obtain ⟨⟨output, compiled⟩, hown, h⟩ := Except.exists_of_any h
    obtain ⟨fresh, hfresh, hdiffers⟩ := Except.exists_of_any h
    exact ⟨output, compiled, fresh, s', hown, List.pairwise_singleton .., hchange, hfresh,
      of_decide_eq_true hdiffers⟩
  case endless =>
    -- the first one in the cascade imports itself, so the second one has no turn
    have hcompiles : (site.outcome ⟨⟨"/p/g.css"⟩, cornered.store⟩).toOption.isSome = true := by
      decide +kernel
    have hcascade : site.cascadeOf cornered ⟨"/p/g.css"⟩ = [⟨"/p/a.css"⟩, ⟨"/p/h.css"⟩] := by
      decide +kernel
    have hmodules : [⟨"/p/g.css"⟩, ⟨"/p/a.css"⟩, ⟨"/p/h.css"⟩].Pairwise fun f g =>
        ∀ a ∈ site.modules f, ∀ b ∈ site.modules g, a.same b = false := by
      decide +kernel
    have hfetch : FileStore.fetch (site.handleOwn cornered ⟨"/p/g.css"⟩).store ⟨"/p/a.css"⟩
        = .ok selfImport :=
      Except.eq_ok_of_toOption (by decide +kernel)
    obtain ⟨⟨output, compiled⟩, hown⟩ := Except.exists_eq_ok hcompiles
    have hends : Ends (site.outcome ⟨⟨"/p/g.css"⟩, cornered.store⟩) := by
      rw [hown]
      exact Ends.ok _
    have hbreaks : site.handleChange cornered (.existing ⟨"/p/g.css"⟩)
        = .error ⟨.endlessImports, (site.handleOwn cornered ⟨"/p/g.css"⟩).store,
          (site.handleOwn cornered ⟨"/p/g.css"⟩).events⟩ := by
      refine handlePresent_eq_error.mpr (Or.inr ⟨hends, ?_⟩)
      rw [hcascade]
      refine foldlM_recompile_eq_error.mpr ⟨[], ⟨"/p/a.css"⟩, [⟨"/p/h.css"⟩], rfl, eachEnds_nil,
        outcome_eq_crashed_iff.mpr (crashes_selfImport hfetch), ?_⟩
      rw [afterAttempts_nil]
      rfl
    refine ⟨output, compiled, _, ⟨_, rfl⟩, hown, hcascade, ?_, hbreaks, by decide +kernel⟩
    exact hmodules.imp fun h a b ha hb => h a (mem_modules ha) b (mem_modules hb)

end Project

end Stylebook
