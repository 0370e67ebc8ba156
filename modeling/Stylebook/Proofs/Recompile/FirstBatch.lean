import Stylebook.Proofs.Path.Order
import Stylebook.Proofs.Recompile.Crash
import Stylebook.Proofs.Recompile.Effect

/-!
# The first batch

The first batch of a project meets a graph that knows nothing. Its
stylesheets are handled in ascending order, each path once
(`Change.ascending_inOrder`), and when the turn of one comes the graph has
seen only those before it. So nothing is compiled because of another
stylesheet, although the imports of those before are on record by then
(`Project.foldlM_handlePresent`). This holds for any store.

In memory the turns also do not see each other's modules, if no module
stands where a later stylesheet is or reads. Then the batch is a map: what
becomes of each stylesheet is what becomes of it with the files as they were
before the batch (`Project.handlesEachOnce_handleBatch`). A module in the
place of a later stylesheet is compiled instead of it, and a crash takes
away the turns that are still to come (`Project.not_handlesEachOnce`).
-/

namespace Stylebook

/-! ## Ascending changes

That each path has its turn once comes from the order alone: in a sorted
list repeats are neighbours, so that dropping a change which has the path of
the one before it is enough. -/

namespace Change

variable {cs : List Change} {last : Change}

/-- Without its repeats a sorted list is ascending. -/
theorem ascending_go (h : (last :: cs).Pairwise fun c d => c.path.le d.path = true) :
    (last :: dropRepeats.go last cs).Pairwise fun c d => c.path.order d.path = .lt := by
  induction cs generalizing last with
  | nil => exact List.pairwise_singleton _ _
  | cons c cs ih =>
    obtain ⟨hlast, hcs⟩ := List.pairwise_cons.mp h
    rw [dropRepeats.go]
    split
    · exact ih (List.pairwise_cons.mpr
        ⟨fun d hd => hlast d (List.mem_cons_of_mem c hd), (List.pairwise_cons.mp hcs).2⟩)
    · rename_i hne
      have hlt : last.path.order c.path = .lt := by
        rw [Bool.not_eq_true, Path.same_comm] at hne
        exact Path.order_eq_lt (hlast c List.mem_cons_self) hne
      refine List.Pairwise.cons (fun d hd => ?_) (ih hcs)
      rcases List.mem_cons.mp hd with rfl | hd
      · exact hlt
      · have hle : c.path.le d.path = true := List.rel_of_pairwise_cons hcs (mem_of_mem_go hd)
        unfold Path.le at hle
        exact Std.TransCmp.lt_of_lt_of_isLE hlt hle

/-- The order of changes is that of their paths, and so it is one. -/
theorem path_le_trans (a b c : Change) (h : a.path.le b.path = true)
    (h' : b.path.le c.path = true) : a.path.le c.path = true :=
  Path.le_trans a.path b.path c.path h h'

/-- Any two changes can be compared, as the sorting asks. -/
theorem path_le_total (a b : Change) : (a.path.le b.path || b.path.le a.path) = true :=
  Path.le_total a.path b.path

/-- **Changes are handled at ascending paths.** -/
theorem ascending_inOrder (cs : List Change) : Path.Ascending ((inOrder cs).map Change.path) := by
  have hsorted := List.pairwise_mergeSort path_le_trans path_le_total cs
  unfold inOrder
  refine List.pairwise_map.mpr ?_
  cases hcs : cs.mergeSort fun a b => a.path.le b.path with
  | nil => exact List.Pairwise.nil
  | cons c rest =>
    rw [hcs] at hsorted
    exact ascending_go hsorted

/-- The paths of a batch of existing files, in the order in which they are
handled. -/
def firstOrder (ps : List Path) : List Path := (inOrder (ps.map existing)).map Change.path

variable {ps : List Path} {p : Path}

/-- Files that are there stay so when their changes are put in order. -/
theorem inOrder_existing (ps : List Path) :
    inOrder (ps.map existing) = (firstOrder ps).map existing := by
  rw [firstOrder, List.map_map]
  refine (List.map_id _).symm.trans (List.map_congr_left fun c hc => ?_)
  obtain ⟨p, -, rfl⟩ := List.mem_map.mp (mem_of_mem_inOrder hc)
  rfl

/-- Nothing is handled that was not given. -/
theorem mem_of_mem_firstOrder (h : p ∈ firstOrder ps) : p ∈ ps := by
  obtain ⟨c, hc, rfl⟩ := List.mem_map.mp h
  obtain ⟨q, hq, rfl⟩ := List.mem_map.mp (mem_of_mem_inOrder hc)
  exact hq

/-- And what was given is handled, at this spelling of its path or at an
equal one. -/
theorem isIn_firstOrder (h : p ∈ ps) : p.isIn (firstOrder ps) = true := by
  obtain ⟨c, hc, hsame⟩ := exists_mem_inOrder (List.mem_map_of_mem (f := existing) h)
  rw [Path.same_comm] at hsame
  exact Path.isIn_iff.mpr ⟨c.path, List.mem_map_of_mem hc, hsame⟩

end Change

/-- In an ascending list no path comes twice. -/
theorem Path.Ascending.distinct {ps : List Path} (h : Path.Ascending ps) : Path.Distinct ps :=
  h.imp fun hlt => by
    rw [← Bool.not_eq_true, ← order_eq_eq_iff, hlt]
    exact Ordering.noConfusion

namespace Project

/-! ## No cascades

A cascade is only started by a stylesheet that was seen before. In a first
batch there is none: a turn makes its own path seen and no other, however
much it puts on record of what that path imports. -/

section Store

variable {σ : Type} [FileStore σ] {project : Project} {s : Progress σ} {p q : Path}
  {order : List Path}

/-- What is reported of an attempt on its own account. -/
def ownEvents (project : Project) (a : Attempt σ) : List Event :=
  project.outcomeEvents a.path none (project.outcome a)

/-- A stylesheet that was not seen before has no cascade. -/
theorem handlePresent_of_not_seen (hseen : s.graph.hasSeen p = false)
    (hends : Ends (project.outcome ⟨p, s.store⟩)) :
    project.handlePresent s p = .ok (project.handleOwn s p) := by
  have hnone : project.cascadeOf s p = [] := by
    unfold cascadeOf
    rw [hseen]
    cases project.outcome ⟨p, s.store⟩ <;> rfl
  rw [handlePresent_eq hends, hnone]
  rfl

/-- A turn makes no other stylesheet seen than its own. -/
theorem hasSeen_handleOwn (h : (project.handleOwn s p).graph.hasSeen q = true) :
    s.graph.hasSeen q = true ∨ q.same p = true := by
  have hrecord : (project.handleOwn s p).graph
      = s.graph.record p (project.outcome ⟨p, s.store⟩) := rfl
  rw [hrecord] at h
  cases hout : project.outcome ⟨p, s.store⟩ with
  | error e =>
    rw [hout] at h
    exact Or.inl h
  | ok r =>
    rw [hout] at h
    exact (s.graph.hasSeen_record_iff p r.1 r.2).mp h

/-- **Stylesheets that the graph has not seen** are compiled on their own
account, one after the other. The invariant is that the graph has seen none
of those that are still to come. -/
theorem foldlM_handlePresent (hdistinct : Path.Distinct order)
    (hunseen : ∀ q ∈ order, s.graph.hasSeen q = false) (hends : project.EachEnds s.store order) :
    order.foldlM project.handlePresent s = .ok (order.foldl project.handleOwn s) := by
  induction order generalizing s with
  | nil => rfl
  | cons p order ih =>
    obtain ⟨hp, horder⟩ := List.pairwise_cons.mp hdistinct
    obtain ⟨hfirst, hrest⟩ := eachEnds_cons.mp hends
    have hturn := handlePresent_of_not_seen (hunseen p List.mem_cons_self) hfirst
    refine Except.foldlM_cons_eq_ok.mpr ⟨_, hturn, ih horder (fun q hq => ?_) hrest⟩
    rw [← Bool.not_eq_true]
    intro hseen
    rcases hasSeen_handleOwn hseen with hseen | hsame
    · rw [hunseen q (List.mem_cons_of_mem p hq)] at hseen
      cases hseen
    · rw [Path.same_comm, hp q hq] at hsame
      cases hsame

/-- **What turns without cascades leave**: the files, the counts and the
events of their attempts. -/
theorem foldl_handleOwn (project : Project) (s : Progress σ) (order : List Path) :
    order.foldl project.handleOwn s =
      { store := project.storeAfter s.store order
        graph := (project.attempts s.store order).foldl
          (fun g a => g.record a.path (project.outcome a)) s.graph
        summary := ((project.attempts s.store order).map project.outcome).foldl
          BatchSummary.count s.summary
        events := s.events ++ (project.attempts s.store order).flatMap project.ownEvents } := by
  induction order generalizing s with
  | nil =>
    rw [attempts, List.flatMap_nil, List.append_nil]
    rfl
  | cons p order ih =>
    rw [List.foldl_cons, ih, attempts, List.flatMap_cons, ← List.append_assoc]
    rfl

/-- **A batch on the empty graph** in one equation, as long as all of its
attempts end. -/
theorem handleBatch_empty {store : σ} {ps : List Path}
    (hends : project.EachEnds store (Change.firstOrder ps)) :
    project.handleBatch store .empty (ps.map .existing)
      = .ok (report ((Change.firstOrder ps).foldl project.handleOwn
          { store := store, graph := .empty })
        [.batchComplete (((project.attempts store (Change.firstOrder ps)).map project.outcome).foldl
          BatchSummary.count {})]) := by
  have hturns : (Change.inOrder (ps.map .existing)).foldlM project.handleChange
      { store := store, graph := .empty }
        = .ok ((Change.firstOrder ps).foldl project.handleOwn { store := store, graph := .empty }) := by
    rw [Change.inOrder_existing, List.foldlM_map]
    exact foldlM_handlePresent (Change.ascending_inOrder _).distinct (fun _ _ => rfl) hends
  refine handleBatch_eq_ok.mpr ⟨_, hturns, ?_⟩
  rw [foldl_handleOwn]

end Store

/-! ## A batch as a map

The turns still share the files. What they write are modules, and with
`Untangled` no turn reads a module of an earlier one. So the files before
the batch decide everything, and the turns could as well be made side by
side. -/

variable {project : Project} {m m' : Memory} {p q a : Path} {ps order : List Path}
  {compiled : CompiledStylesheet} {t : Attempt Memory}

/-- What becomes of a stylesheet, step by step. -/
theorem outcome_eq (project : Project) (m : Memory) (p : Path) :
    project.outcome ⟨p, m⟩ = (do
      let a ← project.layout.artifact p
      let compiled ← compileFile m project.defaultUnit p
      if a.isIn m.deniedWrites = true then .error (.failed (.io "write denied"))
        else .ok (a, compiled)) := by
  cases hartifact : project.layout.artifact p with
  | error e =>
    unfold outcome compileAndWrite produce
    dsimp only
    rw [hartifact]
    rfl
  | ok a =>
    cases hcompile : compileFile m project.defaultUnit p with
    | error e =>
      unfold outcome compileAndWrite produce
      dsimp only
      rw [hartifact, hcompile]
      rfl
    | ok compiled =>
      unfold outcome
      rw [compileAndWrite_eq hartifact hcompile]
      by_cases hdenied : a.isIn m.deniedWrites = true
      · rw [if_pos hdenied]
        exact (if_pos hdenied).symm
      · rw [if_neg hdenied]
        exact (if_neg hdenied).symm

/-- **What works out**: there is a place for the module, the stylesheet
compiles, and the module may be written. -/
theorem outcome_eq_ok_iff : project.outcome ⟨p, m⟩ = .ok (a, compiled)
    ↔ project.layout.artifact p = .ok a ∧ compileFile m project.defaultUnit p = .ok compiled
      ∧ a.isIn m.deniedWrites = false := by
  rw [outcome_eq]
  constructor
  · intro h
    obtain ⟨b, hartifact, h⟩ := Except.bind_eq_ok.mp h
    obtain ⟨fresh, hcompile, h⟩ := Except.bind_eq_ok.mp h
    split at h
    · cases h
    · rename_i hdenied
      cases h
      exact ⟨hartifact, hcompile, by simpa using hdenied⟩
  · rintro ⟨hartifact, hcompile, hdenied⟩
    rw [hartifact, hcompile]
    show (if a.isIn m.deniedWrites = true then _ else _) = _
    rw [hdenied]
    rfl

/-- **Modules do not get in the way**: different stylesheets have different
modules, and none stands where a later stylesheet is or is read for it. -/
structure Untangled (project : Project) (ps : List Path) (m : Memory) : Prop where
  apart : ∀ p ∈ ps, ∀ q ∈ ps, p.same q = false → ∀ a b, project.layout.artifact p = .ok a →
    project.layout.artifact q = .ok b → a.same b = false
  unlisted : ∀ p ∈ ps, ∀ q ∈ ps, p.order q = .lt → ∀ a, project.layout.artifact p = .ok a →
    a.same q = false
  unread : ∀ p ∈ ps, ∀ q ∈ ps, p.order q = .lt → ∀ a, project.layout.artifact p = .ok a →
    ∀ r, LooksUp m q r → a.same r = false

namespace Untangled

/-- Then no turn writes over the module of another one. -/
theorem apart_of_ascending (h : Untangled project ps m) (horder : Path.Ascending order)
    (hmem : ∀ p ∈ order, p ∈ ps) : Apart project order :=
  horder.distinct.imp_of_mem fun hp hq hne a b ha hb =>
    h.apart _ (hmem _ hp) _ (hmem _ hq) hne a b ha hb

/-- **A turn does not see the turns before it**: what becomes of a
stylesheet is what becomes of it with the files before the batch. -/
theorem outcome_eq (h : Untangled project ps m) (horder : Path.Ascending order)
    (hmem : ∀ p ∈ order, p ∈ ps) (ht : t ∈ project.attempts m order) :
    project.outcome t = project.outcome ⟨t.path, m⟩ := by
  obtain ⟨before, after, rfl, hstore⟩ := exists_of_mem_attempts ht
  have honly : OnlyModules project before m t.store :=
    hstore ▸ onlyModules_storeAfter (fun _ hq => hq) m
  have hself := hmem t.path (List.mem_append_right _ List.mem_cons_self)
  have hfirst : ∀ p ∈ before, p ∈ ps ∧ p.order t.path = .lt := fun p hp =>
    ⟨hmem p (List.mem_append_left _ hp),
      (List.pairwise_append.mp horder).2.2 p hp t.path List.mem_cons_self⟩
  have hcompile : compileFile t.store project.defaultUnit t.path
      = compileFile m project.defaultUnit t.path := by
    refine compileFile_congr _ (honly.fetch_eq fun p hp a ha => ?_) fun r hr =>
      honly.fetch_eq fun p hp a ha => ?_
    · exact h.unlisted p (hfirst p hp).1 t.path hself (hfirst p hp).2 a ha
    · exact h.unread p (hfirst p hp).1 t.path hself (hfirst p hp).2 a ha r hr
  obtain ⟨p, store⟩ := t
  rw [Project.outcome_eq, Project.outcome_eq, hcompile, honly.deniedWrites]

/-- All turns of the batch end if all stylesheets come to their end with the
files before it. -/
theorem eachEnds (h : Untangled project ps m) (horder : Path.Ascending order)
    (hmem : ∀ p ∈ order, p ∈ ps) (hcrash : ∀ p ∈ order, ∀ crash, ¬Crashes project m p crash) :
    project.EachEnds m order := by
  intro t ht
  have hpath := List.mem_map_of_mem (f := Attempt.path) ht
  rw [project.map_path_attempts] at hpath
  rw [h.outcome_eq horder hmem ht]
  exact ends_outcome_iff.mpr (hcrash t.path hpath)

end Untangled

/-- **Each stylesheet once, as if it were alone.** A batch of the files at
`ps` handles the paths of `order`, and leaves the state `done`. -/
structure HandlesEachOnce (project : Project) (m : Memory) (ps order : List Path)
    (done : Progress Memory) : Prop where
  ascending : Path.Ascending order
  mem : ∀ p ∈ order, p ∈ ps
  isIn : ∀ p ∈ ps, p.isIn order = true
  /-- There is one attempt at each path, in order. -/
  path_attempts : (project.attempts m order).map Attempt.path = order
  /-- The outcome of each attempt is the one with the files before the batch. -/
  outcome : ∀ t ∈ project.attempts m order, project.outcome t = project.outcome ⟨t.path, m⟩
  /-- The warnings of each attempt are reported and that the stylesheet was
  compiled, or else its failure. -/
  events_eq : done.events = ((project.attempts m order).flatMap fun t =>
    project.outcomeEvents t.path none (project.outcome t)) ++ [.batchComplete done.summary]
  summary_eq : done.summary
    = ((project.attempts m order).map project.outcome).foldl BatchSummary.count {}
  /-- No stylesheet is compiled because of another one. -/
  trigger_eq : ∀ path output selectors trigger,
    Event.compiled path output selectors trigger ∈ done.events → trigger = none
  /-- What compiles and may be written has the module of its compile. -/
  written : ∀ p ∈ order, ∀ a compiled, project.layout.artifact p = .ok a →
    compileFile m project.defaultUnit p = .ok compiled → a.isIn m.deniedWrites = false →
    PathMap.get? done.store.files a = some compiled.module
  /-- No other file changes. -/
  unchanged : ∀ q, (∀ p ∈ order, ∀ a compiled, project.layout.artifact p = .ok a →
      compileFile m project.defaultUnit p = .ok compiled → a.isIn m.deniedWrites = false →
      a.same q = false) →
    PathMap.get? done.store.files q = PathMap.get? m.files q
  denied_eq : done.store.deniedReads = m.deniedReads
    ∧ done.store.deniedWrites = m.deniedWrites ∧ done.store.deniedRemoves = m.deniedRemoves

/-- No attempt on its own account has a trigger. -/
theorem trigger_of_mem_ownEvents {path output : String} {selectors : Nat}
    {trigger : Option String}
    (h : Event.compiled path output selectors trigger ∈ project.ownEvents t) : trigger = none := by
  unfold ownEvents at h
  rcases hout : project.outcome t with (e | crash) | r
  · rw [hout] at h
    cases List.mem_singleton.mp h
  · rw [hout] at h
    cases h
  · rw [hout] at h
    rcases List.mem_append.mp h with h | h
    · obtain ⟨d, -, hd⟩ := List.mem_map.mp h
      cases hd
    · cases List.mem_singleton.mp h
      rfl

/-- **A first batch is a map.** A batch of existing files, in any order and
with repeats, that meets an empty graph, handles each path once, in
ascending order and for its own sake, whatever the files import; and it
leaves what compiling each of them alone would leave. For this no module
stands where a later stylesheet is or is read for it, and none of the
stylesheets crashes with the files as they were before the batch.

There are two reasons. A stylesheet is compiled because of another one only
if that one was seen before its turn, and the turns before it saw none but
themselves. And what a turn writes are modules, so that a later one, which
reads none of them, cannot tell that there were turns before it. The second
is also why it is enough to ask for crashes before the batch. -/
theorem handlesEachOnce_handleBatch (h : Untangled project ps m)
    (hcrash : ∀ p ∈ Change.firstOrder ps, ∀ crash, ¬Crashes project m p crash) :
    ∃ done, project.handleBatch m .empty (ps.map .existing) = .ok done
      ∧ HandlesEachOnce project m ps (Change.firstOrder ps) done := by
  have hascending : Path.Ascending (Change.firstOrder ps) := Change.ascending_inOrder _
  have hmem : ∀ p ∈ Change.firstOrder ps, p ∈ ps := fun p => Change.mem_of_mem_firstOrder
  have hsame := fun t => h.outcome_eq hascending hmem (t := t)
  have honly : OnlyModules project (Change.firstOrder ps) m
      (project.storeAfter m (Change.firstOrder ps)) := onlyModules_storeAfter (fun _ hq => hq) m
  -- in an empty graph no turn has a cascade
  refine ⟨_, handleBatch_empty (h.eachEnds hascending hmem hcrash), ?_⟩
  rw [foldl_handleOwn]
  constructor
  case ascending => exact hascending
  case mem => exact hmem
  case isIn => exact fun p => Change.isIn_firstOrder
  case path_attempts => exact project.map_path_attempts m _
  case outcome => exact hsame
  case events_eq => rfl
  case summary_eq => rfl
  case trigger_eq =>
    intro path output selectors trigger hevent
    rcases List.mem_append.mp hevent with hevent | hevent
    · obtain ⟨t, -, ht⟩ := List.mem_flatMap.mp hevent
      exact trigger_of_mem_ownEvents ht
    · cases List.mem_singleton.mp hevent
  case written =>
    intro p hp a compiled hartifact hcompile hwritable
    rw [← project.map_path_attempts m (Change.firstOrder ps)] at hp
    obtain ⟨t, ht, rfl⟩ := List.mem_map.mp hp
    have hout := (hsame t ht).trans (outcome_eq_ok_iff.mpr ⟨hartifact, hcompile, hwritable⟩)
    exact get?_storeAfter_of_mem (h.apart_of_ascending hascending hmem) ht hout
  case unchanged =>
    intro q hq
    refine get?_storeAfter_of_not_written fun t ht a compiled hout => ?_
    rw [hsame t ht] at hout
    obtain ⟨hartifact, hcompile, hwritable⟩ := outcome_eq_ok_iff.mp hout
    have hpath := List.mem_map_of_mem (f := Attempt.path) ht
    rw [project.map_path_attempts] at hpath
    exact hq t.path hpath a compiled hartifact hcompile hwritable
  case denied_eq => exact ⟨honly.deniedReads, honly.deniedWrites, deniedRemoves_storeAfter _ _⟩

/-- Of stylesheets that compile, it can be read off the calls that they make
that modules do not get in the way. -/
theorem untangled_of_visits
    (hapart : ∀ p ∈ ps, ∀ q ∈ ps, p.same q = false → ∀ a ∈ project.modules p,
      ∀ b ∈ project.modules q, a.same b = false)
    (hlater : ∀ p ∈ ps, ∀ q ∈ ps, p.order q = .lt →
      (compileFile m project.defaultUnit q).toOption.isSome = true
        ∧ ∀ a ∈ project.modules p, a.same q = false
          ∧ ∀ c ∈ visits m q, ∀ t ∈ c.targets, a.same (c.path t) = false) :
    Untangled project ps m where
  apart p hp q hq hne a b ha hb := hapart p hp q hq hne a (mem_modules ha) b (mem_modules hb)
  unlisted p hp q hq hlt a ha := ((hlater p hp q hq hlt).2 a (mem_modules ha)).1
  unread := by
    rintro p hp q hq hlt a ha r ⟨c, hc, t, ht, rfl⟩
    obtain ⟨hcompiles, haside⟩ := hlater p hp q hq hlt
    obtain ⟨compiled, hcompile⟩ := Except.exists_eq_ok hcompiles
    exact (haside a (mem_modules ha)).2 c (hc.mem_visits hcompile) t ht

/-- Two stylesheets that import each other; the module of one may not be
written. -/
def reciprocal : Memory where
  files := [(⟨"/p/f.css"⟩, "@import \"g.css\";.f{top:x}"), (⟨"/p/g.css"⟩, "@import \"f.css\";.g{}")]
  deniedWrites := [⟨"/p/.cache/g.js"⟩]

/-- Each is handled once, though one is named twice and both import each
other. -/
theorem handlesEachOnce_handleBatch_of_reciprocal :
    ∃ done, site.handleBatch reciprocal .empty
        ([⟨"/p/f.css"⟩, ⟨"/p/./g.css"⟩, ⟨"/p/g.css"⟩].map .existing) = .ok done
      ∧ HandlesEachOnce site reciprocal [⟨"/p/f.css"⟩, ⟨"/p/./g.css"⟩, ⟨"/p/g.css"⟩]
        [⟨"/p/f.css"⟩, ⟨"/p/./g.css"⟩] done := by
  have hcompiles : ∀ q ∈ [⟨"/p/f.css"⟩, ⟨"/p/./g.css"⟩, ⟨"/p/g.css"⟩],
      (compileFile reciprocal "px" q).toOption.isSome = true := by
    decide +kernel
  have huntangled : Untangled site [⟨"/p/f.css"⟩, ⟨"/p/./g.css"⟩, ⟨"/p/g.css"⟩] reciprocal :=
    untangled_of_visits (by decide +kernel) (by decide +kernel)
  have horder : Change.firstOrder [⟨"/p/f.css"⟩, ⟨"/p/./g.css"⟩, ⟨"/p/g.css"⟩]
      = [⟨"/p/f.css"⟩, ⟨"/p/./g.css"⟩] := by
    rw [Change.firstOrder, Change.inOrder_of_pairwise (by decide +kernel)]
    decide +kernel
  have hcrash : ∀ p ∈ Change.firstOrder [⟨"/p/f.css"⟩, ⟨"/p/./g.css"⟩, ⟨"/p/g.css"⟩],
      ∀ crash, ¬Crashes site reciprocal p crash := by
    intro p hp crash h
    cases h with
    | slash hslash => exact absurd hslash (by decide)
    | endless hplace hendless =>
      obtain ⟨compiled, hcompile⟩ :=
        Except.exists_eq_ok (hcompiles p (Change.mem_of_mem_firstOrder hp))
      cases hendless.symm.trans hcompile
  have hbatch := handlesEachOnce_handleBatch huntangled hcrash
  rwa [horder] at hbatch

/-- A project whose modules stand below its stylesheets, with their
extension. -/
def inside : Project := ⟨.new ⟨"/p"⟩ ⟨"x"⟩ "css", "px"⟩

/-- Two stylesheets, the second of which stands where the module of the
first goes. -/
def covered : Memory := .ofList [(⟨"/p/f.css"⟩, ".f{}"), (⟨"/p/x/f.css"⟩, ".g{}")]

/-- The paths of the two. -/
def coveredSheets : List Path := [⟨"/p/f.css"⟩, ⟨"/p/x/f.css"⟩]

/-- A stylesheet that imports itself before another one. -/
def looping : Memory := .ofList [(⟨"/p/a.css"⟩, selfImport), (⟨"/p/f.css"⟩, ".f{}")]

/-- The paths of these. -/
def loopingSheets : List Path := [⟨"/p/a.css"⟩, ⟨"/p/f.css"⟩]

/-- **A first batch is not always a map.** A stylesheet can be overwritten
before its turn: the modules of the first two are different files and none
is imported, but what the second one leaves is not what compiling it before
the batch gives. And where modules do not get in the way, a crash does, be
it for the extension of modules or for imports without an end. -/
theorem not_handlesEachOnce :
    ((∀ p ∈ coveredSheets, ∀ q ∈ coveredSheets, p.same q = false →
        ∀ a b, inside.layout.artifact p = .ok a → inside.layout.artifact q = .ok b →
          a.same b = false)
      ∧ (∀ q ∈ coveredSheets, ∀ r, ¬LooksUp covered q r)
      ∧ ∃ a compiled done, inside.layout.artifact ⟨"/p/x/f.css"⟩ = .ok a
        ∧ compileFile covered inside.defaultUnit ⟨"/p/x/f.css"⟩ = .ok compiled
        ∧ a.isIn covered.deniedWrites = false
        ∧ inside.handleBatch covered .empty (coveredSheets.map .existing) = .ok done
        ∧ PathMap.get? done.store.files a ≠ some compiled.module)
      ∧ (Untangled slashed coveredSheets covered
        ∧ slashed.handleBatch covered .empty (coveredSheets.map .existing)
          = .error ⟨.slashInExtension, covered, []⟩)
      ∧ Untangled site loopingSheets looping
      ∧ site.handleBatch looping .empty (loopingSheets.map .existing)
        = .error ⟨.endlessImports, looping, []⟩ := by
  have hcovered : Change.inOrder (coveredSheets.map .existing) = coveredSheets.map .existing := by
    rw [Change.inOrder_of_pairwise (by decide +kernel)]
    decide +kernel
  have hlooping : Change.inOrder (loopingSheets.map .existing) = loopingSheets.map .existing := by
    rw [Change.inOrder_of_pairwise (by decide +kernel)]
    decide +kernel
  refine ⟨⟨fun p hp q hq hne a b ha hb => ?_, ?_, ?_⟩, ⟨?_, ?_⟩, ?_, ?_⟩
  · have hall : ∀ p ∈ coveredSheets, ∀ q ∈ coveredSheets, p.same q = false →
        ∀ a ∈ inside.modules p, ∀ b ∈ inside.modules q, a.same b = false := by decide +kernel
    exact hall p hp q hq hne a (mem_modules ha) b (mem_modules hb)
  · rintro q hq r ⟨c, hc, t, ht, rfl⟩
    have hcompiles : ∀ q ∈ coveredSheets, (compileFile covered "px" q).toOption.isSome = true := by
      decide +kernel
    have hnone : ∀ q ∈ coveredSheets, ∀ c ∈ visits covered q, c.targets = [] := by decide +kernel
    obtain ⟨compiled, hcompile⟩ := Except.exists_eq_ok (hcompiles q hq)
    rw [hnone q hq c (hc.mem_visits hcompile)] at ht
    cases ht
  · obtain ⟨compiled, hcompile⟩ := Except.exists_eq_ok (r := compileFile covered inside.defaultUnit
      ⟨"/p/x/f.css"⟩) (by decide +kernel)
    obtain ⟨last, hlast⟩ := Except.exists_eq_ok (r := (coveredSheets.map .existing).foldlM
      inside.handleChange { store := covered, graph := .empty }) (by decide +kernel)
    have hdiffers : ((coveredSheets.map .existing).foldlM inside.handleChange
          { store := covered, graph := .empty }).toOption.bind
            (PathMap.get? ·.store.files ⟨"/p/x/x/f.css"⟩)
        ≠ (compileFile covered inside.defaultUnit ⟨"/p/x/f.css"⟩).toOption.map
          CompiledStylesheet.module := by decide +kernel
    rw [hcompile, hlast] at hdiffers
    have hbatch := handleBatch_eq_ok.mpr ⟨last, hcovered.symm ▸ hlast, rfl⟩
    exact ⟨⟨"/p/x/x/f.css"⟩, compiled, _, Except.eq_ok_of_toOption (by decide +kernel), hcompile,
      rfl, hbatch, hdiffers⟩
  · exact untangled_of_visits (by decide +kernel) (by decide +kernel)
  · exact handleBatch_of_first hcovered (handleChange_slashed (by decide +kernel) _)
  · exact untangled_of_visits (by decide +kernel) (by decide +kernel)
  · exact handleBatch_of_first hlooping
      (handleChange_selfImport (Except.eq_ok_of_toOption (by decide +kernel)))

end Project

end Stylebook
