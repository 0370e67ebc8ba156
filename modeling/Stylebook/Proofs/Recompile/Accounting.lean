import Stylebook.Proofs.Recompile.FirstBatch

/-!
# The account of a batch

What is reported of a batch is the account of it. Of the changes to one path
the one given first is handled (`Change.mem_inOrder_iff`), because sorting
keeps their order. A change to a directory is not reported at all. A change
to a file has one event that answers it: the stylesheet was compiled on its
own account, its module was removed, or it failed (`Project.answers`).
Warnings come before the answer, and what is compiled because of the change
behind it. All of this together is the `ChangeReport` of a change.

Handling a change adds the events of its report and counts them in the
summary, each kind by itself (`Project.exists_report_handleChange`). So a
batch of any changes, with any store that fails wherever it likes and from
any graph, gives the report of one change after the other, and the summary
at its end is the count of all that was reported before.

That is so of a batch that comes to its end. A crash cuts the account short:
there are the reports of the changes before, then as much of the report of
the change in which it happens as was known by then, and nobody says that
the batch is complete (`Project.accounts_handleBatch`).
-/

namespace Stylebook

/-! ## Which changes are handled

The sorting is stable, and of neighbours at one path the first is kept. Both
say the same to a search for a path: it finds what it would have found in
the changes as they were given. So the first change to a path is told by
`List.find?` on both sides, and no position in a list is spoken of. -/

namespace Change

variable {cs : List Change} {c : Change}

/-- Sorting finds the same change to a path first. -/
theorem find?_mergeSort (cs : List Change) (p : Path) :
    (cs.mergeSort fun a b => a.path.le b.path).find? (fun d => d.path.same p)
      = cs.find? fun d => d.path.same p := by
  -- the changes to the path are in order as they are, so sorting leaves them so
  have hle : (cs.filter fun d => d.path.same p).Pairwise fun a b => a.path.le b.path = true := by
    refine List.pairwise_of_forall_mem_list fun a ha b hb => ?_
    have hab : a.path.same b.path = true := by
      rw [Path.same_congr_left (List.mem_filter.mp ha).2, Path.same_comm]
      exact (List.mem_filter.mp hb).2
    unfold Path.le
    rw [Path.order_eq_eq_iff.mpr hab]
    rfl
  have hsub := List.sublist_mergeSort path_le_trans path_le_total hle List.filter_sublist
  have hsub' := hsub.filter fun d => d.path.same p
  rw [List.filter_filter] at hsub'
  simp only [Bool.and_self] at hsub'
  have hlength := ((List.mergeSort_perm cs fun a b => a.path.le b.path).filter
    fun d => d.path.same p).length_eq
  rw [← List.head?_filter, ← List.head?_filter, hsub'.eq_of_length hlength.symm]

/-- A change that is left out is not the first one to its path. -/
theorem find?_go (last : Change) (cs : List Change) (p : Path) :
    (last :: dropRepeats.go last cs).find? (fun d => d.path.same p)
      = (last :: cs).find? fun d => d.path.same p := by
  induction cs generalizing last with
  | nil => rfl
  | cons c cs ih =>
    rw [dropRepeats.go]
    split
    · rename_i hrepeat
      rw [ih, List.find?_cons, List.find?_cons, List.find?_cons,
        Path.same_congr_left hrepeat]
      cases last.path.same p <;> rfl
    · rw [List.find?_cons, ih c]
      rfl

/-- **Putting changes in order does not show** to a search for the first
change to a path. -/
theorem find?_inOrder (cs : List Change) (p : Path) :
    (inOrder cs).find? (fun d => d.path.same p) = cs.find? fun d => d.path.same p := by
  rw [← find?_mergeSort cs]
  unfold inOrder
  cases cs.mergeSort fun a b => a.path.le b.path with
  | nil => rfl
  | cons c cs => exact find?_go c cs p

/-- **Of the changes to one path the first is handled**, and no other one. -/
theorem mem_inOrder_iff :
    c ∈ inOrder cs ↔ cs.find? (fun d => d.path.same c.path) = some c := by
  rw [← find?_inOrder]
  constructor
  · intro hc
    have hsome : ((inOrder cs).find? fun d => d.path.same c.path).isSome = true :=
      List.find?_isSome.mpr ⟨c, hc, Path.same_refl c.path⟩
    obtain ⟨d, hd⟩ := Option.isSome_iff_exists.mp hsome
    have hsame : d.path.same c.path = true := by
      simpa only using List.find?_some hd
    -- two changes to one path are one change, since the paths are different ones
    have hdistinct : (inOrder cs).Pairwise fun d c => d.path.same c.path = false :=
      List.pairwise_map.mp (ascending_inOrder cs).distinct
    have hdc : d = c := by
      by_contra hne
      have : Std.Symm fun d c : Change => d.path.same c.path = false :=
        ⟨fun d c h => by rw [Path.same_comm]; exact h⟩
      have hnot := hdistinct.forall (List.mem_of_find?_eq_some hd) hc hne
      rw [hsame] at hnot
      cases hnot
    rw [hd, hdc]
  · exact List.mem_of_find?_eq_some

end Change

/-! ## Counting events

The engine counts outcomes while it runs. That its counts are those of the
events is not clear from the code: a compile adds to the summary and to the
events in two places. `tally` counts the events alone, and everything below
compares the two. -/

namespace BatchSummary

variable {summary : BatchSummary} {es fs : List Event}

/-- **A summary with events counted in**, each kind by itself. -/
def tally (summary : BatchSummary) (es : List Event) : BatchSummary where
  compiled := summary.compiled + es.countP fun e => e matches .compiled ..
  removed := summary.removed + es.countP fun e => e matches .removed ..
  failed := summary.failed + es.countP fun e => e matches .error ..
  warnings := summary.warnings + es.countP fun e => e matches .warning ..

/-- Counting is done piece by piece, so a batch may be counted change by
change. -/
theorem tally_append : summary.tally (es ++ fs) = (summary.tally es).tally fs := by
  simp only [tally, List.countP_append, Nat.add_assoc]

/-- Warnings are counted as such. -/
theorem tally_of_warnings (h : ∀ e ∈ es, e matches .warning ..) :
    summary.tally es = { summary with warnings := summary.warnings + es.length } := by
  induction es generalizing summary with
  | nil => rfl
  | cons e es ih =>
    have hone : summary.tally [e] = { summary with warnings := summary.warnings + 1 } := by
      have he := h e List.mem_cons_self
      cases e <;> first | rfl | cases he
    have hcons : e :: es = [e] ++ es := rfl
    rw [hcons, tally_append, ih fun f hf => h f (List.mem_cons_of_mem e hf), hone,
      List.length_append, ← Nat.add_assoc]
    rfl

end BatchSummary

namespace Project

variable {project : Project} {p : Path} {trigger : Option Path} {es : List Event}

/-! ## The events of one compile -/

/-- **The events of one compile**: the warnings and that it was compiled, or
why it was not. -/
inductive TellsCompile (project : Project) (p : Path) (trigger : Option Path) :
    List Event → Prop
  | compiled {warnings : List Event} (hwarnings : ∀ e ∈ warnings, e matches .warning ..)
      (output : String) (selectors : Nat) : TellsCompile project p trigger
        (warnings ++ [.compiled (project.display p) output selectors (trigger.map project.display)])
  | failed (message : String) : TellsCompile project p trigger
      [.error (some (project.display p)) message]

/-- Diagnostics are reported as warnings, never as errors, so they do not
answer a change. -/
theorem warnings_of_diagnostics (project : Project) (diagnostics : List Diagnostic) :
    ∀ e ∈ diagnostics.map fun d =>
      Event.warning (project.display d.path) d.selector d.message, e matches .warning .. := by
  intro e he
  obtain ⟨d, -, rfl⟩ := List.mem_map.mp he
  rfl

/-- An attempt that ends says so in one of the two ways. This is where
crashes have to be left out: they have no events. -/
theorem tellsCompile_outcomeEvents (project : Project) (p : Path) (trigger : Option Path)
    {o : Outcome} (hends : Ends o) :
    TellsCompile project p trigger (project.outcomeEvents p trigger o) := by
  rcases o with (e | crash) | r
  · exact .failed e.message
  · exact absurd hends (Ends.not_crashed crash)
  · exact .compiled (warnings_of_diagnostics project r.2.diagnostics) _ _

/-- An attempt is counted as its events are. -/
theorem count_eq_tally (project : Project) (p : Path) (trigger : Option Path)
    (summary : BatchSummary) (o : Outcome) :
    summary.count o = summary.tally (project.outcomeEvents p trigger o) := by
  rcases o with (e | crash) | r
  · rfl
  · rfl
  · rw [outcomeEvents, successEvents, BatchSummary.tally_append,
      BatchSummary.tally_of_warnings (project.warnings_of_diagnostics r.2.diagnostics),
      List.length_map]
    rfl

end Project

/-! ## The report of a change

A report has two parts because only the first of them answers the change.
What is compiled in a cascade names the changed file as its trigger, so it
is never taken for an answer, not even when it fails: an error in a cascade
has the path of another file. -/

/-- **What is reported while a change is handled.** -/
structure ChangeReport where
  change : Change
  /-- The events of the changed file itself. -/
  own : List Event := []
  /-- The stylesheets that are compiled because of the change, with the
  events of each. -/
  cascade : List (Path × List Event) := []

namespace ChangeReport

/-- The cascade is reported behind the file itself. -/
def events (r : ChangeReport) : List Event := r.own ++ r.cascade.flatMap Prod.snd

/-- **A report that tells what it should.** -/
inductive IsTold (project : Project) : ChangeReport → Prop
  | directory {c : Change} (hkind : c.kind = .directory) : IsTold project { change := c }
  | removed {c : Change} (hgone : c.IsGone) (output : String) :
      IsTold project { change := c, own := [.removed (project.display c.path) output] }
  | stuck {c : Change} (hgone : c.IsGone) (message : String) :
      IsTold project { change := c, own := [.error (some (project.display c.path)) message] }
  | present {c : Change} {own : List Event} {cascade : List (Path × List Event)}
      (hpresent : c.IsPresent) (hown : project.TellsCompile c.path none own)
      (hcascade : ∀ f ∈ cascade, project.TellsCompile f.1 (some c.path) f.2)
      (hothers : Path.Distinct (c.path :: cascade.map Prod.fst)) :
      IsTold project { change := c, own := own, cascade := cascade }

end ChangeReport

namespace Project

variable {project : Project} {es : List Event} {c : Change}

/-- **An event that answers a change to a file**: its path was compiled, not
because of another one, or its module was removed, or it failed. -/
def answers (project : Project) (c : Change) : Event → Bool
  | .compiled path _ _ none => path = project.display c.path
  | .removed path _ => path = project.display c.path
  | .error (some path) _ => path = project.display c.path
  | _ => false

/-- The events of a compile answer its own change once, since warnings
answer nothing. -/
theorem TellsCompile.countP_answers (h : project.TellsCompile c.path none es) :
    es.countP (project.answers c) = 1 := by
  cases h with
  | failed message => simp [answers]
  | compiled hwarnings output selectors =>
    rename_i warnings
    have hnone : warnings.countP (project.answers c) = 0 := by
      refine List.countP_eq_zero.mpr fun e he => ?_
      have hwarning := hwarnings e he
      cases e <;> first | exact Bool.false_ne_true | cases hwarning
    rw [List.countP_append, hnone]
    simp [answers]

end Project

/-- **A change to a file is answered once**, and one to a directory is not. -/
theorem ChangeReport.IsTold.countP_answers {project : Project} {r : ChangeReport}
    (h : r.IsTold project) :
    r.own.countP (project.answers r.change) = if r.change.kind = .file then 1 else 0 := by
  cases h with
  | directory hkind => simp [hkind]
  | removed hgone => simp [hgone.1, Project.answers]
  | stuck hgone => simp [hgone.1, Project.answers]
  | present hpresent hown => rw [hown.countP_answers, if_pos hpresent.1]

/-! ## One report after the other

Reports are put together from the attempts that were made. A change that
crashes made the first few of them, so its report is `presentReport` of a
front of the cascade; and one that comes to its end made all. -/

namespace Project

variable {σ : Type} [FileStore σ] {project : Project} {s s' : Progress σ} {w : Wreck σ}
  {c : Change} {cs : List Change} {ps : List Path}

/-- The counts of a cascade are those of its events. -/
theorem foldl_count_eq_tally (project : Project) (trigger : Path) (as : List (Attempt σ))
    (summary : BatchSummary) : (as.map project.outcome).foldl BatchSummary.count summary
      = summary.tally (as.flatMap (project.attemptEvents trigger)) := by
  induction as generalizing summary with
  | nil => rfl
  | cons a as ih =>
    rw [List.map_cons, List.foldl_cons, ih, List.flatMap_cons, BatchSummary.tally_append,
      project.count_eq_tally a.path (some trigger)]
    rfl

/-- A stylesheet is not in its own cascade, and no stylesheet is in it
twice. -/
theorem distinct_cascadeOf (project : Project) (s : Progress σ) (p : Path) :
    Path.Distinct (p :: project.cascadeOf s p) := by
  unfold cascadeOf
  cases project.outcome ⟨p, s.store⟩ with
  | error e => exact List.pairwise_singleton _ _
  | ok r =>
    dsimp only
    split
    · exact Graph.pairwise_cascade _ p
    · exact List.pairwise_singleton _ _

/-- **The report of a file that is there**, when some stylesheets were
compiled because of it. -/
def presentReport (project : Project) (s : Progress σ) (c : Change) (ps : List Path) :
    ChangeReport where
  change := c
  own := project.outcomeEvents c.path none (project.outcome ⟨c.path, s.store⟩)
  cascade := (project.attempts (project.handleOwn s c.path).store ps).map fun a =>
    (a.path, project.attemptEvents c.path a)

/-- It tells what it should as long as the attempts end, also when the
cascade has more. -/
theorem isTold_presentReport (hc : c.IsPresent) (hps : ps <+: project.cascadeOf s c.path)
    (hends : project.EachEnds s.store (c.path :: ps)) :
    (project.presentReport s c ps).IsTold project := by
  obtain ⟨hown, hrest⟩ := eachEnds_cons.mp hends
  refine .present hc (tellsCompile_outcomeEvents project _ _ hown) ?_ ?_
  · intro f hf
    obtain ⟨a, ha, rfl⟩ := List.mem_map.mp hf
    exact tellsCompile_outcomeEvents project _ _ (hrest a ha)
  · rw [List.map_map]
    have hpaths : List.map (Prod.fst ∘ fun a => (a.path, project.attemptEvents c.path a))
        (project.attempts (project.handleOwn s c.path).store ps) = ps :=
      map_path_attempts project _ _
    rw [hpaths]
    exact (project.distinct_cascadeOf s c.path).sublist (hps.sublist.cons_cons c.path)

/-- The attempts add the events of the report. -/
theorem events_afterAttempts (project : Project) (s : Progress σ) (c : Change) (ps : List Path) :
    (project.afterAttempts c.path (project.handleOwn s c.path) ps).events
      = s.events ++ (project.presentReport s c ps).events := by
  simp only [afterAttempts, handleOwn, ChangeReport.events, presentReport, List.flatMap_map,
    List.append_assoc]

/-- **A change that comes to its end has its report.** -/
theorem exists_report_handleChange (h : project.handleChange s c = .ok s') :
    ∃ r : ChangeReport, r.change = c ∧ r.IsTold project
      ∧ s'.events = s.events ++ r.events ∧ s'.summary = s.summary.tally r.events := by
  rcases project.handleChange_cases s c with ⟨hkind, heq⟩ | ⟨hpresent, heq⟩ | ⟨hgone, heq⟩ <;>
    rw [heq] at h
  · obtain rfl := Except.ok.inj h
    exact ⟨{ change := c }, rfl, .directory hkind, (List.append_nil _).symm, rfl⟩
  · obtain ⟨hends, rfl⟩ := handlePresent_eq_ok.mp h
    refine ⟨_, rfl, isTold_presentReport hpresent (List.prefix_refl _) hends,
      events_afterAttempts project s c _, ?_⟩
    simp only [afterAttempts, handleOwn, foldl_count_eq_tally project c.path,
      ChangeReport.events, presentReport, List.flatMap_map, BatchSummary.tally_append,
      project.count_eq_tally c.path none]
  · rcases project.handleRemoval_cases s c.path with
      ⟨output, store, -, heq⟩ | ⟨e, store, -, heq⟩ | ⟨crash, store, -, heq⟩
    · obtain rfl := Except.ok.inj (heq.symm.trans h)
      exact ⟨_, rfl, .removed hgone (project.display output), rfl, rfl⟩
    · obtain rfl := Except.ok.inj (heq.symm.trans h)
      exact ⟨_, rfl, .stuck hgone e.message, rfl, rfl⟩
    · cases heq.symm.trans h

/-- **A change that crashes has the beginning of a report**, or nothing of
it. -/
theorem exists_report_of_crashed (h : project.handleChange s c = .error w) :
    ∃ r : ChangeReport, r.change = c ∧ (r.events = [] ∨ r.IsTold project)
      ∧ w.events = s.events ++ r.events := by
  rcases project.handleChange_cases s c with ⟨-, heq⟩ | ⟨hpresent, heq⟩ | ⟨-, heq⟩ <;> rw [heq] at h
  · cases h
  · rcases handlePresent_eq_error.mp h with ⟨-, hw⟩ | ⟨hown, hcascade⟩
    · rw [hw]
      exact ⟨{ change := c }, rfl, Or.inl rfl, (List.append_nil _).symm⟩
    · obtain ⟨before, q, after, hsplit, hends, -, hw⟩ := foldlM_recompile_eq_error.mp hcascade
      have hfront : before <+: project.cascadeOf s c.path := hsplit ▸ List.prefix_append _ _
      have hall : project.EachEnds s.store (c.path :: before) := eachEnds_cons.mpr ⟨hown, hends⟩
      rw [hw]
      exact ⟨_, rfl, Or.inr (isTold_presentReport hpresent hfront hall),
        events_afterAttempts project s c before⟩
  · rcases project.handleRemoval_cases s c.path with
      ⟨output, store, -, heq⟩ | ⟨e, store, -, heq⟩ | ⟨crash, store, -, heq⟩
    · cases heq.symm.trans h
    · cases heq.symm.trans h
    · rw [← Except.error.inj (heq.symm.trans h)]
      exact ⟨{ change := c }, rfl, Or.inl rfl, (List.append_nil _).symm⟩

/-- **A run of changes is reported one after the other.** -/
theorem exists_reports_foldlM (h : cs.foldlM project.handleChange s = .ok s') :
    ∃ reports : List ChangeReport, reports.map ChangeReport.change = cs
      ∧ (∀ r ∈ reports, r.IsTold project)
      ∧ s'.events = s.events ++ reports.flatMap ChangeReport.events
      ∧ s'.summary = s.summary.tally (reports.flatMap ChangeReport.events) := by
  induction cs generalizing s with
  | nil =>
    rw [Except.foldlM_nil_eq_ok.mp h]
    exact ⟨[], rfl, nofun, (List.append_nil _).symm, rfl⟩
  | cons c cs ih =>
    obtain ⟨t, hfirst, hrest⟩ := Except.foldlM_cons_eq_ok.mp h
    obtain ⟨r, hchange, htold, hevents, hsummary⟩ := exists_report_handleChange hfirst
    obtain ⟨reports, hchanges, hall, hevents', hsummary'⟩ := ih hrest
    refine ⟨r :: reports, ?_, List.forall_mem_cons.mpr ⟨htold, hall⟩, ?_, ?_⟩
    · rw [List.map_cons, hchange, hchanges]
    · rw [hevents', hevents, List.flatMap_cons, List.append_assoc]
    · rw [hsummary', hsummary, List.flatMap_cons, BatchSummary.tally_append]

end Project

/-! ## The account

Nothing but changes reports anything, except the one event at the end. So
the account of a batch is the reports of its changes, and that event if the
batch gets there. -/

/-- **The account of a batch**: the reports of its changes, and how it ends. -/
structure Accounts {σ : Type} (project : Project) (changes : List Change)
    (reports : List ChangeReport) (s : Progress σ) : Prop where
  /-- The changes are handled in the order of their paths. -/
  ascending : Path.Ascending (reports.map fun r => r.change.path)
  /-- A change is reported if it is the first one given to its path. -/
  kept : ∀ c, c ∈ reports.map ChangeReport.change
    ↔ changes.find? (fun d => d.path.same c.path) = some c
  told : ∀ r ∈ reports, r.IsTold project
  answered : ∀ r ∈ reports,
    r.own.countP (project.answers r.change) = if r.change.kind = .file then 1 else 0
  events : s.events = reports.flatMap ChangeReport.events ++ [.batchComplete s.summary]
  /-- No batch is complete before. -/
  once : ∀ summary, .batchComplete summary ∉ reports.flatMap ChangeReport.events
  /-- Each kind of event is counted. -/
  summary : s.summary = BatchSummary.tally {} (reports.flatMap ChangeReport.events)

/-- **The account of a batch that breaks off**: the reports of the changes
before, and as much of the report of the change in which the program crashes
as was known by then. -/
structure AccountsUntil {σ : Type} [FileStore σ] (project : Project) (store : σ) (g : Graph)
    (changes : List Change) (reports : List ChangeReport) (last : ChangeReport) (w : Wreck σ) :
    Prop where
  breaksOff : ∃ turn, project.BreaksOff store g changes (reports.map ChangeReport.change)
    last.change turn w
  told : ∀ r ∈ reports, r.IsTold project
  begun : last.events = [] ∨ last.IsTold project
  events : w.events = reports.flatMap ChangeReport.events ++ last.events
  /-- The batch is never complete. -/
  never : ∀ summary, .batchComplete summary ∉ w.events

/-- A compile does not say that a batch is complete. -/
theorem Project.TellsCompile.not_mem_batchComplete {project : Project} {p : Path}
    {trigger : Option Path} {es : List Event} (h : project.TellsCompile p trigger es)
    (summary : BatchSummary) : .batchComplete summary ∉ es := by
  intro hmem
  cases h with
  | failed message => cases List.mem_singleton.mp hmem
  | compiled hwarnings output selectors =>
    rcases List.mem_append.mp hmem with hmem | hmem
    · cases hwarnings _ hmem
    · cases List.mem_singleton.mp hmem

/-- A change does not say that a batch is complete. -/
theorem ChangeReport.IsTold.not_mem_batchComplete {project : Project} {r : ChangeReport}
    (h : r.IsTold project) (summary : BatchSummary) : .batchComplete summary ∉ r.events := by
  intro hmem
  cases h with
  | directory => cases hmem
  | removed => cases List.mem_singleton.mp hmem
  | stuck => cases List.mem_singleton.mp hmem
  | present _ hown hcascade =>
    rcases List.mem_append.mp hmem with hmem | hmem
    · exact hown.not_mem_batchComplete summary hmem
    · obtain ⟨f, hf, hmem⟩ := List.mem_flatMap.mp hmem
      exact (hcascade f hf).not_mem_batchComplete summary hmem

/-- Reports do not say that a batch is complete. -/
theorem ChangeReport.not_mem_batchComplete {project : Project} {reports : List ChangeReport}
    (h : ∀ r ∈ reports, r.IsTold project) (summary : BatchSummary) :
    .batchComplete summary ∉ reports.flatMap ChangeReport.events := by
  intro hmem
  obtain ⟨r, hr, hmem⟩ := List.mem_flatMap.mp hmem
  exact (h r hr).not_mem_batchComplete summary hmem

/-- **The account of a batch is exact if the batch comes to its end**,
whatever the changes are, wherever the store fails and whatever the graph
knows. The events are the reports of the changes, at ascending paths and of
each path the first change, and one event at their end that the batch is
complete. A change to a file is answered once, before what it causes and
behind nothing but its own warnings; a change to a directory is not
reported. The summary counts the events.

Failures are no exception to this, since a failure is an event like any
other. A crash is one: the stylesheet in which it happens is not answered,
neither are the changes behind it, and there is no last event. -/
theorem Project.accounts_handleBatch {σ : Type} [FileStore σ] (project : Project) (store : σ)
    (g : Graph) (changes : List Change) :
    (∃ done reports, project.handleBatch store g changes = .ok done
        ∧ Accounts project changes reports done)
      ∨ ∃ w reports last, project.handleBatch store g changes = .error w
        ∧ AccountsUntil project store g changes reports last w := by
  cases hbatch : project.handleBatch store g changes with
  | ok done =>
    obtain ⟨s, hrun, rfl⟩ := handleBatch_eq_ok.mp hbatch
    obtain ⟨reports, hchanges, htold, hevents, hsummary⟩ := exists_reports_foldlM hrun
    refine Or.inl ⟨_, reports, rfl, ?_, ?_, htold, fun r hr => (htold r hr).countP_answers, ?_,
      ChangeReport.not_mem_batchComplete htold, hsummary⟩
    · have hascending := Change.ascending_inOrder changes
      rwa [← hchanges, List.map_map] at hascending
    · intro c
      rw [hchanges]
      exact Change.mem_inOrder_iff
    · rw [report, hevents]
      rfl
  | error w =>
    -- the changes in front of the crash have whole reports, its own one breaks off
    obtain ⟨before, c, turn, hbreaks⟩ := handleBatch_eq_error hbatch
    obtain ⟨reports, rfl, htold, hevents, -⟩ := exists_reports_foldlM hbreaks.reached
    obtain ⟨last, rfl, hbegun, hlast⟩ := exists_report_of_crashed hbreaks.step
    have hall : w.events = reports.flatMap ChangeReport.events ++ last.events := by
      rw [hlast, hevents]
      rfl
    refine Or.inr ⟨w, reports, last, rfl, ⟨turn, hbreaks⟩, htold, hbegun, hall, ?_⟩
    intro summary hmem
    rw [hall] at hmem
    rcases List.mem_append.mp hmem with hmem | hmem
    · exact ChangeReport.not_mem_batchComplete htold summary hmem
    · rcases hbegun with hnone | htold
      · rw [hnone] at hmem
        cases hmem
      · exact htold.not_mem_batchComplete summary hmem

/-- A stylesheet with nothing in it. -/
def single : Memory := .ofList [(⟨"/p/a.css"⟩, ".a{}")]

/-- **The account is not always exact.** With a slash in the extension of
modules a stylesheet has no answer, and neither has one that imports itself
without a semicolon. The batch is not complete, and there is no other event. -/
theorem Project.not_accounts :
    slashed.handleBatch single .empty [.existing ⟨"/p/a.css"⟩]
        = .error ⟨.slashInExtension, single, []⟩
      ∧ site.handleBatch (single.put ⟨"/p/a.css"⟩ selfImport) .empty [.existing ⟨"/p/a.css"⟩]
        = .error ⟨.endlessImports, single.put ⟨"/p/a.css"⟩ selfImport, []⟩ := by
  have horder : Change.inOrder [.existing ⟨"/p/a.css"⟩] = [.existing ⟨"/p/a.css"⟩] :=
    Change.inOrder_of_pairwise (List.pairwise_singleton _ _)
  constructor
  · exact handleBatch_of_first horder (handleChange_slashed (by decide +kernel) _)
  · exact handleBatch_of_first horder
      (handleChange_selfImport (Except.eq_ok_of_toOption (by decide +kernel)))

end Stylebook
