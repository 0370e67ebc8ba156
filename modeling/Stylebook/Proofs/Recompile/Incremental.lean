import Stylebook.Proofs.Path.Normal
import Stylebook.Proofs.Recompile.Flawless

/-!
# Compiling again what changed, and all of it

A run starts with a batch that reports every stylesheet, and goes on with
rounds that each write some stylesheets and report them. When nothing fails,
the modules after each batch are those of a full rebuild
(`upToDate_of_run`), as long as the project is `Tidy`.

What holds after each batch is `Synced`: every stylesheet is up to date and
on record. For one round, take a stylesheet that no change touches. It was
not written itself. Nothing that it reads was written either: what it reads
leads to it in the graph, along the imports on record, and was seen. So it
compiles as before, and its module stays.
-/

namespace Stylebook

open Stylebook.Path

namespace Project

variable {project : Project} {sheets reported : List Path} {m m' : Memory} {s : Memory × Graph}
  {changes : List Change} {f a q : Path}

/-! ## Tidy projects

These are the projects in which a module is a product and nothing else.
Where a module is read as a source, or written over one, compiling changes
what there is to compile, and a second full build would not give what the
first one did. -/

/-- **An orderly project**: its paths are normal, what its stylesheets read
are stylesheets that the importing text names, no two modules are one file,
and no module is imported. -/
structure Orderly (project : Project) (sheets : List Path) (m : Memory) : Prop where
  normal : ∀ f ∈ sheets, f.normalize = f
  closed : ∀ f ∈ sheets, ∀ c, Visits m f c → ∀ t ∈ c.targets,
    (∃ text, FileStore.fetch m (c.path t) = .ok text) →
      c.path t ∈ sheets ∧ ∃ u ∈ importTargets c.source, importPath c.origin u = c.path t
  apart : ∀ f ∈ sheets, ∀ g ∈ sheets, f ≠ g → ∀ a b, project.layout.artifact f = .ok a →
    project.layout.artifact g = .ok b → a.same b = false
  unimported : ∀ f ∈ sheets, ∀ a, project.layout.artifact f = .ok a →
    ∀ g ∈ sheets, ∀ q, LooksUp m g q → a.same q = false

/-- **A tidy project** is orderly, and no module stands in the place of a
stylesheet. -/
structure Tidy (project : Project) (sheets : List Path) (m : Memory) : Prop
    extends Orderly project sheets m where
  unlisted : ∀ f ∈ sheets, ∀ a, project.layout.artifact f = .ok a →
    ∀ g ∈ sheets, a.same g = false

/-- Of stylesheets that compile, order can be read off the calls that they
make. -/
theorem orderly_of_visits (hnormal : ∀ f ∈ sheets, f.normalize = f)
    (hcompiles : ∀ f ∈ sheets, (compileFile m project.defaultUnit f).toOption.isSome = true)
    (hclosed : ∀ f ∈ sheets, ∀ c ∈ visits m f, ∀ t ∈ c.targets,
      c.path t ∈ sheets ∧ ∃ u ∈ importTargets c.source, importPath c.origin u = c.path t)
    (hapart : ∀ f ∈ sheets, ∀ g ∈ sheets, f ≠ g → ∀ a ∈ project.modules f,
      ∀ b ∈ project.modules g, a.same b = false)
    (hunimported : ∀ f ∈ sheets, ∀ a ∈ project.modules f, ∀ g ∈ sheets,
      ∀ c ∈ visits m g, ∀ t ∈ c.targets, a.same (c.path t) = false) :
    Orderly project sheets m := by
  have hvisits : ∀ f ∈ sheets, ∀ c, Visits m f c → c ∈ visits m f := by
    intro f hf c hc
    obtain ⟨compiled, hcompile⟩ := Except.exists_eq_ok (hcompiles f hf)
    exact hc.mem_visits hcompile
  refine ⟨hnormal, fun f hf c hc t ht _ => hclosed f hf c (hvisits f hf c hc) t ht,
    fun f hf g hg hne a b ha hb => hapart f hf g hg hne a (mem_modules ha) b (mem_modules hb), ?_⟩
  rintro f hf a ha g hg q ⟨c, hc, t, ht, rfl⟩
  exact hunimported f hf a (mem_modules ha) g hg c (hvisits g hg c hc) t ht

/-- The same can be read off the places of the modules. -/
theorem unlisted_of_modules
    (h : ∀ f ∈ sheets, ∀ a ∈ project.modules f, ∀ g ∈ sheets, a.same g = false) :
    ∀ f ∈ sheets, ∀ a, project.layout.artifact f = .ok a → ∀ g ∈ sheets, a.same g = false :=
  fun f hf a ha => h f hf a (mem_modules ha)

namespace Tidy

/-- In a tidy project equal paths are spelled alike. -/
theorem eq_of_same (h : Tidy project sheets m) {p : Path} (hp : p ∈ sheets) (hq : q ∈ sheets)
    (hsame : p.same q = true) : p = q := Path.eq_of_same (h.normal p hp) (h.normal q hq) hsame

/-- And each stylesheet has its module for itself. -/
theorem owns (h : Tidy project sheets m) (hf : f ∈ sheets)
    (ha : project.layout.artifact f = .ok a) : Owns project sheets f a where
  mem := hf
  spelled := fun _ hp hsame => h.eq_of_same hp hf hsame
  artifact := ha
  own := fun p hp hne b hb => h.apart p hp f hf hne b a hb ha

/-- What a stylesheet reads stays while only modules change. -/
theorem fetch_eq (h : Tidy project sheets m) (hm : OnlyModules project sheets m m')
    (hf : f ∈ sheets) : FileStore.fetch m' f = FileStore.fetch m f
      ∧ ∀ q, LooksUp m f q → FileStore.fetch m' q = FileStore.fetch m q :=
  ⟨hm.fetch_eq fun p hp b hb => h.unlisted p hp b hb f hf,
    fun q hq => hm.fetch_eq fun p hp b hb => h.unimported p hp b hb f hf q hq⟩

/-- **A tidy project stays so** while only modules change. -/
theorem of_onlyModules (h : Tidy project sheets m) (hm : OnlyModules project sheets m m') :
    Tidy project sheets m' where
  normal := h.normal
  closed := by
    intro f hf c hc t ht hfetch
    obtain ⟨hown, hreads⟩ := h.fetch_eq hm hf
    have hvisits := hc.congr hown hreads
    rw [hreads _ ⟨c, hvisits, t, ht, rfl⟩] at hfetch
    exact h.closed f hf c hvisits t ht hfetch
  apart := h.apart
  unimported := by
    rintro f hf a ha g hg q ⟨c, hc, t, ht, rfl⟩
    obtain ⟨hown, hreads⟩ := h.fetch_eq hm hg
    exact h.unimported f hf a ha g hg _ ⟨c, hc.congr hown hreads, t, ht, rfl⟩
  unlisted := h.unlisted

/-- A stylesheet that compiles once in a batch compiles at all of it. -/
theorem compiles (h : Tidy project sheets m) (hf : f ∈ sheets)
    (honce : CompilesOnce project sheets m f) :
    ∃ a compiled, Compiles project sheets m f a compiled := by
  obtain ⟨m', r, hm, hr⟩ := honce
  obtain ⟨hown, hreads⟩ := h.fetch_eq hm hf
  rcases project.compileAndWrite_cases m' f with ⟨e, heq⟩ | ⟨a, compiled, ha, hcompile, heq⟩
  · rw [heq] at hr
    cases hr
  · have hwritable : a.isIn m'.deniedWrites = false := by
      rw [← Bool.not_eq_true]
      intro hdenied
      rw [compileAndWrite_eq ha hcompile, if_pos hdenied] at hr
      cases hr
    refine ⟨a, compiled, h.owns hf ha, fun p hp b hb => ?_, ?_, ?_⟩
    · exact ⟨h.unlisted p hp b hb f hf, h.unimported p hp b hb f hf⟩
    · rw [← hm.deniedWrites]
      exact hwritable
    · exact (compileFile_congr _ hown hreads).symm.trans hcompile

end Tidy

/-! ## What holds after each batch

Up to date is what is asked for. On record is what makes it last: the next
batch finds by the record what a changed file is used for. -/

/-- **A stylesheet is up to date**: its module is that of its compile. -/
def UpToDate (project : Project) (m : Memory) (f : Path) : Prop :=
  ∃ a compiled, project.layout.artifact f = .ok a
    ∧ compileFile m project.defaultUnit f = .ok compiled
    ∧ PathMap.get? m.files a = some compiled.module

/-- **The files and the graph agree**: every stylesheet is up to date and on
record. -/
structure Synced (project : Project) (sheets : List Path) (s : Memory × Graph) : Prop where
  tidy : Tidy project sheets s.1
  consistent : s.2.Consistent
  importers : s.2.ImportersIn sheets
  recorded : ∀ f ∈ sheets, Recorded s.1 s.2 f
  upToDate : ∀ f ∈ sheets, UpToDate project s.1 f

namespace Synced

/-- **What compiling a stylesheet visits leads to it in the graph.** -/
theorem reaches (h : Synced project sheets s) (hf : f ∈ sheets) {c : Call}
    (hc : Visits s.1 f c) :
    c.origin ∈ sheets ∧ (c.origin = f ∨ Relation.TransGen s.2.Edge c.origin f) := by
  obtain ⟨source, hfetch, hreach⟩ := hc
  induction hreach with
  | refl => exact ⟨hf, Or.inl rfl⟩
  | @tail d e hd hmakes ih =>
    obtain ⟨t, ht, imported, himported, rfl⟩ := hmakes
    have hvisits : Visits s.1 f d := ⟨source, hfetch, hd⟩
    obtain ⟨hmem, u, hu, hpath⟩ := h.tidy.closed f hf d hvisits t ht ⟨imported, himported⟩
    rw [Call.origin_inner]
    refine ⟨hmem, ?_⟩
    -- an import is an edge of the graph the other way round, unless a file imports itself
    by_cases hsame : (d.path t).same d.origin = true
    · rw [h.tidy.eq_of_same hmem ih.1 hsame]
      exact ih.2
    · rw [Bool.not_eq_true, ← hpath] at hsame
      have hedge := (h.recorded d.origin ih.1).edge d.source hvisits.fetch u hu hsame
      rw [hpath] at hedge
      rcases ih.2 with horigin | hreach
      · rw [horigin] at hedge
        exact Or.inr (Relation.TransGen.single hedge)
      · exact Or.inr (Relation.TransGen.head hedge hreach)

/-- **What a stylesheet looks up is a stylesheet that leads to it.** -/
theorem reaches_of_looksUp (h : Synced project sheets s) (hf : f ∈ sheets)
    (hq : LooksUp s.1 f q) : q ∈ sheets ∧ (q = f ∨ Relation.TransGen s.2.Edge q f) := by
  obtain ⟨c, hc, t, ht, rfl⟩ := hq
  obtain ⟨a, compiled, -, hcompile, -⟩ := h.upToDate f hf
  obtain ⟨imported, himported⟩ := hc.exists_fetch hcompile ht
  obtain ⟨source, hfetch, hreach⟩ := hc
  have hinner : Visits s.1 f (c.inner t imported) :=
    ⟨source, hfetch, hreach.tail ⟨t, ht, imported, himported, rfl⟩⟩
  rw [← Call.origin_inner c t imported]
  exact h.reaches hf hinner

/-- A project without stylesheets is in order from the start. -/
theorem nil (project : Project) (m : Memory) : Synced project [] (m, .empty) where
  tidy := ⟨by constructor <;> simp, by simp⟩
  consistent := Graph.consistent_empty
  importers := Graph.importersIn_empty
  recorded := by simp
  upToDate := by simp

end Synced

/-! ## One round

A stylesheet that is touched is compiled again, which makes it up to date
whatever it was before. For the others the round before has to be looked at:
they were up to date, and what they were made of is as it was. That they are
on record is what leads from a changed file to all that it was used for, and
so from "not touched" to "nothing changed". -/

/-- **Changes report files as there**, and no others. -/
def Reports (changes : List Change) (ps : List Path) : Prop :=
  (∀ c ∈ changes, c.IsPresent ∧ c.path ∈ ps) ∧ ∀ p ∈ ps, ∃ c ∈ changes, c.path = p

/-- Handling changes in their order reports the same files. -/
theorem Reports.inOrder (h : Reports changes reported)
    (hnormal : ∀ p ∈ reported, p.normalize = p) : Reports (Change.inOrder changes) reported := by
  refine ⟨fun c hc => h.1 c (Change.mem_of_mem_inOrder hc), fun p hp => ?_⟩
  obtain ⟨c, hc, rfl⟩ := h.2 p hp
  obtain ⟨d, hd, hsame⟩ := Change.exists_mem_inOrder hc
  have hdmem := (h.1 d (Change.mem_of_mem_inOrder hd)).2
  exact ⟨d, hd, Path.eq_of_same (hnormal _ hdmem) (hnormal _ hp) hsame⟩

/-- **A round**: it starts where everything is up to date, some stylesheets
are written, and a batch reports these and comes to its end without
failures. -/
structure Round (project : Project) (sheets reported : List Path) (s : Memory × Graph)
    (m : Memory) (cs : List Change) (last : Progress Memory) : Prop where
  synced : Synced project sheets s
  deniedReads : m.deniedReads = s.1.deniedReads
  files : ∀ q, q.isIn reported = false → PathMap.get? m.files q = PathMap.get? s.1.files q
  tidy : Tidy project (sheets ++ reported) m
  reports : Reports cs reported
  run : cs.foldlM project.handleChange { store := m, graph := s.2 } = .ok last
  failed : last.summary.failed = 0

namespace Round

variable {cs : List Change} {last : Progress Memory}

/-- The round starts in a sound state. -/
theorem sound (h : Round project sheets reported s m cs last) :
    Sound project (sheets ++ reported) m { store := m, graph := s.2 } :=
  Sound.start m h.synced.consistent
    (h.synced.importers.mono fun _ hp => List.mem_append_left _ hp)

/-- The round ends in a sound state. -/
theorem sound_last (h : Round project sheets reported s m cs last) :
    Sound project (sheets ++ reported) m last :=
  h.sound.foldlM_handleChange (fun c hc => List.mem_append_right _ (h.reports.1 c hc).2) h.run

/-- All that is reported are stylesheets that are there. -/
theorem reports_mem (h : Round project sheets reported s m cs last) :
    ∀ c ∈ cs, c.IsPresent ∧ c.path ∈ sheets ++ reported := fun c hc =>
  ⟨(h.reports.1 c hc).1, List.mem_append_right _ (h.reports.1 c hc).2⟩

/-- No stylesheet is reported as gone. -/
theorem not_gone (h : Round project sheets reported s m cs last) :
    ∀ c ∈ cs, ¬(c.IsGone ∧ c.path = f) := by
  rintro c hc ⟨⟨-, habsent⟩, -⟩
  exact Bool.false_ne_true (habsent.symm.trans (h.reports_mem c hc).1.2)

/-- A stylesheet that is not reported stays as it is. -/
theorem fetch_eq (h : Round project sheets reported s m cs last) (hq : q ∈ sheets)
    (hnot : q ∉ reported) : FileStore.fetch m q = FileStore.fetch s.1 q := by
  refine Memory.fetch_congr h.deniedReads (h.files q ?_)
  rw [← Bool.not_eq_true]
  intro hin
  obtain ⟨r, hr, hsame⟩ := isIn_iff.mp hin
  have heq := h.tidy.eq_of_same (List.mem_append_left _ hq) (List.mem_append_right _ hr) hsame
  exact hnot (heq ▸ hr)

/-- **Every stylesheet is on record** after the round. -/
theorem recorded (h : Round project sheets reported s m cs last) (hf : f ∈ sheets ++ reported) :
    Recorded m last.graph f := by
  by_cases hreported : f ∈ reported
  · obtain ⟨c, hc, rfl⟩ := h.reports.2 f hreported
    exact recorded_foldlM_handleChange h.sound h.reports_mem h.tidy.unlisted h.run h.failed hc
  · have hold := (List.mem_append.mp hf).resolve_right hreported
    refine ((h.synced.recorded f hold).congr (h.fetch_eq hold hreported)).grows ?_
    exact grows_foldlM_handleChange (fun c hc => (h.reports_mem c hc).1) h.run

/-- **What is not touched was not reported**, and neither was anything that
it looked up. -/
theorem not_reported (h : Round project sheets reported s m cs last)
    (hnot : ¬Touched project { store := m, graph := s.2 } cs f) : f ∉ reported
      ∧ (f ∈ sheets → ∀ q, LooksUp s.1 f q → q ∈ sheets ∧ q ∉ reported) := by
  have hown : f ∉ reported := by
    intro hreported
    obtain ⟨c, hc, hpath⟩ := h.reports.2 f hreported
    obtain ⟨before, after, rfl⟩ := List.append_of_mem hc
    obtain ⟨turn, hturn, -⟩ := Except.foldlM_append_eq_ok.mp h.run
    exact hnot ⟨before, c, after, turn, rfl, hturn, (h.reports_mem c hc).1, Or.inl hpath⟩
  refine ⟨hown, fun hf q hq => ?_⟩
  obtain ⟨hmem, hreach⟩ := h.synced.reaches_of_looksUp hf hq
  refine ⟨hmem, fun hreported => ?_⟩
  obtain ⟨c, hc, rfl⟩ := h.reports.2 q hreported
  have hreach := hreach.resolve_left fun heq => hown (heq ▸ hreported)
  exact hnot (touched_of_transGen (fun c hc => (h.reports_mem c hc).1) h.run h.failed hc
    (h.synced.recorded _ hmem).seen hreach)

/-- **What is not touched stays up to date.** -/
theorem upToDate_of_untouched (h : Round project sheets reported s m cs last)
    (hf : f ∈ sheets ++ reported)
    (hnot : ¬Touched project { store := m, graph := s.2 } cs f) :
    UpToDate project last.store f := by
  obtain ⟨hown, hreads⟩ := h.not_reported hnot
  have hold := (List.mem_append.mp hf).resolve_right hown
  have hcs : ∀ c ∈ cs, c.path ∈ sheets ++ reported := fun c hc => (h.reports_mem c hc).2
  obtain ⟨a, compiled, ha, hcompile, hget⟩ := h.synced.upToDate f hold
  -- nothing that it reads was written, so its compile is what it was before
  have hcompile' : compileFile m project.defaultUnit f = .ok compiled :=
    (compileFile_congr _ (h.fetch_eq hold hown) fun q hq =>
      h.fetch_eq (hreads hold q hq).1 (hreads hold q hq).2).trans hcompile
  obtain ⟨hstay, hstays⟩ := h.tidy.fetch_eq h.sound_last.store hf
  -- and its module is there still: no stylesheet is written in its place
  refine ⟨a, compiled, ha, (compileFile_congr _ hstay hstays).trans hcompile', ?_⟩
  have houtside : a.isIn reported = false := by
    rw [← Bool.not_eq_true]
    intro hin
    obtain ⟨r, hr, hsame⟩ := isIn_iff.mp hin
    rw [h.tidy.unlisted f hf a ha r (List.mem_append_right _ hr)] at hsame
    cases hsame
  rw [(h.tidy.owns hf ha).get?_of_untouched h.sound hcs h.not_gone hnot h.run,
    h.files a houtside, hget]

/-- **What is touched is compiled again.** -/
theorem upToDate_of_touched (h : Round project sheets reported s m cs last)
    (hf : f ∈ sheets ++ reported)
    (htouched : Touched project { store := m, graph := s.2 } cs f) :
    UpToDate project last.store f := by
  have hcs : ∀ c ∈ cs, c.path ∈ sheets ++ reported := fun c hc => (h.reports_mem c hc).2
  have hspelled : ∀ q ∈ sheets ++ reported, q.same f = true → q = f :=
    fun q hq hsame => h.tidy.eq_of_same hq hf hsame
  obtain ⟨a, compiled, hcompiles⟩ := h.tidy.compiles hf
    (compilesOnce_of_touched h.sound hspelled hcs htouched h.run h.failed)
  have hdone := hcompiles.done_of_touched h.sound hcs h.not_gone (Or.inl htouched) h.run
  exact ⟨a, compiled, hcompiles.artifact, (hcompiles.compileFile_iff h.sound_last.store).mpr rfl,
    hdone.1⟩

/-- **A round leaves everything up to date.** -/
theorem synced_after (h : Round project sheets reported s m cs last) :
    Synced project (sheets ++ reported) (last.store, last.graph) := by
  have hsound := h.sound_last
  refine ⟨h.tidy.of_onlyModules hsound.store, hsound.consistent, hsound.importers,
    fun f hf => ?_, fun f hf => ?_⟩
  · exact (h.recorded hf).congr (h.tidy.fetch_eq hsound.store hf).1
  · by_cases htouched : Touched project { store := m, graph := s.2 } cs f
    · exact h.upToDate_of_touched hf htouched
    · exact h.upToDate_of_untouched hf htouched

end Round

/-! ## Runs

A run is a list of such rounds, and the invariant goes along with it. -/

/-- **A run without failures** of a project that stays tidy. A batch reports
every stylesheet at the start; a round writes some stylesheets, old and new,
and a batch reports exactly these. -/
inductive Run (project : Project) : List Path → Memory × Graph → Prop
  | start {sheets : List Path} {m : Memory} {changes : List Change}
      (htidy : Tidy project sheets m) (hreports : Reports changes sheets)
      {done : Progress Memory} (hbatch : project.handleBatch m .empty changes = .ok done)
      (hfailed : done.summary.failed = 0) : Run project sheets (done.store, done.graph)
  | round {sheets : List Path} {s : Memory × Graph} {files : List (Path × String)}
      {changes : List Change} (h : Run project sheets s)
      (htidy : Tidy project (sheets ++ files.map Prod.fst) (s.1.overwrite files))
      (hreports : Reports changes (files.map Prod.fst)) {done : Progress Memory}
      (hbatch : project.handleBatch (s.1.overwrite files) s.2 changes = .ok done)
      (hfailed : done.summary.failed = 0) :
      Run project (sheets ++ files.map Prod.fst) (done.store, done.graph)

/-- Everything is up to date and on record after each batch. -/
theorem Run.synced (h : Run project sheets s) : Synced project sheets s := by
  induction h with
  | @start sheets m changes htidy hreports done hbatch hfailed =>
    obtain ⟨last, hrun, rfl⟩ := handleBatch_eq_ok.mp hbatch
    -- the first batch is a round over no stylesheets
    have hround : Round project [] sheets (m, .empty) m (Change.inOrder changes) last :=
      ⟨Synced.nil project m, rfl, fun _ _ => rfl, htidy, hreports.inOrder htidy.normal, hrun,
        hfailed⟩
    exact hround.synced_after
  | @round sheets s files changes h htidy hreports done hbatch hfailed ih =>
    obtain ⟨last, hrun, rfl⟩ := handleBatch_eq_ok.mp hbatch
    have hnormal : ∀ p ∈ files.map Prod.fst, p.normalize = p :=
      fun p hp => htidy.normal p (List.mem_append_right _ hp)
    have hround : Round project sheets (files.map Prod.fst) s (s.1.overwrite files)
        (Change.inOrder changes) last :=
      ⟨ih, Memory.deniedReads_overwrite _ _, fun _ hq => Memory.get?_overwrite hq _, htidy,
        hreports.inOrder hnormal, hrun, hfailed⟩
    exact hround.synced_after

/-- The state after the first batch over two stylesheets. -/
def built : Memory × Graph :=
  (⟨[(⟨"/p/f.css"⟩, "@import \"g.css\";"), (⟨"/p/g.css"⟩, ""),
        (⟨"/p/.cache/f.js"⟩, "export default styles = {}"),
        (⟨"/p/.cache/g.js"⟩, "export default styles = {}")], [], [], []⟩,
    ⟨[(⟨"/p/g.css"⟩, [⟨"/p/f.css"⟩])], [(⟨"/p/f.css"⟩, [⟨"/p/g.css"⟩])],
      [⟨"/p/f.css"⟩, ⟨"/p/g.css"⟩]⟩)

/-- The same files, with another text in the imported one. -/
def edited : Memory := built.1.overwrite [(⟨"/p/g.css"⟩, ".g{}")]

/-- The project with its two files is tidy. -/
theorem tidy_importing : Tidy site [⟨"/p/f.css"⟩, ⟨"/p/g.css"⟩] importing where
  toOrderly := orderly_of_visits (by decide +kernel) (by decide +kernel) (by decide +kernel)
    (by decide +kernel) (by decide +kernel)
  unlisted := unlisted_of_modules (by decide +kernel)

/-- The project is tidy after the edit. -/
theorem tidy_edited : Tidy site [⟨"/p/f.css"⟩, ⟨"/p/g.css"⟩, ⟨"/p/g.css"⟩] edited where
  toOrderly := orderly_of_visits (by decide +kernel) (by decide +kernel) (by decide +kernel)
    (by decide +kernel) (by decide +kernel)
  unlisted := unlisted_of_modules (by decide +kernel)

/-- The first batch is a run. -/
theorem run_built : Run site [⟨"/p/f.css"⟩, ⟨"/p/g.css"⟩] built := by
  have horder : Change.inOrder [.existing ⟨"/p/f.css"⟩, .existing ⟨"/p/g.css"⟩]
      = [.existing ⟨"/p/f.css"⟩, .existing ⟨"/p/g.css"⟩] := by
    rw [Change.inOrder_of_pairwise (by decide +kernel)]
    decide +kernel
  have hcomes : ([.existing ⟨"/p/f.css"⟩, .existing ⟨"/p/g.css"⟩].foldlM site.handleChange
      { store := importing, graph := .empty }).toOption.any (fun last =>
        (last.store, last.graph) = built ∧ last.summary.failed = 0) = true := by
    decide +kernel
  obtain ⟨last, hrun, hlast⟩ := Except.exists_of_any hcomes
  obtain ⟨hbuilt, hfailed⟩ := of_decide_eq_true hlast
  rw [← horder] at hrun
  have hstart := Run.start tidy_importing ⟨by decide, by decide⟩
    (handleBatch_eq_ok.mpr ⟨last, hrun, rfl⟩) hfailed
  rw [← hbuilt]
  exact hstart

/-- **Compiling again what changed is a full rebuild.** After each batch of
a run every stylesheet has the module of its compile on the files as they
are.

This is one part of what a batch keeps. The others are what makes it go
through the next batch: that the graph has the edges of the imports as they
are, that every stylesheet was seen, and that files and modules are
different ones. With the edges as they are, a stylesheet that is neither in
the batch nor in the cascade of one reads no file that has changed. -/
theorem upToDate_of_run (h : Run project sheets s) : ∀ f ∈ sheets, UpToDate project s.1 f :=
  h.synced.upToDate

/-- One stylesheet imports the other, which is written again after the first
batch. -/
theorem upToDate_of_run_of_edited :
    ∃ done, site.handleBatch edited built.2 [.existing ⟨"/p/g.css"⟩] = .ok done
      ∧ UpToDate site done.store ⟨"/p/f.css"⟩ ∧ UpToDate site done.store ⟨"/p/g.css"⟩ := by
  have hcomes : (site.handleBatch edited built.2 [.existing ⟨"/p/g.css"⟩]).toOption.any
      (·.summary.failed = 0) = true := by
    decide +kernel
  obtain ⟨done, hbatch, hfailed⟩ := Except.exists_of_any hcomes
  have hrun := @Run.round site _ _ [(⟨"/p/g.css"⟩, ".g{}")] _ run_built tidy_edited
    ⟨by decide, by decide⟩ _ hbatch (of_decide_eq_true hfailed)
  have hall := upToDate_of_run hrun
  exact ⟨done, hbatch, hall _ List.mem_cons_self, hall _ (List.mem_cons_of_mem _ List.mem_cons_self)⟩

/-- **It is not one where a module stands in the place of a stylesheet**:
writing the module changes the text that is compiled. -/
theorem not_upToDate_of_overlaid : Orderly overlaid [⟨"/p/f.css"⟩] plain
    ∧ Reports [.existing ⟨"/p/f.css"⟩] [⟨"/p/f.css"⟩]
    ∧ ∃ done, overlaid.handleBatch plain .empty [.existing ⟨"/p/f.css"⟩] = .ok done
      ∧ done.summary.failed = 0 ∧ ¬UpToDate overlaid done.store ⟨"/p/f.css"⟩ := by
  have hcomes : (overlaid.handleBatch plain .empty [.existing ⟨"/p/f.css"⟩]).toOption.any
      (·.summary.failed = 0) = true := by
    decide +kernel
  have hdiffers : ∀ a ∈ overlaid.modules ⟨"/p/f.css"⟩,
      (overlaid.handleBatch plain .empty [.existing ⟨"/p/f.css"⟩]).toOption.all (fun done =>
        (compileFile done.store "px" ⟨"/p/f.css"⟩).toOption.all fun compiled =>
          PathMap.get? done.store.files a ≠ some compiled.module) = true := by
    decide +kernel
  refine ⟨orderly_of_visits (by decide +kernel) (by decide +kernel) (by decide +kernel)
    (by decide +kernel) (by decide +kernel), ⟨by decide, by decide⟩, ?_⟩
  obtain ⟨done, hbatch, hfailed⟩ := Except.exists_of_any hcomes
  refine ⟨done, hbatch, of_decide_eq_true hfailed, ?_⟩
  rintro ⟨a, compiled, ha, hcompile, hget⟩
  have hnot := hdiffers a (mem_modules ha)
  rw [hbatch] at hnot
  change (compileFile done.store "px" _).toOption.all _ = true at hnot
  rw [show compileFile _ "px" _ = _ from hcompile] at hnot
  exact of_decide_eq_true hnot hget

end Project

end Stylebook
