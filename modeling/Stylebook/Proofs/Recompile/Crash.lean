import Stylebook.Proofs.Import.Call
import Stylebook.Proofs.Recompile.Batch

/-!
# Where a batch breaks off

The program crashes at a stylesheet for one of two reasons
(`Project.Crashes`). The extension of modules may have a slash in it, and
then the first stylesheet below the root is the end. Or the imports of a
stylesheet may have no end. Everything else that can go wrong is a failure,
so these two are what has to be excluded for a batch to come to its end.

A batch that breaks off does so at one of its changes, with what the changes
before it left (`Project.BreaksOff`). At the moment of the crash the files
are those with which the program had begun the stylesheet it crashed at.
That is why the reason can be told from the wreck alone: it is the wreck's
own files that make the stylesheet crash.
-/

namespace Stylebook

variable {σ : Type} [FileStore σ] {store : σ} {p output : Path} {crash : Crash}

/-- Of all that compiling a stylesheet does, only inlining can crash.
Reading a file, parsing and transforming fail at most. -/
theorem compileFile_crashed {unit : String}
    (h : compileFile store unit p = .error (.crashed crash)) :
    Endless (compileFile store unit p) := by
  rcases Except.bind_eq_error.mp h with hfetch | ⟨source, -, hsource⟩
  · obtain ⟨cause, hcause⟩ := FileStore.eq_read_of_fetch hfetch
    cases hcause
  rcases Except.bind_eq_error.mp hsource with hinline | ⟨text, -, hrules⟩
  · have hresult : Call.result store (FileStore.extent store + 1) ⟨[], p, source⟩
        = .error (.crashed crash) := hinline
    rcases Call.result_cases store (FileStore.extent store + 1) ⟨[], p, source⟩ with
      ⟨text, hok⟩ | ⟨q, cause, hread⟩ | hendless
    · cases hok.symm.trans hresult
    · cases hread.symm.trans hresult
    · cases hendless.symm.trans hresult
      exact h
  · cases hrules

/-- **A stylesheet that imports itself** by a statement that is not taken
out has imports without an end: inside of the statement stands the same text
again, whatever encloses it. The proof shows that no number of calls inside
of each other is enough. It goes by induction on that number, for all
numbers of enclosing statements at once, since each call adds one. -/
theorem endless_of_imports_itself {source target : String} (unit : String)
    (hfetch : FileStore.fetch store p = .ok source) (htargets : importTargets source = [target])
    (hpath : importPath p target = p)
    (hstrip : Import.strip target.toList source.toList = source.toList) :
    Endless (compileFile store unit p) := by
  have htext : ∀ n, Call.text ⟨List.replicate n target, p, source⟩ = source.toList := by
    intro n
    rw [Call.text, Import.stripAll]
    induction n with
    | zero => rfl
    | succ n ih => rw [List.replicate_succ, List.foldl_cons, hstrip, ih]
  -- the text is the same at every depth, so each call makes another one like it
  have hends : ∀ bound n, Endless (Call.result store bound ⟨List.replicate n target, p, source⟩) := by
    intro bound
    induction bound with
    | zero =>
      intro n
      have hkeyword : Text.hasInfix Import.keyword source.toList = true := by
        by_contra hnone
        rw [importTargets, if_neg hnone] at htargets
        cases htargets
      rw [Call.result_zero, htext, if_pos hkeyword]
      rfl
    | succ bound ih =>
      intro n
      have htarget : Call.targets ⟨List.replicate n target, p, source⟩ = [target] := by
        rw [Call.targets, htext, String.ofList_toList, htargets]
        rfl
      have hself : Call.path ⟨List.replicate n target, p, source⟩ target = p := hpath
      have hpart : Call.part store bound ⟨List.replicate n target, p, source⟩ target
          = .error (.crashed .endlessImports) := by
        rw [Call.part_eq_of_fetch (hself.symm ▸ hfetch), Call.inner, hself,
          ← List.replicate_succ']
        exact ih (n + 1)
      rw [Call.result_succ, Endless.map_iff, htarget, Except.mapM_cons, hpart]
      rfl
  have hinline : Endless (inlineImports store p source) := hends (FileStore.extent store + 1) 0
  refine Endless.bind_iff.mpr (Or.inr ⟨source, hfetch, ?_⟩)
  exact Endless.bind_iff.mpr (Or.inl hinline)

/-- Asking for the module of a stylesheet crashes exactly for one below the
root, when the extension of modules has a slash in it. A stylesheet that is
not below the root fails before the extension is looked at. -/
theorem CacheLayout.artifact_eq_crashed_iff {l : CacheLayout} :
    l.artifact p = .error (.crashed crash) ↔ crash = .slashInExtension
      ∧ '/' ∈ l.extension.toList ∧ (p.relativeTo? l.root).isSome = true := by
  unfold artifact
  cases p.relativeTo? l.root with
  | none => simp
  | some relative =>
    by_cases hslash : '/' ∈ l.extension.toList
    · simp [hslash, eq_comm]
    · simp [hslash]

/-- Where one stylesheet has a place for its module, the extension of
modules is one, and then no stylesheet crashes for want of it. -/
theorem CacheLayout.not_mem_extension_of_artifact {l : CacheLayout}
    (h : l.artifact p = .ok output) : '/' ∉ l.extension.toList := by
  intro hslash
  unfold artifact at h
  split at h
  · cases h
  · rw [if_pos hslash] at h
    cases h

namespace Project

variable {project : Project} {s : Progress σ} {g : Graph} {c : Change} {cs : List Change}
  {w : Wreck σ}

/-- **What makes the program crash at a stylesheet.** The two reasons
exclude each other: with a slash in the extension there is no place for the
module, and without a place nothing is compiled. -/
inductive Crashes (project : Project) (store : σ) (p : Path) : Crash → Prop where
  /-- Its module is asked for, and the extension of modules has a slash in
  it. -/
  | slash (hslash : '/' ∈ project.layout.extension.toList)
      (hbelow : (p.relativeTo? project.layout.root).isSome = true) :
      Crashes project store p .slashInExtension
  /-- There is a place for its module, and its imports have no end. -/
  | endless {output : Path} (hplace : project.layout.artifact p = .ok output)
      (hendless : Endless (compileFile store project.defaultUnit p)) :
      Crashes project store p .endlessImports

/-- **An attempt crashes for these reasons and for no others.** Writing may
fail, but it does not crash. So a condition on a batch that it does not
crash is a condition on the files and the extension of modules alone. -/
theorem outcome_eq_crashed_iff : project.outcome ⟨p, store⟩ = .error (.crashed crash)
    ↔ Crashes project store p crash := by
  have hproduce : project.outcome ⟨p, store⟩ = .error (.crashed crash)
      ↔ project.produce store p = .error (.crashed crash) := by
    unfold outcome compileAndWrite
    dsimp only
    cases project.produce store p with
    | error e => exact Iff.rfl
    | ok r =>
      dsimp only
      split <;> simp
  rw [hproduce]
  constructor
  · intro h
    rcases Except.bind_eq_error.mp h with hplace | ⟨output, hplace, h⟩
    · obtain ⟨rfl, hslash, hbelow⟩ := CacheLayout.artifact_eq_crashed_iff.mp hplace
      exact .slash hslash hbelow
    · rcases Except.bind_eq_error.mp h with hcompile | ⟨compiled, -, h⟩
      · have hendless := compileFile_crashed hcompile
        cases hendless.symm.trans hcompile
        exact .endless hplace hendless
      · cases h
  · intro h
    cases h with
    | slash hslash hbelow =>
      have hplace : project.layout.artifact p = .error (.crashed .slashInExtension) :=
        CacheLayout.artifact_eq_crashed_iff.mpr ⟨rfl, hslash, hbelow⟩
      unfold produce
      rw [hplace]
      rfl
    | endless hplace hendless =>
      have hcompile : compileFile store project.defaultUnit p
          = .error (.crashed .endlessImports) := hendless
      unfold produce
      rw [hplace, hcompile]
      rfl

/-- A stylesheet at which nothing crashes comes to its end. -/
theorem ends_outcome_iff : Ends (project.outcome ⟨p, store⟩)
    ↔ ∀ crash, ¬Crashes project store p crash :=
  forall_congr' fun _ => not_congr outcome_eq_crashed_iff

/-- Removing a module crashes because of its path alone. -/
theorem removeModule_of_crashed (h : (project.removeModule store p).1 = .error (.crashed crash)) :
    (project.removeModule store p).2 = store ∧ Crashes project store p crash := by
  unfold removeModule at h ⊢
  cases hplace : project.layout.artifact p with
  | error e =>
    rw [hplace] at h
    obtain rfl : e = .crashed crash := Except.error.inj h
    obtain ⟨rfl, hslash, hbelow⟩ := CacheLayout.artifact_eq_crashed_iff.mp hplace
    exact ⟨rfl, .slash hslash hbelow⟩
  | ok output =>
    rw [hplace] at h
    dsimp only at h
    -- removing fails or works out, and without a module there is nothing to remove
    split at h
    · split at h <;> cases h
    · cases h

/-! ## One change

A change breaks off in one of its attempts. The wreck does not name it, but
it can be found: it is the first of them at which the program crashes. -/

/-- **A change breaks off** at its own stylesheet or at one that depends on
it. The files are then what the attempts before left, and what was reported
before stays reported. -/
theorem exists_crashes_of_handleChange (h : project.handleChange s c = .error w) :
    c.kind = .file ∧ s.events <+: w.events
      ∧ ∃ before p, before ++ [p] <+: c.path :: project.cascadeOf s c.path
        ∧ w.store = project.storeAfter s.store before ∧ Crashes project w.store p w.crash := by
  have hown : [] ++ [c.path] <+: c.path :: project.cascadeOf s c.path := List.prefix_append _ _
  rcases project.handleChange_cases s c with ⟨-, heq⟩ | ⟨hpresent, heq⟩ | ⟨hgone, heq⟩ <;>
    rw [heq] at h
  · cases h
  · refine ⟨hpresent.1, ?_⟩
    rcases handlePresent_eq_error.mp h with ⟨hcrash, hw⟩ | ⟨-, hcascade⟩
    · rw [hw]
      exact ⟨List.prefix_refl _, [], c.path, hown, rfl, outcome_eq_crashed_iff.mp hcrash⟩
    · obtain ⟨before, q, after, hsplit, -, hcrash, hw⟩ := foldlM_recompile_eq_error.mp hcascade
      rw [hsplit, hw]
      refine ⟨(List.prefix_append _ _).trans (List.prefix_append _ _), c.path :: before, q, ?_,
        rfl, outcome_eq_crashed_iff.mp hcrash⟩
      exact ⟨after, by simp⟩
  · refine ⟨hgone.1, ?_⟩
    rcases project.handleRemoval_cases s c.path with
      ⟨output, store, -, heq⟩ | ⟨e, store, -, heq⟩ | ⟨crash, store, hremove, heq⟩
    · cases heq.symm.trans h
    · cases heq.symm.trans h
    · obtain rfl := Except.error.inj (heq.symm.trans h)
      obtain ⟨hleft, hcrash⟩ := removeModule_of_crashed (congrArg Prod.fst hremove)
      rw [hremove] at hleft
      obtain rfl : store = s.store := hleft
      exact ⟨List.prefix_refl _, [], c.path, hown, rfl, hcrash⟩

/-! ## A batch

The changes before the one that breaks off were handled as if nothing were
to come, and those behind it are not handled. Nothing tells the reader of
the events that the batch is over. -/

/-- **A batch breaks off** at one of its changes, when those before it were
handled. The state they led to is part of the statement: from it the account
of the batch up to the crash is read. -/
structure BreaksOff (project : Project) (store : σ) (g : Graph) (cs before : List Change)
    (c : Change) (turn : Progress σ) (w : Wreck σ) : Prop where
  order : before ++ [c] <+: Change.inOrder cs
  reached : before.foldlM project.handleChange { store := store, graph := g } = .ok turn
  step : project.handleChange turn c = .error w
  kind : c.kind = .file
  /-- The program crashes at the stylesheet of the change or at one that
  depends on it, when the attempts before it were made. -/
  crashes : ∃ done p, done ++ [p] <+: c.path :: project.cascadeOf turn c.path
    ∧ w.store = project.storeAfter turn.store done ∧ Crashes project w.store p w.crash
  /-- What was reported before stays reported. -/
  events : turn.events <+: w.events

/-- **A batch comes to its end, or it breaks off**, and there is no third
way. The end itself, which reports that the batch is complete, cannot crash. -/
theorem handleBatch_eq_error (h : project.handleBatch store g cs = .error w) :
    ∃ before c turn, BreaksOff project store g cs before c turn w := by
  unfold handleBatch at h
  rcases Except.bind_eq_error.mp h with hrun | ⟨s, -, h⟩
  · obtain ⟨before, c, after, turn, hsplit, hturn, hcrash⟩ := Except.foldlM_eq_error.mp hrun
    obtain ⟨hkind, hevents, hcrashes⟩ := exists_crashes_of_handleChange hcrash
    refine ⟨before, c, turn, ⟨after, ?_⟩, hturn, hcrash, hkind, hcrashes, hevents⟩
    rw [hsplit, List.append_assoc]
    rfl
  · cases h

/-- A batch that crashes at its first change leaves nothing but what there
was. -/
theorem handleBatch_of_first {rest : List Change} (horder : Change.inOrder cs = c :: rest)
    (hfirst : project.handleChange { store := store, graph := g } c = .error w) :
    project.handleBatch store g cs = .error w := by
  unfold handleBatch
  rw [horder, List.foldlM_cons, hfirst]
  rfl

/-- A stylesheet that imports itself, without a semicolon. -/
def selfImport : String := "@import 'a.css'"

/-- **The program crashes at it**, with whatever files. The statement names
a target and is not found in the text, since it has no semicolon. So it is
not taken out of the text that is inlined, and each round of inlining finds
the same import again. -/
theorem crashes_selfImport {m : Memory}
    (hfetch : FileStore.fetch m ⟨"/p/a.css"⟩ = .ok selfImport) :
    Crashes site m ⟨"/p/a.css"⟩ .endlessImports := by
  have htargets : importTargets selfImport = ["a.css"] := by decide +kernel
  have hendless : Endless (compileFile m "px" ⟨"/p/a.css"⟩) :=
    endless_of_imports_itself "px" hfetch htargets (by decide +kernel) (by decide +kernel)
  have hplace : site.layout.artifact ⟨"/p/a.css"⟩ = .ok ⟨"/p/.cache/a.js"⟩ :=
    Except.eq_ok_of_toOption (by decide +kernel)
  exact .endless hplace hendless

/-- So does a change to it, before anything is reported. -/
theorem handleChange_selfImport {s : Progress Memory}
    (hfetch : FileStore.fetch s.store ⟨"/p/a.css"⟩ = .ok selfImport) :
    site.handleChange s (.existing ⟨"/p/a.css"⟩)
      = .error ⟨.endlessImports, s.store, s.events⟩ :=
  handlePresent_of_crashed (outcome_eq_crashed_iff.mpr (crashes_selfImport hfetch))

/-- A project with a slash in the extension of its modules. Nothing in the
settings keeps it from being one. -/
def slashed : Project := ⟨.new ⟨"/p"⟩ ⟨".cache"⟩ "x/js", "px"⟩

/-- The program crashes at whatever stylesheet of it comes first. -/
theorem handleChange_slashed (hbelow : (p.relativeTo? slashed.layout.root).isSome = true)
    (s : Progress σ) : slashed.handleChange s (.existing p)
      = .error ⟨.slashInExtension, s.store, s.events⟩ :=
  handlePresent_of_crashed (outcome_eq_crashed_iff.mpr (.slash (by decide) hbelow))

end Project

end Stylebook
