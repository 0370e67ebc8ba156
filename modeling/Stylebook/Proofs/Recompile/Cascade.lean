import Stylebook.Recompile
import Stylebook.Proofs.Except
import Stylebook.Proofs.Graph.Edges

/-!
# A change and what follows from it

Handling a stylesheet that is there goes in two parts. First it is compiled
on its own account, and when that works out its imports come into the graph
and it counts as seen (`handleOwn`). Then the stylesheets that depend on it
are compiled again, one after the other, if it had been seen before
(`cascadeOf`).

Every compile is an `Attempt` at a stylesheet with the files as they are at
its turn. It *ends* if it works out or fails, and it does not if the program
crashes in it (`Ends`). Of an attempt that ends the state takes over its
outcome, and nothing else: the files, one more count in the summary and the
events that tell of it. The attempts at a list of stylesheets are known
before any of them is made (`attempts`), since the files that an attempt
leaves are known too, whatever becomes of it.

That is what makes it possible to say in advance whether a change comes to
its end. It does exactly if all of its attempts end, and then its state is
told by the list of them (`handlePresent_eq_ok`). Otherwise the program is
left at the first one that does not end, with the files and the events of
those before it (`foldlM_recompile_eq_error`). None of this depends on what
kind of store the files are in.
-/

namespace Stylebook

namespace Change

/-- A change that reports a file as there. Directories are none of these,
since nothing is done about them. -/
def IsPresent (c : Change) : Prop := c.kind = .file ∧ c.present = true

/-- A change that reports a file as gone. -/
def IsGone (c : Change) : Prop := c.kind = .file ∧ c.present = false

instance (c : Change) : Decidable c.IsPresent := inferInstanceAs (Decidable (_ ∧ _))

instance (c : Change) : Decidable c.IsGone := inferInstanceAs (Decidable (_ ∧ _))

end Change

/-- **Something comes to its end**: it works out or it fails, but it does
not crash. A failure is an end, because the program goes on behind it; a
crash is not, because there is no program left that could. -/
def Ends {α : Type} (r : Except Stop α) : Prop := ∀ crash, r ≠ .error (.crashed crash)

namespace Ends

variable {α β : Type}

@[simp] theorem ok (a : α) : Ends (.ok a : Except Stop α) := nofun

@[simp] theorem failed (e : Failure) : Ends (.error (.failed e) : Except Stop α) := nofun

@[simp] theorem not_crashed (crash : Crash) : ¬Ends (.error (.crashed crash) : Except Stop α) :=
  fun h => h crash rfl

/-- What does not come to its end crashes, and there is a reason for it. -/
theorem not_iff {r : Except Stop α} : ¬Ends r ↔ ∃ crash, r = .error (.crashed crash) := by
  unfold Ends
  push Not
  exact Iff.rfl

end Ends

/-- **What becomes of an attempt to compile a stylesheet**: the path of the
module with what was compiled, or why there is none. -/
abbrev Outcome := Except Stop (Path × CompiledStylesheet)

/-- **A summary with one more attempt.** One in which the program crashes is
not counted, because nobody is left to count it. -/
def BatchSummary.count (summary : BatchSummary) : Outcome → BatchSummary
  | .ok (_, compiled) =>
    { summary with
      compiled := summary.compiled + 1
      warnings := summary.warnings + compiled.diagnostics.length }
  | .error (.failed _) => { summary with failed := summary.failed + 1 }
  | .error (.crashed _) => summary

/-- Failures stay counted. So a batch without failures had none in any of
its attempts. -/
theorem BatchSummary.failed_le_foldl_count (summary : BatchSummary) (outcomes : List Outcome) :
    summary.failed ≤ (outcomes.foldl count summary).failed := by
  induction outcomes generalizing summary with
  | nil => exact Nat.le_refl _
  | cons o outcomes ih =>
    have hnow : summary.failed ≤ (summary.count o).failed := by
      rcases o with (e | crash) | r
      · exact Nat.le_succ _
      · exact Nat.le_refl _
      · exact Nat.le_refl _
    exact Nat.le_trans hnow (ih _)

/-- **A graph with a stylesheet on record**, if compiling it worked out:
with the edges from it to its imports, and seen. -/
def Graph.record (g : Graph) (p : Path) : Outcome → Graph
  | .ok (_, compiled) => ((g.register p (compiled.imports.map (importPath p))).observe p).2
  | .error _ => g

/-- **An attempt to compile a stylesheet**, with the files when its turn
comes. These are not the files that the batch began with: modules of
stylesheets before it have been written by then, and nothing says that a
module is not a stylesheet as well. -/
structure Attempt (σ : Type) where
  path : Path
  store : σ

namespace Project

variable {σ : Type} [FileStore σ] {project : Project} {s s' : Progress σ} {store : σ}
  {p trigger : Path} {ps : List Path} {w : Wreck σ} {c : Change}

/-- What is reported of an attempt. Of a crash there is nothing. -/
def outcomeEvents (project : Project) (p : Path) (trigger : Option Path) : Outcome → List Event
  | .ok (output, compiled) => project.successEvents p output compiled trigger
  | .error (.failed e) => [.error (some (project.display p)) e.message]
  | .error (.crashed _) => []

/-- The outcome of an attempt. -/
def outcome (project : Project) (a : Attempt σ) : Outcome :=
  (project.compileAndWrite a.store a.path).1

/-- What is reported of an attempt because of a change to another
stylesheet. -/
def attemptEvents (project : Project) (trigger : Path) (a : Attempt σ) : List Event :=
  project.outcomeEvents a.path (some trigger) (project.outcome a)

/-- **The attempts at stylesheets**, one after the other. Each has the files
that the one before it left, and it leaves some whatever becomes of it, so
the list of attempts is there even where one of them crashes and the others
are never made. -/
def attempts (project : Project) (store : σ) : List Path → List (Attempt σ)
  | [] => []
  | p :: ps => ⟨p, store⟩ :: attempts project (project.compileAndWrite store p).2 ps

/-- The files when stylesheets were compiled, one after the other. -/
def storeAfter (project : Project) (store : σ) (ps : List Path) : σ :=
  ps.foldl (fun store p => (project.compileAndWrite store p).2) store

/-- **All attempts at stylesheets end**, one after the other. It is the
condition under which a list of stylesheets is gone through to its end. -/
def EachEnds (project : Project) (store : σ) (ps : List Path) : Prop :=
  ∀ a ∈ project.attempts store ps, Ends (project.outcome a)

/-- **The state after attempts that end**, made because of a change to
another stylesheet. The graph stays, since it is that stylesheet which is on
its own account: compiling a stylesheet again does not register its imports
again. -/
def afterAttempts (project : Project) (trigger : Path) (s : Progress σ) (ps : List Path) :
    Progress σ where
  store := project.storeAfter s.store ps
  graph := s.graph
  summary := ((project.attempts s.store ps).map project.outcome).foldl BatchSummary.count
    s.summary
  events := s.events ++ (project.attempts s.store ps).flatMap (project.attemptEvents trigger)

/-- **The files that a step leaves**, whether it comes to its end or not. Of
a wreck they are all that is left but the events, and they are what the next
run of the program finds. -/
def storeLeft : Except (Wreck σ) (Progress σ) → σ
  | .ok s => s.store
  | .error w => w.store

/-! ## One attempt after the other

Going through a list of stylesheets is a run of steps that may crash. What
it comes to is told without the run: by the list of its attempts if all of
them end, and by the attempts before the first one that does not. -/

/-- There is one attempt for each stylesheet of a list, in the order of the
list. -/
theorem map_path_attempts (project : Project) (store : σ) (ps : List Path) :
    (project.attempts store ps).map Attempt.path = ps := by
  induction ps generalizing store with
  | nil => rfl
  | cons p ps ih =>
    rw [attempts, List.map_cons, ih]

theorem eachEnds_nil : project.EachEnds store [] := nofun

/-- The first attempt ends, and then the others do, with the files that it
leaves. -/
theorem eachEnds_cons : project.EachEnds store (p :: ps)
    ↔ Ends (project.outcome ⟨p, store⟩)
      ∧ project.EachEnds (project.compileAndWrite store p).2 ps := by
  unfold EachEnds
  rw [attempts, List.forall_mem_cons]

@[simp] theorem afterAttempts_nil (project : Project) (trigger : Path) (s : Progress σ) :
    project.afterAttempts trigger s [] = s := by
  rw [afterAttempts, attempts, List.flatMap_nil, List.append_nil]
  rfl

/-- Attempts at two lists are those at the first and then those at the
second. -/
theorem afterAttempts_append (project : Project) (trigger : Path) (s : Progress σ)
    (ps qs : List Path) : project.afterAttempts trigger s (ps ++ qs)
      = project.afterAttempts trigger (project.afterAttempts trigger s ps) qs := by
  induction ps generalizing s with
  | nil => rw [List.nil_append, afterAttempts_nil]
  | cons p ps ih =>
    have hcons : ∀ rest, project.afterAttempts trigger s (p :: rest)
        = project.afterAttempts trigger (project.afterAttempts trigger s [p]) rest := by
      intro rest
      simp only [afterAttempts, attempts, storeAfter, List.flatMap_cons, List.flatMap_nil,
        List.map_cons, List.map_nil, List.foldl_cons, List.foldl_nil, List.append_nil,
        List.append_assoc]
    rw [List.cons_append, hcons, ih, ← hcons]

/-- **A stylesheet that is compiled again** leaves its files, its count and
its events, unless the program crashes in it. A failure is no exception: it
is counted and reported, and the step is made. -/
theorem recompile_eq_ok : project.recompile trigger s p = .ok s'
    ↔ Ends (project.outcome ⟨p, s.store⟩) ∧ s' = project.afterAttempts trigger s [p] := by
  have hone : project.afterAttempts trigger s [p] =
      { store := (project.compileAndWrite s.store p).2
        graph := s.graph
        summary := s.summary.count (project.outcome ⟨p, s.store⟩)
        events := s.events ++ project.attemptEvents trigger ⟨p, s.store⟩ } := by
    simp [afterAttempts, attempts, storeAfter]
  rw [hone]
  unfold recompile attemptEvents outcome
  dsimp only
  rcases project.compileAndWrite s.store p with ⟨(e | crash) | r, store⟩
  · simp only [stop, Except.ok.injEq, Ends.failed, true_and]
    exact eq_comm
  · simp [stop]
  · simp only [Except.ok.injEq, Ends.ok, true_and]
    exact eq_comm

/-- **A crash** leaves what was there when the stylesheet was begun: nothing
is written before it is known what to write, and writing does not crash. -/
theorem compileAndWrite_of_crashed {crash : Crash}
    (h : project.outcome ⟨p, store⟩ = .error (.crashed crash)) :
    project.compileAndWrite store p = (.error (.crashed crash), store) := by
  unfold outcome compileAndWrite at h
  unfold compileAndWrite
  dsimp only at h
  cases hproduce : project.produce store p with
  | error e =>
    rw [hproduce] at h
    dsimp only at h ⊢
    rw [h]
  | ok r =>
    rw [hproduce] at h
    dsimp only at h
    -- writing fails or works out
    split at h <;> cases h

/-- A crash in a stylesheet that is compiled again is reported by nobody. -/
theorem recompile_of_crashed {crash : Crash}
    (h : project.outcome ⟨p, s.store⟩ = .error (.crashed crash)) :
    project.recompile trigger s p = .error ⟨crash, s.store, s.events⟩ := by
  unfold recompile
  rw [compileAndWrite_of_crashed h]
  rfl

/-- Compiling a stylesheet again breaks off exactly by a crash in it, and
the wreck has the files and the events that were there. -/
theorem recompile_eq_error : project.recompile trigger s p = .error w
    ↔ project.outcome ⟨p, s.store⟩ = .error (.crashed w.crash)
      ∧ w = ⟨w.crash, s.store, s.events⟩ := by
  constructor
  · intro h
    have hends : ¬Ends (project.outcome ⟨p, s.store⟩) := fun hends => by
      rw [recompile_eq_ok.mpr ⟨hends, rfl⟩] at h
      cases h
    obtain ⟨crash, hcrash⟩ := Ends.not_iff.mp hends
    rw [recompile_of_crashed hcrash] at h
    cases h
    exact ⟨hcrash, rfl⟩
  · rintro ⟨hcrash, hw⟩
    rw [recompile_of_crashed hcrash, ← hw]

/-- **A cascade comes to its end exactly if all of its attempts do**, and
leaves what they leave. This is where the run of the program and the list of
attempts meet; no lemma behind it opens the run again. -/
theorem foldlM_recompile_eq_ok : ps.foldlM (project.recompile trigger) s = .ok s'
    ↔ project.EachEnds s.store ps ∧ s' = project.afterAttempts trigger s ps := by
  induction ps generalizing s with
  | nil =>
    rw [Except.foldlM_nil_eq_ok, afterAttempts_nil, and_iff_right eachEnds_nil]
  | cons p ps ih =>
    rw [Except.foldlM_cons_eq_ok, eachEnds_cons, ← List.singleton_append, afterAttempts_append]
    constructor
    · rintro ⟨turn, hturn, hrest⟩
      obtain ⟨hends, rfl⟩ := recompile_eq_ok.mp hturn
      obtain ⟨hall, hlast⟩ := ih.mp hrest
      exact ⟨⟨hends, hall⟩, hlast⟩
    · rintro ⟨⟨hends, hall⟩, hlast⟩
      exact ⟨_, recompile_eq_ok.mpr ⟨hends, rfl⟩, ih.mpr ⟨hall, hlast⟩⟩

/-- **A cascade breaks off** at the first of its stylesheets in which the
program crashes. What the attempts before it left is the wreck, and the
stylesheets behind it are not attempted at all. -/
theorem foldlM_recompile_eq_error : ps.foldlM (project.recompile trigger) s = .error w
    ↔ ∃ before q after, ps = before ++ q :: after ∧ project.EachEnds s.store before
      ∧ project.outcome ⟨q, project.storeAfter s.store before⟩ = .error (.crashed w.crash)
      ∧ w = ⟨w.crash, project.storeAfter s.store before,
        (project.afterAttempts trigger s before).events⟩ := by
  rw [Except.foldlM_eq_error]
  constructor
  · rintro ⟨before, q, after, turn, rfl, hbefore, hcrash⟩
    obtain ⟨hends, rfl⟩ := foldlM_recompile_eq_ok.mp hbefore
    obtain ⟨hout, hw⟩ := recompile_eq_error.mp hcrash
    exact ⟨before, q, after, rfl, hends, hout, hw⟩
  · rintro ⟨before, q, after, rfl, hends, hout, hw⟩
    exact ⟨before, q, after, _, rfl, foldlM_recompile_eq_ok.mpr ⟨hends, rfl⟩,
      recompile_eq_error.mpr ⟨hout, hw⟩⟩

/-- **The state when a stylesheet was compiled on its own account**, or
failed. When it fails, its outcome is on record in the summary and the
events, and the graph is what it was. -/
def handleOwn (project : Project) (s : Progress σ) (p : Path) : Progress σ where
  store := (project.compileAndWrite s.store p).2
  graph := s.graph.record p (project.outcome ⟨p, s.store⟩)
  summary := s.summary.count (project.outcome ⟨p, s.store⟩)
  events := s.events ++ project.outcomeEvents p none (project.outcome ⟨p, s.store⟩)

/-- **The stylesheets that are compiled again** because of a change to one:
everything that depends on it, if it was seen before. The first time a
stylesheet is seen there is no cascade, since all stylesheets are new then
and come on their own account. -/
def cascadeOf (project : Project) (s : Progress σ) (p : Path) : List Path :=
  match project.outcome ⟨p, s.store⟩ with
  | .ok _ => if s.graph.hasSeen p then (project.handleOwn s p).graph.cascade p else []
  | .error _ => []

/-- The cascade of a stylesheet that compiles. -/
theorem cascadeOf_eq_of_ok {r : Path × CompiledStylesheet}
    (hown : project.outcome ⟨p, s.store⟩ = .ok r) : project.cascadeOf s p
      = if s.graph.hasSeen p = true then (project.handleOwn s p).graph.cascade p else [] := by
  unfold cascadeOf
  rw [hown]

/-- **A stylesheet that is there** is compiled, and then what depends on it.
One that fails has no cascade, so it is covered by the same equation. -/
theorem handlePresent_eq (hends : Ends (project.outcome ⟨p, s.store⟩)) :
    project.handlePresent s p
      = (project.cascadeOf s p).foldlM (project.recompile p) (project.handleOwn s p) := by
  unfold outcome at hends
  unfold handlePresent cascadeOf handleOwn outcome
  dsimp only at hends ⊢
  generalize project.compileAndWrite s.store p = done at hends ⊢
  obtain ⟨(e | crash) | r, store⟩ := done
  · rfl
  · exact absurd hends (Ends.not_crashed crash)
  · dsimp only
    -- registering its imports does not mark a file as seen
    have hfirst : ((s.graph.register p (r.2.imports.map (importPath p))).observe p).1
        = if s.graph.hasSeen p = true then .repeated else .first := by
      rw [Graph.observe_fst, Graph.hasSeen, Graph.seen_register]
      rfl
    rw [hfirst]
    by_cases hseen : s.graph.hasSeen p = true
    · rw [if_pos hseen, if_pos hseen]
      rfl
    · rw [if_neg hseen, if_neg hseen]
      rfl

/-- A stylesheet in which the program crashes leaves what was there before. -/
theorem handlePresent_of_crashed {crash : Crash}
    (h : project.outcome ⟨p, s.store⟩ = .error (.crashed crash)) :
    project.handlePresent s p = .error ⟨crash, s.store, s.events⟩ := by
  unfold handlePresent
  rw [compileAndWrite_of_crashed h]
  rfl

/-- **A change to a stylesheet comes to its end** exactly if the attempt at
it and those at what depends on it do, and then its state is what these
attempts leave. So whether it ends is a fact about the files and the graph
at its beginning. -/
theorem handlePresent_eq_ok : project.handlePresent s p = .ok s'
    ↔ project.EachEnds s.store (p :: project.cascadeOf s p)
      ∧ s' = project.afterAttempts p (project.handleOwn s p) (project.cascadeOf s p) := by
  by_cases hends : Ends (project.outcome ⟨p, s.store⟩)
  · rw [handlePresent_eq hends, foldlM_recompile_eq_ok, eachEnds_cons, and_iff_right hends]
    rfl
  · obtain ⟨crash, hcrash⟩ := Ends.not_iff.mp hends
    rw [handlePresent_of_crashed hcrash, eachEnds_cons]
    simp [hends]

/-- A change to a stylesheet breaks off in the attempt at the stylesheet
itself, or in one at what depends on it. In the first case there is no wreck
but what there was. -/
theorem handlePresent_eq_error : project.handlePresent s p = .error w
    ↔ (project.outcome ⟨p, s.store⟩ = .error (.crashed w.crash) ∧ w = ⟨w.crash, s.store, s.events⟩)
      ∨ (Ends (project.outcome ⟨p, s.store⟩)
        ∧ (project.cascadeOf s p).foldlM (project.recompile p) (project.handleOwn s p)
          = .error w) := by
  by_cases hends : Ends (project.outcome ⟨p, s.store⟩)
  · have hnot : project.outcome ⟨p, s.store⟩ ≠ .error (.crashed w.crash) := hends w.crash
    rw [handlePresent_eq hends]
    simp [hends, hnot]
  · obtain ⟨crash, hcrash⟩ := Ends.not_iff.mp hends
    rw [handlePresent_of_crashed hcrash, hcrash]
    simp only [Except.error.injEq, Stop.crashed.injEq, Ends.not_crashed, false_and, or_false]
    constructor
    · rintro rfl
      exact ⟨rfl, rfl⟩
    · rintro ⟨rfl, hw⟩
      exact hw.symm

/-! ## What a change comes to

The other changes have no attempts: that of a stylesheet that is gone
removes a module, and that of a directory does nothing. So a statement on
changes is proved for these three, and `handleChange_cases` is the only
place where the kind of a change is looked at. -/

/-- **A stylesheet that is gone** is out of the graph when its module is
removed. That may fail, or the program may crash before it. -/
theorem handleRemoval_cases (project : Project) (s : Progress σ) (p : Path) :
    (∃ output store, project.removeModule s.store p = (.ok output, store)
        ∧ project.handleRemoval s p = .ok
          { store := store
            graph := s.graph.removeOutgoing p
            summary := { s.summary with removed := s.summary.removed + 1 }
            events := s.events ++ [.removed (project.display p) (project.display output)] })
      ∨ (∃ e store, project.removeModule s.store p = (.error (.failed e), store)
        ∧ project.handleRemoval s p = .ok (project.reportFailure { s with store := store } p e))
      ∨ ∃ crash store, project.removeModule s.store p = (.error (.crashed crash), store)
        ∧ project.handleRemoval s p = .error ⟨crash, store, s.events⟩ := by
  unfold handleRemoval
  rcases project.removeModule s.store p with ⟨(e | crash) | output, store⟩
  · exact Or.inr (Or.inl ⟨e, store, rfl, rfl⟩)
  · exact Or.inr (Or.inr ⟨crash, store, rfl, rfl⟩)
  · exact Or.inl ⟨output, store, rfl, rfl⟩

/-- **A change** is none, or that of a stylesheet that is there, or that of
one that is gone. -/
theorem handleChange_cases (project : Project) (s : Progress σ) (c : Change) :
    (c.kind = .directory ∧ project.handleChange s c = .ok s)
      ∨ (c.IsPresent ∧ project.handleChange s c = project.handlePresent s c.path)
      ∨ (c.IsGone ∧ project.handleChange s c = project.handleRemoval s c.path) := by
  unfold handleChange
  cases hkind : c.kind with
  | directory => exact Or.inl ⟨rfl, rfl⟩
  | file =>
    dsimp only
    by_cases hpresent : c.present = true
    · rw [if_pos hpresent]
      exact Or.inr (Or.inl ⟨⟨hkind, hpresent⟩, rfl⟩)
    · rw [if_neg hpresent]
      exact Or.inr (Or.inr ⟨⟨hkind, Bool.eq_false_iff.mpr hpresent⟩, rfl⟩)

/-- A stylesheet that is there is handled as one. -/
theorem handleChange_of_isPresent (h : c.IsPresent) (s : Progress σ) :
    project.handleChange s c = project.handlePresent s c.path := by
  unfold handleChange
  rw [h.1]
  exact if_pos h.2

end Project

end Stylebook
