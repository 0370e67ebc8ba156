import Mathlib.Data.Finset.Card
import Mathlib.Data.Finset.Filter
import Mathlib.Data.Set.List
import Stylebook.Proofs.Import.Concatenation

/-!
# Inlining as a recursion on stylesheets

Inlining works on texts: statements are taken out, the rest is parsed, and
what the targets stand for is replaced occurrence by occurrence, in a text
that already holds other inlined files. For stylesheets with their imports
at the head, all of this is one short recursion on the stylesheets
themselves (`SheetMemory.expand`). A stylesheet inside of the statements of
some targets is the stylesheets of its other targets, one after the other,
each inside of one target more, and then its body. Cycles need no care of
their own: a target encloses only once, and there are no more targets than
the files have.

The same recursion says which files are looked up, and in which order
(`SheetMemory.visits`). If all of them can be read, inlining gives what the
recursion gives, and if not, its failure is the first one that cannot
(`inlineImports_eq_report`). Any files with their imports at the head and
clear targets are of this kind (`HeadedFiles.exists_sheetMemory`).
-/

namespace Stylebook

open Import

/-- **Files in memory that are stylesheets with their imports at the head.** -/
structure SheetMemory extends Memory where
  sheets : PathMap Headed
  files_eq : files = sheets.map fun e => (e.1, e.2.source)

/-- Files with their imports at the head and clear targets are such files in
memory. -/
theorem HeadedFiles.exists_sheetMemory {m : Memory} (hfiles : HeadedFiles m)
    (hclear : ClearFiles m) :
    ∃ l : SheetMemory, l.toMemory = m ∧ ∀ e ∈ l.sheets, e.2.IsClear := by
  have hrange : m.files ∈ Set.range (List.map fun e : Path × Headed => (e.1, e.2.source)) := by
    rw [Set.range_list_map]
    intro e he
    obtain ⟨h, hsource⟩ := hfiles e he
    exact ⟨(e.1, h), Prod.ext rfl hsource.symm⟩
  obtain ⟨sheets, hsheets⟩ := hrange
  refine ⟨⟨m, sheets, hsheets.symm⟩, rfl, fun e he => ?_⟩
  exact hclear (e.1, e.2.source) (hsheets ▸ List.mem_map_of_mem he) e.2 rfl

namespace SheetMemory

variable (l : SheetMemory)

/-- The stylesheets of a list, with no path denied. -/
def ofList (sheets : PathMap Headed) : SheetMemory :=
  ⟨⟨sheets.map fun e => (e.1, e.2.source), [], [], []⟩, sheets, rfl⟩

/-- The stylesheet that can be read at a path. -/
def sheet? (p : Path) : Option Headed :=
  if p.isIn l.deniedReads then none else PathMap.get? l.sheets p

/-- Why no stylesheet can be read at a path. -/
def cause (p : Path) : String :=
  if p.isIn l.deniedReads then "read denied" else "File not found"

/-- At each path there is the text of the stylesheet. -/
theorem get?_files (p : Path) :
    PathMap.get? l.files p = (PathMap.get? l.sheets p).map Headed.source := by
  rw [l.files_eq]
  induction l.sheets with
  | nil => rfl
  | cons e sheets ih =>
    rw [List.map_cons, PathMap.get?_cons, PathMap.get?_cons, ih]
    split <;> rfl

/-- **What is read is the text of a stylesheet.** -/
theorem fetch_eq (p : Path) : FileStore.fetch l.toMemory p = match l.sheet? p with
    | some h => .ok h.source
    | none => .error (.failed (.read p (l.cause p))) := by
  rw [Memory.fetch_eq, sheet?, cause, get?_files]
  by_cases hdenied : p.isIn l.deniedReads = true
  · simp [hdenied]
  · rw [if_neg hdenied, if_neg hdenied, if_neg hdenied]
    cases PathMap.get? l.sheets p <;> rfl

/-- A stylesheet is read when there is one. -/
theorem fetch_of_sheet? {l : SheetMemory} {p : Path} {h : Headed} (hsheet : l.sheet? p = some h) :
    FileStore.fetch l.toMemory p = .ok h.source := by
  rw [fetch_eq, hsheet]

/-- When there is no stylesheet the cause is told. -/
theorem fetch_of_sheet?_none {l : SheetMemory} {p : Path} (hsheet : l.sheet? p = none) :
    FileStore.fetch l.toMemory p = .error (.failed (.read p (l.cause p))) := by
  rw [fetch_eq, hsheet]

/-- What is read is one of the stylesheets. -/
theorem exists_mem_of_sheet? {l : SheetMemory} {p : Path} {h : Headed} (hsheet : l.sheet? p = some h) :
    ∃ e ∈ l.sheets, e.2 = h := by
  rw [sheet?] at hsheet
  split at hsheet
  · cases hsheet
  · obtain ⟨q, hq, -⟩ := PathMap.mem_of_get? hsheet
    exact ⟨(q, h), hq, rfl⟩

/-! ## The recursion

A recursion on files would not end at a cycle. This one ends for a reason
that has nothing to do with files: each step encloses what follows in a
target that did not enclose it before, and there are no more targets than
the files name. -/

/-- The targets of a stylesheet and of all files, without those that enclose
already. -/
def remaining (E : List String) (h : Headed) : Finset String :=
  (h.targets ++ l.sheets.flatMap fun e => e.2.targets).toFinset.filter fun t => t ∉ E

/-- **Inside of a further statement fewer targets remain.** -/
theorem card_remaining_lt {E : List String} {p : Path} {h h' : Headed} {t : String}
    (hsheet : l.sheet? p = some h') (ht : t ∈ h.targets.filter fun t => t ∉ E) :
    (l.remaining (E ++ [t]) h').card < (l.remaining E h).card := by
  obtain ⟨htargets, hnot⟩ := List.mem_filter.mp ht
  obtain ⟨e, he, rfl⟩ := exists_mem_of_sheet? hsheet
  have hmem : t ∈ l.remaining E h := by simpa [remaining, htargets] using hnot
  refine Finset.card_lt_card ⟨fun u hu => ?_, fun hsub => ?_⟩
  · simp only [remaining, Finset.mem_filter, List.mem_toFinset, List.mem_append,
      List.mem_flatMap, not_or] at hu ⊢
    refine ⟨Or.inr ?_, hu.2.1⟩
    exact hu.1.elim (fun hown => ⟨e, he, hown⟩) id
  · simpa [remaining] using hsub hmem

/-- **A stylesheet with its imports expanded**, inside of the statements of
the targets `E`: for each target that does not enclose it already, the
stylesheet at its path, inside of one target more, and then the body. -/
def expand (E : List String) (origin : Path) (h : Headed) : List Char :=
  ((h.targets.filter fun t => t ∉ E).attach.flatMap fun ⟨t, _⟩ =>
    match _ : l.sheet? (importPath origin t) with
    | some h' => expand (E ++ [t]) (importPath origin t) h'
    | none => []) ++ h.body
termination_by (l.remaining E h).card
decreasing_by exact l.card_remaining_lt ‹_› ‹_›

/-- **The files that the recursion looks up**, in order. Each target is
looked up once. -/
def visits (E : List String) (origin : Path) (h : Headed) : List Path :=
  (h.targets.filter fun t => t ∉ E).eraseDups.attach.flatMap fun ⟨t, _⟩ =>
    importPath origin t :: match _ : l.sheet? (importPath origin t) with
      | some h' => visits (E ++ [t]) (importPath origin t) h'
      | none => []
termination_by (l.remaining E h).card
decreasing_by exact l.card_remaining_lt ‹_› (List.mem_eraseDups.mp ‹_›)

/-- What stands in the place of a target. -/
def expandAt (E : List String) (origin : Path) (t : String) : List Char :=
  match l.sheet? (importPath origin t) with
  | some h => l.expand (E ++ [t]) (importPath origin t) h
  | none => []

/-- The files that are looked up for a target. -/
def visitsAt (E : List String) (origin : Path) (t : String) : List Path :=
  importPath origin t :: match l.sheet? (importPath origin t) with
    | some h => l.visits (E ++ [t]) (importPath origin t) h
    | none => []

/-- Going over a list with the membership of its elements is going over the
list. -/
theorem flatMap_attach {α β : Type} {ts : List α} {f : {t // t ∈ ts} → List β} {g : α → List β}
    (hfg : ∀ t ht, f ⟨t, ht⟩ = g t) : ts.attach.flatMap f = ts.flatMap g := by
  rw [List.flatMap_subtype hfg, List.unattach_attach]

/-- The recursion in one equation, without the memberships that it needs
to end. -/
theorem expand_eq (E : List String) (origin : Path) (h : Headed) :
    l.expand E origin h
      = (h.targets.filter fun t => t ∉ E).flatMap (l.expandAt E origin) ++ h.body := by
  rw [expand]
  refine congrArg (· ++ h.body) (flatMap_attach fun t ht => ?_)
  show (match _ : l.sheet? (importPath origin t) with
    | some h' => l.expand (E ++ [t]) (importPath origin t) h'
    | none => []) = l.expandAt E origin t
  rw [expandAt]
  cases l.sheet? (importPath origin t) <;> rfl

/-- The same for the files that are looked up. -/
theorem visits_eq (E : List String) (origin : Path) (h : Headed) :
    l.visits E origin h
      = (h.targets.filter fun t => t ∉ E).eraseDups.flatMap (l.visitsAt E origin) := by
  rw [visits]
  refine flatMap_attach fun t ht => ?_
  show (importPath origin t :: match _ : l.sheet? (importPath origin t) with
    | some h' => l.visits (E ++ [t]) (importPath origin t) h'
    | none => []) = l.visitsAt E origin t
  rw [visitsAt]
  cases l.sheet? (importPath origin t) <;> rfl

/-- **The induction along the recursion.** -/
theorem expandInduction {motive : List String → Path → Headed → Prop}
    (step : ∀ E origin h, (∀ t ∈ h.targets, t ∉ E →
      ∀ h', l.sheet? (importPath origin t) = some h' →
        motive (E ++ [t]) (importPath origin t) h') → motive E origin h)
    (E : List String) (origin : Path) (h : Headed) : motive E origin h := by
  induction hn : (l.remaining E h).card using Nat.strong_induction_on generalizing E origin h with
  | _ n ih =>
    refine step E origin h fun t ht hnot h' hsheet => ih _ ?_ _ _ _ rfl
    rw [← hn]
    exact l.card_remaining_lt hsheet (List.mem_filter.mpr ⟨ht, by simpa using hnot⟩)

/-- **What is expanded is sealed**: no statement is left in it. -/
theorem sealed_expand (E : List String) (origin : Path) (h : Headed) :
    Sealed (l.expand E origin h) := by
  induction E, origin, h using l.expandInduction with
  | step E origin h ih =>
    rw [expand_eq, List.flatMap_def]
    refine Sealed.append (Sealed.flatten fun part hpart => ?_) h.body_sealed
    obtain ⟨t, ht, rfl⟩ := List.mem_map.mp hpart
    obtain ⟨htargets, hnot⟩ := List.mem_filter.mp ht
    rw [expandAt]
    cases hsheet : l.sheet? (importPath origin t) with
    | none => exact Sealed.nil
    | some h' => exact ih t htargets (by simpa using hnot) h' hsheet

/-- So is what stands in the place of a target. -/
theorem sealed_expandAt (E : List String) (origin : Path) (t : String) :
    Sealed (l.expandAt E origin t) := by
  rw [expandAt]
  split
  · exact l.sealed_expand _ _ _
  · exact Sealed.nil

/-! ## Reading the files in order

A failure is told by the list of files alone, whatever is made of their
texts. So the two halves of the recursion can be kept apart: which files are
read, and what comes of them when all can be. -/

/-- **What comes of reading files in order**: the failure of the first one
that cannot be read, and otherwise `a`. -/
def report {α : Type} (ps : List Path) (a : α) : Except Stop α :=
  match ps.find? fun p => (l.sheet? p).isNone with
  | some p => .error (.failed (.read p (l.cause p)))
  | none => .ok a

section Report

variable {α β : Type} {l}

/-- Nothing to read is nothing that fails. -/
theorem report_nil (a : α) : l.report [] a = .ok a := rfl

/-- What is made of the result does not matter. -/
theorem report_map (ps : List Path) (a : α) (f : α → β) :
    (l.report ps a).map f = l.report ps (f a) := by
  rw [report, report]
  split <;> rfl

/-- Reading some files and then others. -/
theorem report_append (ps qs : List Path) (a : α) (b : β) :
    l.report (ps ++ qs) b = l.report ps a >>= fun _ => l.report qs b := by
  rw [report, report, List.find?_append]
  cases ps.find? fun p => (l.sheet? p).isNone <;> rfl

/-- A file that cannot be read is the failure. -/
theorem report_cons_none {p : Path} (hsheet : l.sheet? p = none) (ps : List Path) (a : α) :
    l.report (p :: ps) a = .error (.failed (.read p (l.cause p))) := by
  simp [report, hsheet]

/-- A file that can be read is no failure, so the report is that of the
others. -/
theorem report_cons_some {p : Path} {h : Headed} (hsheet : l.sheet? p = some h) (ps : List Path)
    (a : α) : l.report (p :: ps) a = l.report ps a := by
  simp [report, hsheet]

/-- There is a result when every file can be read. -/
theorem report_eq_ok {ps : List Path} {a b : α} :
    l.report ps a = .ok b ↔ (∀ p ∈ ps, ∃ h, l.sheet? p = some h) ∧ a = b := by
  rw [report]
  cases hfind : ps.find? fun p => (l.sheet? p).isNone with
  | some p =>
    refine ⟨nofun, fun hall => ?_⟩
    obtain ⟨h, hsheet⟩ := hall.1 p (List.mem_of_find?_eq_some hfind)
    have hnone := List.find?_some hfind
    simp [hsheet] at hnone
  | none =>
    have hall : ∀ p ∈ ps, ∃ h, l.sheet? p = some h := by
      simpa [Option.ne_none_iff_exists'] using hfind
    exact ⟨fun heq => ⟨hall, Except.ok.inj heq⟩, fun heq => congrArg Except.ok heq.2⟩

/-- Reading files in order has an end. -/
theorem not_endless_report (ps : List Path) (a : α) : ¬Endless (l.report ps a) := by
  rw [report]
  split
  · simp [Endless.error_iff]
  · simp

/-- **The answers of several parts** are there when all of their files can
be read. -/
theorem mapM_report (ts : List β) (ps : β → List Path) (g : β → α) :
    (ts.mapM fun t => l.report (ps t) (g t)) = l.report (ts.flatMap ps) (ts.map g) := by
  induction ts with
  | nil => rfl
  | cons t ts ih =>
    rw [Except.mapM_cons, ih, List.flatMap_cons, report_append (ps t) _ (g t)]
    cases hfirst : l.report (ps t) (g t) with
    | error e => rfl
    | ok a =>
      obtain rfl : g t = a := (report_eq_ok.mp hfirst).2
      show l.report (ts.flatMap ps) (ts.map g) >>= _ = l.report (ts.flatMap ps) (g t :: ts.map g)
      rw [← report_map _ (ts.map g) (g t :: ·)]
      cases l.report (ts.flatMap ps) (ts.map g) <;> rfl

end Report

/-! ## Inlining is the recursion

The calls of the inlining go the way of the recursion, one call for each of
its steps. Since the recursion ends, there is a bound for which the
calls end, and then the bound of the program will do. -/

variable {l}

/-- The targets that are left are those that the recursion goes over. -/
theorem targets_without (h : Headed) (E : List String) :
    (h.without E).targets = h.targets.filter fun t => t ∉ E := by
  rw [Headed.targets, Headed.targets, List.filter_map]
  rfl

/-- The calls for several imports, with one bound for all of them. -/
theorem exists_bound {m : Memory} {c : Call} {ts : List String} {r : String → Except Stop String}
    (h : ∀ t ∈ ts, ∃ bound, Call.part m bound c t = r t) (hends : ∀ t, ¬Endless (r t)) :
    ∃ bound, ∀ t ∈ ts, Call.part m bound c t = r t := by
  induction ts with
  | nil => exact ⟨0, by simp⟩
  | cons t ts ih =>
    obtain ⟨first, hfirst⟩ := h t List.mem_cons_self
    obtain ⟨bound, hbound⟩ := ih fun u hu => h u (List.mem_cons_of_mem _ hu)
    refine ⟨max first bound, List.forall_mem_cons.mpr ⟨?_, fun u hu => ?_⟩⟩
    · rw [Call.part_le_of_not_endless (hfirst ▸ hends t) (Nat.le_max_left _ _), hfirst]
    · have hu := hbound u hu
      rw [Call.part_le_of_not_endless (hu ▸ hends u) (Nat.le_max_right _ _), hu]

/-- **A part of a call** reads the file of its target, and then what that
one leads to. -/
theorem exists_part_eq {c : Call} {t : String}
    (hinner : ∀ h', l.sheet? (c.path t) = some h' →
      ∃ bound, Call.result l.toMemory bound (c.inner t h'.source)
        = l.report (l.visits (c.enclosing ++ [t]) (c.path t) h')
            (String.ofList (l.expand (c.enclosing ++ [t]) (c.path t) h'))) :
    ∃ bound, Call.part l.toMemory bound c t
      = l.report (l.visitsAt c.enclosing c.origin t)
          (String.ofList (l.expandAt c.enclosing c.origin t)) := by
  rw [visitsAt, expandAt]
  show ∃ bound, _ = l.report (c.path t :: match l.sheet? (c.path t) with
    | some h => l.visits (c.enclosing ++ [t]) (c.path t) h
    | none => []) (String.ofList (match l.sheet? (c.path t) with
    | some h => l.expand (c.enclosing ++ [t]) (c.path t) h
    | none => []))
  cases hsheet : l.sheet? (c.path t) with
  | none =>
    refine ⟨0, ?_⟩
    rw [Call.part_eq_of_error (fetch_of_sheet?_none hsheet), report_cons_none hsheet]
  | some h' =>
    obtain ⟨bound, hbound⟩ := hinner h' hsheet
    refine ⟨bound, ?_⟩
    rw [Call.part_eq_of_fetch (fetch_of_sheet? hsheet), report_cons_some hsheet, hbound]

/-- **What a call for a stylesheet answers.** -/
theorem exists_result_eq (hclear : ∀ e ∈ l.sheets, e.2.IsClear) (E : List String) (origin : Path)
    (h : Headed) (hplain : ∀ e ∈ E, Headed.IsPlain e) (hsource : h.IsClear) :
    ∃ bound, Call.result l.toMemory bound ⟨E, origin, h.source⟩
      = l.report (l.visits E origin h) (String.ofList (l.expand E origin h)) := by
  induction E, origin, h using l.expandInduction with
  | step E origin h ih =>
    have htargets : (⟨E, origin, h.source⟩ : Call).targets
        = (h.targets.filter fun t => t ∉ E).eraseDups := by
      rw [Call.targets_eq_of_headed rfl hsource hplain, targets_without]
    have hpart : ∀ t ∈ (⟨E, origin, h.source⟩ : Call).targets,
        ∃ bound, Call.part l.toMemory bound ⟨E, origin, h.source⟩ t
          = l.report (l.visitsAt E origin t) (String.ofList (l.expandAt E origin t)) := by
      intro t ht
      rw [htargets, List.mem_eraseDups, List.mem_filter] at ht
      have hplain' : ∀ u ∈ E ++ [t], Headed.IsPlain u := by
        obtain ⟨s, -, rfl⟩ := List.mem_map.mp ht.1
        exact Headed.isPlain_append hplain s
      refine exists_part_eq fun h' hsheet => ?_
      obtain ⟨e, he, rfl⟩ := exists_mem_of_sheet? hsheet
      exact ih t ht.1 (by simpa using ht.2) _ hsheet hplain' (hclear e he)
    obtain ⟨bound, hbound⟩ := exists_bound hpart fun t => not_endless_report _ _
    have hsealed : ∀ t, Sealed (String.ofList (l.expandAt E origin t)).toList := by
      intro t
      rw [String.toList_ofList]
      exact l.sealed_expandAt E origin t
    refine ⟨bound + 1, ?_⟩
    rw [Call.result_succ, Except.mapM_congr hbound, mapM_report, report_map,
      Call.replaced_of_headed rfl hsource hplain fun t _ => hsealed t, htargets, visits_eq,
      expand_eq, targets_without]
    simp only [String.toList_ofList]

end SheetMemory

/-- **Inlining gives what the recursion on the stylesheets gives**, or the
failure of the first file that the recursion looks up and that cannot be
read. Cycles may be among the files.

The recursion works on the parts of a stylesheet, and ends since each call
has one more enclosing target out of those that there are. The program works
on the text. That both do the same needs that the texts which are put in can
neither become a statement with what stands around them nor break one, for
which the targets are clear. -/
theorem inlineImports_eq_report {l : SheetMemory} (hclear : ∀ e ∈ l.sheets, e.2.IsClear)
    (origin : Path) {h : Headed} (hsource : h.IsClear) :
    inlineImports l.toMemory origin h.source
      = l.report (l.visits [] origin h) (String.ofList (l.expand [] origin h)) := by
  obtain ⟨bound, hbound⟩ := SheetMemory.exists_result_eq hclear [] origin h (by simp) hsource
  rw [← hbound]
  exact Call.inlineImports_eq_of_result rfl (hbound ▸ SheetMemory.not_endless_report _ _)

/-- Two files that import each other, and one that imports them and a
missing file. -/
def cyclicSheets : SheetMemory := .ofList
  [(⟨"/p/a.css"⟩, sheetX ["b.css"] (by decide)), (⟨"/p/b.css"⟩, sheetY ["a.css"] (by decide)),
    (⟨"/p/d.css"⟩, sheetX ["a.css", "c.css"] (by decide))]

/-- The targets of these files are clear. -/
theorem isClear_cyclicSheets : ∀ e ∈ cyclicSheets.sheets, e.2.IsClear := by
  simp only [cyclicSheets, SheetMemory.ofList, List.forall_mem_cons]
  exact ⟨Headed.isClear_usual (by decide), Headed.isClear_usual (by decide),
    Headed.isClear_usual (by decide), by simp⟩

/-- From one of the two files the cycle is closed once. From the third file
the missing file is the failure, which is looked up last. -/
theorem inlineImports_eq_report_of_cycle :
    (inlineImports cyclicSheets.toMemory ⟨"/p/a.css"⟩ (sheetX ["b.css"] (by decide)).source
        = cyclicSheets.report
            (cyclicSheets.visits [] ⟨"/p/a.css"⟩ (sheetX ["b.css"] (by decide)))
            (String.ofList (cyclicSheets.expand [] ⟨"/p/a.css"⟩ (sheetX ["b.css"] (by decide))))
      ∧ inlineImports cyclicSheets.toMemory ⟨"/p/a.css"⟩ (sheetX ["b.css"] (by decide)).source
        = .ok ".x{}.y{}.x{}")
    ∧ (inlineImports cyclicSheets.toMemory ⟨"/p/d.css"⟩
          (sheetX ["a.css", "c.css"] (by decide)).source
        = cyclicSheets.report
            (cyclicSheets.visits [] ⟨"/p/d.css"⟩ (sheetX ["a.css", "c.css"] (by decide)))
            (String.ofList (cyclicSheets.expand [] ⟨"/p/d.css"⟩
              (sheetX ["a.css", "c.css"] (by decide))))
      ∧ inlineImports cyclicSheets.toMemory ⟨"/p/d.css"⟩
          (sheetX ["a.css", "c.css"] (by decide)).source
        = .error (.failed (.read ⟨"/p/c.css"⟩ "File not found"))) :=
  ⟨⟨inlineImports_eq_report isClear_cyclicSheets _ (Headed.isClear_usual (by decide)),
      by decide +kernel⟩,
    inlineImports_eq_report isClear_cyclicSheets _ (Headed.isClear_usual (by decide)),
    by decide +kernel⟩

/-- The targets may stand in statements. -/
theorem isFit_openTargets : ∀ t ∈ [";@import ", "foo@import ", ";x"], IsFit t := by
  decide

theorem isFit_nil : ∀ t ∈ ([] : List String), IsFit t := by
  decide

/-- Files of which one has targets that end in the keyword and a blank. -/
def openSheets : SheetMemory := .ofList
  [(⟨"/p/a.css"⟩, sheetX [";@import ", "foo@import ", ";x"] isFit_openTargets),
    (⟨"/p/;@import "⟩, sheetX [] isFit_nil), (⟨"/p/foo@import "⟩, sheetY [] isFit_nil),
    (⟨"/p/;x"⟩, sheetY [] isFit_nil)]

namespace SheetMemory

variable {l : SheetMemory} {E : List String} {origin : Path} {t : String} {h : Headed}

/-- A file that imports nothing stands for its body. -/
theorem expandAt_of_leaf (hsheet : l.sheet? (importPath origin t) = some h)
    (hleaf : h.targets = []) : l.expandAt E origin t = h.body := by
  rw [expandAt, hsheet]
  show l.expand _ _ h = h.body
  rw [expand_eq, hleaf]
  rfl

/-- Only the file itself is looked up for it. -/
theorem visitsAt_of_leaf (hsheet : l.sheet? (importPath origin t) = some h)
    (hleaf : h.targets = []) : l.visitsAt E origin t = [importPath origin t] := by
  rw [visitsAt, hsheet]
  show importPath origin t :: l.visits _ _ h = [importPath origin t]
  rw [visits_eq, hleaf]
  rfl

end SheetMemory

/-- **The recursion is not what inlining gives where a target is open at
its end**, even if it has no NUL: the quote behind it is taken for the start
of another target. -/
theorem inlineImports_ne_report :
    (∀ e ∈ openSheets.sheets, ∀ t ∈ e.2.targets, '\x00' ∉ t.toList)
      ∧ inlineImports openSheets.toMemory ⟨"/p/a.css"⟩
          (sheetX [";@import ", "foo@import ", ";x"] (by decide)).source
        ≠ openSheets.report
            (openSheets.visits [] ⟨"/p/a.css"⟩
              (sheetX [";@import ", "foo@import ", ";x"] (by decide)))
            (String.ofList (openSheets.expand [] ⟨"/p/a.css"⟩
              (sheetX [";@import ", "foo@import ", ";x"] (by decide)))) := by
  refine ⟨by decide, ?_⟩
  have hfirst : openSheets.sheet? (importPath ⟨"/p/a.css"⟩ ";@import ")
      = some (sheetX [] (by decide)) := rfl
  have hsecond : openSheets.sheet? (importPath ⟨"/p/a.css"⟩ "foo@import ")
      = some (sheetY [] (by decide)) := rfl
  have hthird : openSheets.sheet? (importPath ⟨"/p/a.css"⟩ ";x")
      = some (sheetY [] (by decide)) := rfl
  have htargets : ((sheetX [";@import ", "foo@import ", ";x"] (by decide)).targets.filter
      fun t => t ∉ ([] : List String)) = [";@import ", "foo@import ", ";x"] := by decide
  have hdups : [";@import ", "foo@import ", ";x"].eraseDups
      = [";@import ", "foo@import ", ";x"] := by decide
  rw [SheetMemory.visits_eq, SheetMemory.expand_eq, htargets, hdups]
  simp only [List.flatMap_cons, List.flatMap_nil, SheetMemory.visitsAt_of_leaf hfirst rfl,
    SheetMemory.visitsAt_of_leaf hsecond rfl, SheetMemory.visitsAt_of_leaf hthird rfl,
    SheetMemory.expandAt_of_leaf hfirst rfl, SheetMemory.expandAt_of_leaf hsecond rfl,
    SheetMemory.expandAt_of_leaf hthird rfl, List.singleton_append,
    SheetMemory.report_cons_some hfirst, SheetMemory.report_cons_some hsecond,
    SheetMemory.report_cons_some hthird, SheetMemory.report_nil]
  decide +kernel

end Stylebook
