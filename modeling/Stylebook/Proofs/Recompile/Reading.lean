import Stylebook.Proofs.Import.Adequacy

/-!
# What compiling a file reads

Compiling a file makes calls of the inlining (`Visits`), and each of them
looks up the imports that it meets (`LooksUp`). Nothing but the file and
what is looked up decides what comes out: two memories that agree on these
paths compile the file alike (`compileFile_congr`), whatever else is in
them. Every import that is looked up for a file that compiles is found
(`Visits.exists_fetch`).

This is what lets a batch be reasoned about one stylesheet at a time. The
files change all through a batch, since modules are written in it, and a
stylesheet does not notice as long as none of these modules is something
that it reads.

What is looked up depends on the files themselves: an import is met only in
a text that was read. So `LooksUp` is about a memory and not about a path
alone, and the agreement of two memories is asked for on the paths that
*one* of them leads to.
-/

namespace Stylebook

/-- **Compiling a file makes a call**: the one for the file itself, or one
below. A call has the targets of the statements that enclose it, because the
same text is inlined differently inside of different statements. -/
def Visits (m : Memory) (p : Path) (c : Call) : Prop :=
  ∃ source, FileStore.fetch m p = .ok source
    ∧ Relation.ReflTransGen (Call.Makes m) ⟨[], p, source⟩ c

/-- **Compiling one file looks up another**, as an import of its own text or
below. Whether the other one is there does not matter: what is not found
decides the outcome as well. -/
def LooksUp (m : Memory) (p q : Path) : Prop := ∃ c, Visits m p c ∧ ∃ t ∈ c.targets, q = c.path t

namespace Compile

/-- A rule adds nothing to the imports. -/
theorem imports_addRule (path : Path) (unit : String) (compiled : CompiledStylesheet)
    (rule : Css.StyleRule) : (addRule path unit compiled rule).imports = compiled.imports := by
  unfold addRule
  dsimp only
  split
  · rfl
  · split <;> rfl

/-- The imports of a compiled text are those that it was given with. They
are those of the file itself, although the rules are those of the text with
all imports inlined. -/
theorem imports_rules (path : Path) (unit : String) (imports : List String)
    (rs : List Css.StyleRule) : (rules path unit imports rs).imports = imports := by
  unfold rules
  suffices h : ∀ compiled : CompiledStylesheet,
      (rs.foldl (addRule path unit) compiled).imports = compiled.imports from h _
  induction rs with
  | nil => exact fun _ => rfl
  | cons r rs ih => exact fun compiled => (ih _).trans (imports_addRule path unit compiled r)

end Compile

variable {m m' : Memory} {p : Path} {unit : String} {compiled : CompiledStylesheet}

/-- **What compiling a file gives**: the rules of its inlined text, and its
own imports. The bound stands for any number of calls inside of each other
that suffices, and not for the one that the program takes from the files,
which is why two memories of different extent can be compared. -/
theorem compileFile_eq_ok : compileFile m unit p = .ok compiled
    ↔ ∃ source, FileStore.fetch m p = .ok source ∧ ∃ bound text,
        Call.result m bound ⟨[], p, source⟩ = .ok text
          ∧ compiled
            = Compile.rules p unit (importTargets source) (Css.Stylesheet.ofText text).rules := by
  unfold compileFile compileSource
  constructor
  · intro h
    obtain ⟨source, hfetch, h⟩ := Except.bind_eq_ok.mp h
    obtain ⟨text, hinline, h⟩ := Except.bind_eq_ok.mp h
    cases h
    exact ⟨source, hfetch, FileStore.extent m + 1, text, hinline, rfl⟩
  · rintro ⟨source, hfetch, bound, text, hresult, rfl⟩
    rw [hfetch]
    change (inlineImports m p source >>= _) = _
    rw [Call.inlineImports_eq_of_result hresult (Endless.not_ok _)]
    rfl

/-- The imports of a compiled file are those that its own text names. -/
theorem exists_fetch_of_compileFile (h : compileFile m unit p = .ok compiled) :
    ∃ source, FileStore.fetch m p = .ok source ∧ compiled.imports = importTargets source := by
  obtain ⟨source, hfetch, -, -, -, rfl⟩ := compileFile_eq_ok.mp h
  exact ⟨source, hfetch, Compile.imports_rules _ _ _ _⟩

/-! ## The calls of a compile

A file that compiles makes finitely many calls, and they can be listed
(`visits`). A concrete memory can then be asked what its stylesheets read,
by evaluation. -/

/-- A call has the text of the file that it stands for. -/
theorem Visits.fetch {c : Call} (h : Visits m p c) : FileStore.fetch m c.origin = .ok c.source := by
  obtain ⟨source, hfetch, hreach⟩ := h
  rcases Relation.ReflTransGen.cases_tail hreach with rfl | ⟨d, -, t, -, imported, himported, rfl⟩
  · exact hfetch
  · exact himported

/-- **A file that compiles finds what it looks up.** An import that cannot
be read fails the whole file, however deep it stands. -/
theorem Visits.exists_fetch (hcompile : compileFile m unit p = .ok compiled) {c : Call}
    (h : Visits m p c) {t : String} (ht : t ∈ c.targets) :
    ∃ text, FileStore.fetch m (c.path t) = .ok text := by
  obtain ⟨source, hfetch, bound, text, hresult, -⟩ := compileFile_eq_ok.mp hcompile
  obtain ⟨source', hfetch', hreach⟩ := h
  obtain rfl : source = source' := Except.ok.inj (hfetch.symm.trans hfetch')
  obtain ⟨bound', text', hresult'⟩ := Call.exists_result_of_reach hresult hreach
  exact Call.exists_fetch_of_result hresult' ht

/-- The calls made below a call, at most `bound` of them inside of each
other. An import that cannot be read makes none. -/
def calls (m : Memory) : (bound : Nat) → Call → List Call
  | 0, c => [c]
  | bound + 1, c => c :: c.targets.flatMap fun t =>
    match FileStore.fetch m (c.path t) with
    | .ok imported => calls m bound (c.inner t imported)
    | .error _ => []

/-- A call is one of those made for it. -/
theorem mem_calls_self (bound : Nat) (c : Call) : c ∈ calls m bound c := by
  cases bound with
  | zero => exact List.mem_cons_self
  | succ bound => exact List.mem_cons_self

/-- A call that answers with a text makes no others. -/
theorem mem_calls {bound : Nat} {c d : Call} {text : String}
    (h : Call.result m bound c = .ok text) (hreach : Relation.ReflTransGen (Call.Makes m) c d) :
    d ∈ calls m bound c := by
  induction bound generalizing c text with
  | zero =>
    rcases Relation.ReflTransGen.cases_head hreach with rfl | ⟨e, ⟨t, ht, -⟩, -⟩
    · exact mem_calls_self 0 c
    · obtain ⟨bound, hbound⟩ := Call.exists_bound_of_result h ht
      cases hbound
  | succ bound ih =>
    rcases Relation.ReflTransGen.cases_head hreach with
      rfl | ⟨e, ⟨t, ht, imported, hfetch, rfl⟩, hbelow⟩
    · exact mem_calls_self _ c
    · obtain ⟨text', hinner⟩ := Call.exists_inner_of_result_succ h ht hfetch
      refine List.mem_cons_of_mem _ (List.mem_flatMap.mpr ⟨t, ht, ?_⟩)
      rw [hfetch]
      exact ih hinner hbelow

/-- The calls that compiling a file makes. -/
def visits (m : Memory) (p : Path) : List Call :=
  match FileStore.fetch m p with
  | .ok source => calls m (FileStore.extent m + 1) ⟨[], p, source⟩
  | .error _ => []

/-- **The calls of a compile that succeeds** can be listed. -/
theorem Visits.mem_visits (hcompile : compileFile m unit p = .ok compiled) {c : Call}
    (h : Visits m p c) : c ∈ visits m p := by
  obtain ⟨source, hfetch, bound, text, hresult, -⟩ := compileFile_eq_ok.mp hcompile
  obtain ⟨source', hfetch', hreach⟩ := h
  obtain rfl : source = source' := Except.ok.inj (hfetch.symm.trans hfetch')
  have hinline := Call.inlineImports_eq_of_result hresult (Endless.not_ok _)
  rw [visits, hfetch]
  exact mem_calls hinline hreach

/-- Two memories with the same files where a file is compiled make the same
calls. The proof follows the calls from the file on: at each of them the
imports that it meets are among those that the memories agree on. -/
theorem Visits.congr (hown : FileStore.fetch m' p = FileStore.fetch m p)
    (hreads : ∀ q, LooksUp m p q → FileStore.fetch m' q = FileStore.fetch m q) {c : Call}
    (h : Visits m' p c) : Visits m p c := by
  obtain ⟨source, hfetch, hreach⟩ := h
  rw [hown] at hfetch
  refine ⟨source, hfetch, Call.makes_congr_store (fun d hd t ht => ?_) hreach⟩
  exact hreads _ ⟨d, ⟨source, hfetch, hd⟩, t, ht, rfl⟩

/-! ## What a compile depends on

The number of calls that the program allows inside of each other is taken
from the size of all files. That would make the outcome depend on files that
are never read, if the bound were ever met; that it is not is what
`Call.result_extent_congr` says. -/

/-- A call answers alike with the files that it reads, though the extents
may differ: where one of them is too small for an answer, so is the other. -/
theorem Call.result_extent_congr {c : Call} (h : ∀ bound, result m' bound c = result m bound c) :
    result m' (FileStore.extent m' + 1) c = result m (FileStore.extent m + 1) c := by
  by_cases hends : Endless (result m (FileStore.extent m + 1) c)
  · by_cases hends' : Endless (result m' (FileStore.extent m' + 1) c)
    · exact hends'.trans hends.symm
    · rw [h] at hends'
      rw [result_extent_eq hends'] at hends
      exact absurd hends hends'
  · rw [← h] at hends
    rw [result_extent_eq hends, h]

/-- **Compiling depends on what it reads**, also where it fails or has
no end. The last is why this cannot be proved by going through the text that
comes out: there may be none. -/
theorem compileFile_congr (unit : String)
    (hown : FileStore.fetch m' p = FileStore.fetch m p)
    (hreads : ∀ q, LooksUp m p q → FileStore.fetch m' q = FileStore.fetch m q) :
    compileFile m' unit p = compileFile m unit p := by
  unfold compileFile
  rw [hown]
  refine Except.bind_congr fun source hfetch => ?_
  have hresult : ∀ bound, Call.result m' bound ⟨[], p, source⟩
      = Call.result m bound ⟨[], p, source⟩ :=
    Call.result_congr_store fun d hd t ht => hreads _ ⟨d, ⟨source, hfetch, hd⟩, t, ht, rfl⟩
  have hinline : inlineImports m' p source = inlineImports m p source :=
    Call.result_extent_congr hresult
  unfold compileSource
  rw [hinline]

end Stylebook
