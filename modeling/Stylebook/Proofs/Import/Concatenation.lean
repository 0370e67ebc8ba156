import Mathlib.Data.Set.Card
import Stylebook.Proofs.Import.Adequacy
import Stylebook.Proofs.Import.Headed

/-!
# Inlining and manual concatenation

Of stylesheets with their imports at the head, the *full text* of a file is
what one would write by hand: each statement, with the white space before
it, replaced by the full text of the file that it names. It exists where the
imports form no cycle (`exists_unfolds`).

Inlining does not always give the full text. It knows the statements around
a text by their spelling and not by the files that they name, so below
`@import "x.css"` it drops every statement of `x.css`, also one that names
another file from another directory. What it gives is therefore described by
a relation of its own (`Inlines`), and the two texts are compared at
the end: they are the same exactly when every statement that is dropped
names a file whose full text is empty (`inlineImports_eq_concatenation`).
-/

namespace Stylebook

open Import

/-- **One file imports another**, with a target that the parser reports. -/
def Imports (m : Memory) (p q : Path) : Prop :=
  ∃ text, FileStore.fetch m p = .ok text ∧ ∃ t ∈ importTargets text, q = importPath p t

/-- **Files with their imports at the head.** -/
def HeadedFiles (m : Memory) : Prop := ∀ e ∈ m.files, ∃ h : Headed, e.2 = h.source

/-- **Files with clear targets.** -/
def ClearFiles (m : Memory) : Prop := ∀ e ∈ m.files, ∀ h : Headed, e.2 = h.source → h.IsClear

/-- What is read from such files is a stylesheet with its imports at the
head. -/
theorem HeadedFiles.exists_of_fetch {m : Memory} (hfiles : HeadedFiles m) {p : Path}
    {text : String} (hfetch : FileStore.fetch m p = .ok text) : ∃ h : Headed, text = h.source := by
  obtain ⟨e, he, -, rfl⟩ := Memory.exists_mem_of_fetch hfetch
  exact hfiles e he

/-- The targets of what is read from such files are clear. -/
theorem ClearFiles.isClear {m : Memory} (hclear : ClearFiles m) {p : Path} {h : Headed}
    (hfetch : FileStore.fetch m p = .ok h.source) : h.IsClear := by
  obtain ⟨e, he, -, heq⟩ := Memory.exists_mem_of_fetch hfetch
  exact hclear e he h heq

/-! ## The full text

The full text is given as a relation, by which a file may have none. Where
the imports go in a circle there is no text that could stand in their place,
and no recursion on files would come to an end. -/

/-- **The statements of a file, each replaced by the full text of the file
that it names.** -/
inductive Unfolds (m : Memory) : Path → List Statement → List Char → Prop where
  | nil (p : Path) : Unfolds m p [] []
  | cons {p : Path} {s : Statement} {ss : List Statement} {h : Headed} {w v : List Char}
      (hfetch : FileStore.fetch m (importPath p s.target) = .ok h.source)
      (hinner : Unfolds m (importPath p s.target) h.statements w) (hrest : Unfolds m p ss v) :
      Unfolds m p (s :: ss) (w ++ h.body ++ v)

/-- **The full text of a file.** -/
def FullText (m : Memory) (p : Path) (text : List Char) : Prop :=
  ∃ h : Headed, FileStore.fetch m p = .ok h.source
    ∧ ∃ w, Unfolds m p h.statements w ∧ text = w ++ h.body

/-- There is one way to replace the statements. -/
theorem Unfolds.unique {m : Memory} {p : Path} {ss : List Statement} {v w : List Char}
    (hv : Unfolds m p ss v) (hw : Unfolds m p ss w) : v = w := by
  induction hv generalizing w with
  | nil p =>
    cases hw
    rfl
  | cons hfetch _ _ ihinner ihrest =>
    cases hw with
    | cons hfetch' hinner' hrest' =>
      rw [hfetch] at hfetch'
      obtain rfl := Headed.source_injective (Except.ok.inj hfetch')
      rw [ihinner hinner', ihrest hrest']

/-- A file has one full text. -/
theorem FullText.unique {m : Memory} {p : Path} {v w : List Char} (hv : FullText m p v)
    (hw : FullText m p w) : v = w := by
  obtain ⟨h, hfetch, v, hunfolds, rfl⟩ := hv
  obtain ⟨h', hfetch', w, hunfolds', rfl⟩ := hw
  rw [hfetch] at hfetch'
  obtain rfl := Headed.source_injective (Except.ok.inj hfetch')
  rw [hunfolds.unique hunfolds']

/-! ### Where there is one

Without circles a file reaches fewer files than a file that imports it. The
number of files that can be reached is what the induction goes down on. -/

/-- The files that can be reached from a file. -/
def reach (m : Memory) (p : Path) : Set Path := {q | Relation.ReflTransGen (Imports m) p q}

/-- A file that is imported and can be read is one of the files, by its
normal path. -/
theorem finite_reach {m : Memory} {p : Path}
    (hexists : ∀ q ∈ reach m p, ∃ text, FileStore.fetch m q = .ok text) : (reach m p).Finite := by
  refine (List.finite_toSet
    (p :: m.files.map fun e => Path.ofComponents e.1.components)).subset ?_
  intro q hq
  -- import paths are normal, so the spelling of a file that is imported is known
  rcases Relation.ReflTransGen.cases_tail hq with rfl | ⟨r, -, -, -, t, -, hpath⟩
  · exact List.mem_cons_self
  · obtain ⟨text, hfetch⟩ := hexists q hq
    obtain ⟨e, he, hsame, -⟩ := Memory.exists_mem_of_fetch hfetch
    refine List.mem_cons_of_mem _ (List.mem_map.mpr ⟨e, he, ?_⟩)
    rw [Path.same_iff.mp hsame, hpath]
    exact Path.ofComponents_components_normalize _

/-- Away from cycles, an import reaches fewer files than the file that
imports it. -/
theorem ncard_reach_lt {m : Memory} {p q : Path} (hfinite : (reach m p).Finite)
    (hacyclic : ¬Relation.TransGen (Imports m) p p) (h : Imports m p q) :
    (reach m q).ncard < (reach m p).ncard := by
  refine Set.ncard_lt_ncard ⟨fun r hr => Relation.ReflTransGen.head h hr, fun hsub => ?_⟩ hfinite
  have hback : p ∈ reach m q := hsub Relation.ReflTransGen.refl
  exact hacyclic (Relation.TransGen.head' h hback)

/-- Statements whose files have a full text have one in a row. -/
theorem exists_unfolds_of_forall {m : Memory} {p : Path} {ss : List Statement}
    (h : ∀ s ∈ ss, ∃ h' : Headed, FileStore.fetch m (importPath p s.target) = .ok h'.source
      ∧ ∃ w, Unfolds m (importPath p s.target) h'.statements w) : ∃ w, Unfolds m p ss w := by
  induction ss with
  | nil => exact ⟨[], Unfolds.nil p⟩
  | cons s ss ih =>
    obtain ⟨h', hfetch, w, hw⟩ := h s List.mem_cons_self
    obtain ⟨v, hv⟩ := ih fun s' hs' => h s' (List.mem_cons_of_mem _ hs')
    exact ⟨w ++ h'.body ++ v, Unfolds.cons hfetch hw hv⟩

/-- **Files whose imports exist and form no cycle have a full text.** -/
theorem exists_unfolds {m : Memory} (hfiles : HeadedFiles m) (hclear : ClearFiles m) {p : Path}
    {h : Headed} (hfetch : FileStore.fetch m p = .ok h.source)
    (hacyclic : ∀ q ∈ reach m p, ¬Relation.TransGen (Imports m) q q)
    (hexists : ∀ q ∈ reach m p, ∃ text, FileStore.fetch m q = .ok text) :
    ∃ w, Unfolds m p h.statements w := by
  -- by the number of files that can be reached, which is smaller for each import
  induction hn : (reach m p).ncard using Nat.strong_induction_on generalizing p h with
  | _ n ih =>
    refine exists_unfolds_of_forall fun s hs => ?_
    have himports : Imports m p (importPath p s.target) := by
      refine ⟨h.source, hfetch, s.target, ?_, rfl⟩
      rw [Headed.importTargets_source (hclear.isClear hfetch)]
      exact List.mem_map_of_mem hs
    obtain ⟨text, htext⟩ := hexists _ (Relation.ReflTransGen.single himports)
    obtain ⟨h', rfl⟩ := hfiles.exists_of_fetch htext
    refine ⟨h', htext, ih _ ?_ htext (fun q hq => hacyclic q (hq.head himports))
      (fun q hq => hexists q (hq.head himports)) rfl⟩
    rw [← hn]
    exact ncard_reach_lt (finite_reach hexists) (hacyclic p Relation.ReflTransGen.refl) himports

/-! ## What inlining gives

The program does not follow files but names, and it drops a statement by its
name. The relation says just that. It is proved of the calls from the inside
to the outside, since what a call puts in the place of its statements are
the texts of the calls inside of it. -/

/-- **The statements of a file as inlining replaces them**, inside of the
statements of the enclosing targets: one of an enclosing target is dropped,
and inside of any other one its target encloses too. -/
inductive Inlines (m : Memory) : List String → Path → List Statement → List Char → Prop where
  | nil (E : List String) (p : Path) : Inlines m E p [] []
  | drop {E : List String} {p : Path} {s : Statement} {ss : List Statement} {v : List Char}
      (hmem : s.target ∈ E) (hrest : Inlines m E p ss v) : Inlines m E p (s :: ss) v
  | inline {E : List String} {p : Path} {s : Statement} {ss : List Statement} {h : Headed}
      {w v : List Char} (hmem : s.target ∉ E)
      (hfetch : FileStore.fetch m (importPath p s.target) = .ok h.source)
      (hinner : Inlines m (E ++ [s.target]) (importPath p s.target) h.statements w)
      (hrest : Inlines m E p ss v) : Inlines m E p (s :: ss) (w ++ h.body ++ v)

namespace Call

variable {m : Memory} {c : Call} {h : Headed}

/-- A call works on the stylesheet without the statements that enclose it. -/
theorem text_eq_of_headed (hsource : c.source = h.source) (hclear : h.IsClear)
    (hplain : ∀ e ∈ c.enclosing, Headed.IsPlain e) : c.text = (h.without c.enclosing).text := by
  rw [text, hsource, Headed.source, String.toList_ofList, Headed.stripAll_text hclear hplain]

/-- A call looks up the targets of what is left, each of them once. -/
theorem targets_eq_of_headed (hsource : c.source = h.source) (hclear : h.IsClear)
    (hplain : ∀ e ∈ c.enclosing, Headed.IsPlain e) :
    c.targets = (h.without c.enclosing).targets.eraseDups := by
  rw [targets, text_eq_of_headed hsource hclear hplain]
  exact congrArg _ (Headed.importTargets_source (hclear.without _))

/-- **Each part stands in the place of its statements**, and the body behind
them. -/
theorem replaced_of_headed (hsource : c.source = h.source) (hclear : h.IsClear)
    (hplain : ∀ e ∈ c.enclosing, Headed.IsPlain e) {g : String → String}
    (hsealed : ∀ t ∈ (h.without c.enclosing).targets, Sealed (g t).toList) :
    c.replaced (c.targets.map g) = String.ofList
      ((h.without c.enclosing).targets.flatMap (fun t => (g t).toList) ++ h.body) := by
  have hclear' := hclear.without c.enclosing
  have htargets := targets_eq_of_headed hsource hclear hplain
  have hall : ∀ t ∈ c.targets, t ∈ (h.without c.enclosing).targets := by
    intro t ht
    rw [htargets] at ht
    exact List.mem_eraseDups.mp ht
  have hzip : c.targets.zip (c.targets.map g) = c.targets.map fun t => (t, g t) := by
    rw [List.map_prod_left_eq_zip]
  have hpairs : ∀ e ∈ c.targets.map (fun t => (t, g t)), ∃ t ∈ c.targets, (t, g t) = e :=
    fun e he => List.mem_map.mp he
  rw [replaced, hzip, text_eq_of_headed hsource hclear hplain, Headed.text, ← Headed.fill_none,
    Headed.foldl_replaceAll hclear' (h.without c.enclosing).body_sealed _ ?_ ?_
      Headed.sealedParts_none]
  · refine congrArg (fun cs => String.ofList (cs ++ h.body)) ?_
    rw [Headed.fill, Headed.targets, List.flatMap_map]
    refine List.flatMap_congr fun s hs => ?_
    have hmem : s.target ∈ c.targets := by
      rw [htargets, List.mem_eraseDups]
      exact List.mem_map_of_mem hs
    rw [Option.none_or, Headed.lookup_map_pair, if_pos hmem]
    rfl
  · intro e he
    obtain ⟨t, ht, rfl⟩ := hpairs e he
    exact Headed.isPlain_of_mem_targets (hall t ht)
  · intro e he
    obtain ⟨t, ht, rfl⟩ := hpairs e he
    exact hsealed t (hall t ht)

/-- **A call for a stylesheet with its imports at the head** whose parts are
all there. -/
theorem result_of_headed (hsource : c.source = h.source) (hclear : h.IsClear)
    (hplain : ∀ e ∈ c.enclosing, Headed.IsPlain e) {bound : Nat} {g : String → String}
    (hparts : ∀ t ∈ (h.without c.enclosing).targets,
      part m bound c t = .ok (g t) ∧ Sealed (g t).toList) :
    result m (bound + 1) c = .ok (String.ofList
      ((h.without c.enclosing).targets.flatMap (fun t => (g t).toList) ++ h.body)) := by
  have hall : ∀ t ∈ c.targets, part m bound c t = .ok (g t) := by
    intro t ht
    rw [targets_eq_of_headed hsource hclear hplain, List.mem_eraseDups] at ht
    exact (hparts t ht).1
  rw [result_succ, Except.mapM_eq_map hall]
  show Except.ok (c.replaced (c.targets.map g)) = _
  rw [replaced_of_headed hsource hclear hplain fun t ht => (hparts t ht).2]

end Call

/-- What a call with some statements around it puts in the place of a
target. -/
def Answers (m : Memory) (E : List String) (p : Path) (t : String) (w : List Char) : Prop :=
  Sealed w ∧ ∃ bound, Call.part m bound ⟨E, p, ""⟩ t = .ok (String.ofList w)

namespace Answers

variable {m : Memory} {E : List String} {p : Path} {t : String} {w : List Char}

/-- There is at most one such text. -/
theorem unique {w' : List Char} (h : Answers m E p t w) (h' : Answers m E p t w') : w = w' := by
  obtain ⟨-, bound, hpart⟩ := h
  obtain ⟨-, bound', hpart'⟩ := h'
  have hmax := Call.part_le hpart (Nat.le_max_left bound bound')
  rw [Call.part_le hpart' (Nat.le_max_right bound bound')] at hmax
  exact (String.ofList_injective (Except.ok.inj hmax)).symm

/-- The text that the manual concatenation asks for is the result of the
call for the file that the target names. -/
theorem of_result {text : String} (hsealed : Sealed w)
    (hfetch : FileStore.fetch m (importPath p t) = .ok text) {bound : Nat}
    (hresult : Call.result m bound ⟨E ++ [t], importPath p t, text⟩ = .ok (String.ofList w)) :
    Answers m E p t w := by
  refine ⟨hsealed, bound, ?_⟩
  have hpath : FileStore.fetch m ((⟨E, p, ""⟩ : Call).path t) = .ok text := hfetch
  rw [Call.part_eq_of_fetch hpath]
  exact hresult

/-- The answers to several statements, as a function of their targets and
with one bound. -/
theorem exists_function {ss : List Statement} {ws : List (List Char)}
    (h : List.Forall₂ (fun s w => Answers m E p s.target w) ss ws) :
    ∃ (bound : Nat) (g : String → String), ws = ss.map (fun s => (g s.target).toList)
      ∧ ∀ s ∈ ss, Call.part m bound ⟨E, p, ""⟩ s.target = .ok (g s.target)
        ∧ Sealed (g s.target).toList := by
  classical
  -- statements of one target have one answer, so it can be chosen by the target
  let g : String → String := fun t =>
    if h : ∃ w, Answers m E p t w then String.ofList h.choose else ""
  have hg : ∀ {t w}, Answers m E p t w → g t = String.ofList w := by
    intro t w hw
    have hsome : ∃ w, Answers m E p t w := ⟨w, hw⟩
    rw [show g t = String.ofList hsome.choose from dif_pos hsome,
      hsome.choose_spec.unique hw]
  suffices h : ∃ bound, ws = ss.map (fun s => (g s.target).toList)
      ∧ ∀ s ∈ ss, Call.part m bound ⟨E, p, ""⟩ s.target = .ok (g s.target)
        ∧ Sealed (g s.target).toList by
    obtain ⟨bound, h⟩ := h
    exact ⟨bound, g, h⟩
  induction h with
  | nil => exact ⟨0, rfl, by simp⟩
  | @cons s w ss ws hs _ ih =>
    obtain ⟨bound, rfl, hparts⟩ := ih
    have hgs := hg hs
    obtain ⟨hsealed, bound', hpart⟩ := hs
    refine ⟨max bound bound', ?_, ?_⟩
    · rw [List.map_cons, hgs, String.toList_ofList]
    · intro s' hs'
      rcases List.mem_cons.mp hs' with rfl | hs'
      · rw [hgs, String.toList_ofList]
        exact ⟨Call.part_le hpart (Nat.le_max_right _ _), hsealed⟩
      · exact ⟨Call.part_le (hparts s' hs').1 (Nat.le_max_left _ _), (hparts s' hs').2⟩

/-- Answers in a row are sealed. -/
theorem sealed_flatten {ss : List Statement} {ws : List (List Char)}
    (h : List.Forall₂ (fun s w => Answers m E p s.target w) ss ws) : Sealed ws.flatten := by
  induction h with
  | nil => exact Sealed.nil
  | cons hs _ ih =>
    rw [List.flatten_cons]
    exact hs.1.append ih

end Answers

/-- A call for a stylesheet whose statements are answered is answered. -/
theorem Call.exists_result_of_answers {m : Memory} {c : Call} {h : Headed}
    (hsource : c.source = h.source) (hclear : h.IsClear)
    (hplain : ∀ e ∈ c.enclosing, Headed.IsPlain e) {ws : List (List Char)}
    (hanswers : List.Forall₂ (fun s w => Answers m c.enclosing c.origin s.target w)
      (h.without c.enclosing).statements ws) :
    ∃ bound, result m bound c = .ok (String.ofList (ws.flatten ++ h.body)) := by
  obtain ⟨bound, g, rfl, hparts⟩ := Answers.exists_function hanswers
  have htargets : ∀ t ∈ (h.without c.enclosing).targets,
      part m bound c t = .ok (g t) ∧ Sealed (g t).toList := by
    intro t ht
    obtain ⟨s, hs, rfl⟩ := List.mem_map.mp ht
    exact hparts s hs
  refine ⟨bound + 1, ?_⟩
  rw [result_of_headed hsource hclear hplain htargets, Headed.targets, List.flatMap_map]
  rfl

/-- **What inlining gives is what the calls answer.** -/
theorem Inlines.exists_answers {m : Memory} (hclear : ClearFiles m) {E : List String} {p : Path}
    {ss : List Statement} {v : List Char} (hinlines : Inlines m E p ss v)
    (hplain : ∀ e ∈ E, Headed.IsPlain e) :
    ∃ ws : List (List Char), v = ws.flatten
      ∧ List.Forall₂ (fun s w => Answers m E p s.target w)
          (ss.filter fun s => s.target ∉ E) ws := by
  induction hinlines with
  | nil E p => exact ⟨[], rfl, List.Forall₂.nil⟩
  | @drop E p s ss v hmem _ ih =>
    rw [List.filter_cons_of_neg (by simp [hmem])]
    exact ih hplain
  | @inline E p s ss h w v hmem hfetch _ _ ihinner ihrest =>
    have hplain' := Headed.isPlain_append hplain s
    obtain ⟨ws, rfl, hinner⟩ := ihinner hplain'
    obtain ⟨vs, rfl, hrest⟩ := ihrest hplain
    obtain ⟨bound, hresult⟩ := Call.exists_result_of_answers
      (c := ⟨E ++ [s.target], importPath p s.target, h.source⟩) rfl (hclear.isClear hfetch)
      hplain' hinner
    have hanswer : Answers m E p s.target (ws.flatten ++ h.body) :=
      Answers.of_result ((Answers.sealed_flatten hinner).append h.body_sealed) hfetch hresult
    refine ⟨(ws.flatten ++ h.body) :: vs, rfl, ?_⟩
    rw [List.filter_cons_of_pos (by simpa using hmem)]
    exact List.Forall₂.cons hanswer hrest

/-- **Inlining a stylesheet with its imports at the head.** -/
theorem Inlines.inlineImports_eq {m : Memory} (hclear : ClearFiles m) {origin : Path} {h : Headed}
    (hsource : h.IsClear) {v : List Char} (hinlines : Inlines m [] origin h.statements v) :
    inlineImports m origin h.source = .ok (String.ofList (v ++ h.body)) := by
  obtain ⟨ws, rfl, hanswers⟩ := hinlines.exists_answers hclear (by simp)
  obtain ⟨bound, hresult⟩ := Call.exists_result_of_answers (c := ⟨[], origin, h.source⟩) rfl
    hsource (by simp) hanswers
  exact Call.inlineImports_eq_of_result hresult (Endless.not_ok _)

/-! ## The comparison

The text that inlining gives is never longer than the full text, for it
leaves out some parts and adds none. So the two are the same only if all
their parts are, and that is what makes the comparison exact: nothing that
was lost can be made up for elsewhere. -/

/-- **What a call drops is nothing**: each import that it does not look up,
because a statement of that target stands around it, names a file whose full
text is empty. -/
def Call.DropsNothing (m : Memory) (c : Call) : Prop :=
  ∀ t ∈ importTargets c.source, t ∈ c.enclosing → FullText m (c.path t) []

/-- The same of some statements of a file, and of all calls below them. -/
def Lossless (m : Memory) (E : List String) (p : Path) (ss : List Statement) : Prop :=
  ∀ s ∈ ss, (s.target ∈ E → FullText m (importPath p s.target) [])
    ∧ (s.target ∉ E → ∀ text, FileStore.fetch m (importPath p s.target) = .ok text →
      ∀ c, Relation.ReflTransGen (Call.Makes m)
        ⟨E ++ [s.target], importPath p s.target, text⟩ c → c.DropsNothing m)

/-- What a file loses is lost in a call below it. -/
theorem lossless_iff {m : Memory} {E : List String} {p : Path} {h : Headed} (hclear : h.IsClear)
    (hplain : ∀ e ∈ E, Headed.IsPlain e) :
    Lossless m E p h.statements
      ↔ ∀ c, Relation.ReflTransGen (Call.Makes m) ⟨E, p, h.source⟩ c → c.DropsNothing m := by
  have htargets := Call.targets_eq_of_headed (c := ⟨E, p, h.source⟩) rfl hclear hplain
  have hmem : ∀ {t}, t ∈ (⟨E, p, h.source⟩ : Call).targets ↔ t ∈ h.targets ∧ t ∉ E := by
    intro t
    rw [htargets, List.mem_eraseDups, Headed.mem_targets_without]
  constructor
  · intro hlossless c hreach
    rcases Relation.ReflTransGen.cases_head hreach with
      rfl | ⟨d, ⟨t, ht, imported, hfetch, rfl⟩, hreach⟩
    · intro t ht hE
      rw [Headed.importTargets_source hclear] at ht
      obtain ⟨s, hs, rfl⟩ := List.mem_map.mp ht
      exact (hlossless s hs).1 hE
    · obtain ⟨ht, hE⟩ := hmem.mp ht
      obtain ⟨s, hs, rfl⟩ := List.mem_map.mp ht
      exact (hlossless s hs).2 hE imported hfetch c hreach
  · intro hall s hs
    have hst : s.target ∈ h.targets := List.mem_map_of_mem hs
    refine ⟨fun hE => ?_, fun hE text hfetch c hreach => ?_⟩
    · refine hall _ Relation.ReflTransGen.refl s.target ?_ hE
      rw [Headed.importTargets_source hclear]
      exact hst
    · exact hall c (Relation.ReflTransGen.head ⟨s.target, hmem.mpr ⟨hst, hE⟩, text, hfetch, rfl⟩
        hreach)

/-- Statements in a row lose what each of them loses. -/
theorem lossless_cons {m : Memory} {E : List String} {p : Path} {s : Statement}
    {ss : List Statement} : Lossless m E p (s :: ss) ↔ Lossless m E p [s] ∧ Lossless m E p ss := by
  simp [Lossless]

/-- Dropping a statement loses nothing when the file it names has no text. -/
theorem lossless_of_mem {m : Memory} {E : List String} {p : Path} {s : Statement}
    {text : List Char} (hmem : s.target ∈ E) (hfull : FullText m (importPath p s.target) text) :
    Lossless m E p [s] ↔ text = [] := by
  rw [Lossless, List.forall_mem_singleton]
  constructor
  · exact fun hs => hfull.unique (hs.1 hmem)
  · rintro rfl
    exact ⟨fun _ => hfull, fun hnot => absurd hmem hnot⟩

/-- Following a statement loses what is lost inside of the file that it
names. -/
theorem lossless_of_notMem {m : Memory} {E : List String} {p : Path} {s : Statement} {h : Headed}
    (hnot : s.target ∉ E) (hfetch : FileStore.fetch m (importPath p s.target) = .ok h.source)
    (hclear : h.IsClear) (hplain : ∀ e ∈ E ++ [s.target], Headed.IsPlain e) :
    Lossless m E p [s]
      ↔ Lossless m (E ++ [s.target]) (importPath p s.target) h.statements := by
  rw [lossless_iff hclear hplain, Lossless, List.forall_mem_singleton]
  refine ⟨fun hs => hs.2 hnot _ hfetch, fun hall => ⟨fun hmem => absurd hmem hnot, ?_⟩⟩
  intro _ text htext c hreach
  rw [hfetch] at htext
  cases htext
  exact hall c hreach

/-- Two texts in a row are the same when their parts are, if neither part
can be longer. -/
theorem append_eq_iff_of_length_le {as as' bs bs' cs : List Char} (ha : as.length ≤ as'.length)
    (hb : bs.length ≤ bs'.length) : as ++ cs ++ bs = as' ++ cs ++ bs' ↔ as = as' ∧ bs = bs' := by
  constructor
  · intro heq
    have hlengths := congrArg List.length heq
    simp only [List.length_append] at hlengths
    obtain ⟨hfront, hback⟩ := List.append_inj' heq (by omega)
    exact ⟨(List.append_inj' hfront rfl).1, hback⟩
  · rintro ⟨rfl, rfl⟩
    rfl

/-- **Inlining gives a part of the full text**, and all of it exactly when
nothing is dropped. -/
theorem Unfolds.exists_inlines {m : Memory} (hclear : ClearFiles m) {p : Path}
    {ss : List Statement} {w : List Char} (hunfolds : Unfolds m p ss w) {E : List String}
    (hplain : ∀ e ∈ E, Headed.IsPlain e) :
    ∃ v, Inlines m E p ss v ∧ v.length ≤ w.length ∧ (v = w ↔ Lossless m E p ss) := by
  -- the lengths are carried along: a text that lost something is shorter, so what is lost
  -- in front cannot be made up for behind
  induction hunfolds generalizing E with
  | nil p => exact ⟨[], Inlines.nil E p, le_refl _, by simp [Lossless]⟩
  | @cons p s ss h w v hfetch hinner _ ihinner ihrest =>
    obtain ⟨v', hv', hlength, hiff⟩ := ihrest hplain
    rw [lossless_cons, ← hiff]
    by_cases hmem : s.target ∈ E
    · have hsplit := @append_eq_iff_of_length_le [] (w ++ h.body) v' v [] (Nat.zero_le _) hlength
      refine ⟨v', Inlines.drop hmem hv', ?_, ?_⟩
      · rw [List.length_append]
        omega
      · rw [lossless_of_mem hmem ⟨h, hfetch, w, hinner, rfl⟩]
        simpa [eq_comm] using hsplit
    · have hplain' := Headed.isPlain_append hplain s
      obtain ⟨w', hw', hlength', hiff'⟩ := ihinner hplain'
      refine ⟨w' ++ h.body ++ v', Inlines.inline hmem hfetch hw' hv', ?_, ?_⟩
      · simp only [List.length_append]
        omega
      · rw [lossless_of_notMem hmem hfetch (hclear.isClear hfetch) hplain', ← hiff']
        exact append_eq_iff_of_length_le hlength' hlength

/-! ## Layers of files

For a list of files it can be evaluated that imports go from left to right
only. Then there are no circles, and no file is missing. -/

/-- Whether each file of a list can be read and imports only later ones. -/
def isLayered (m : Memory) : List Path → Bool
  | [] => true
  | p :: ps => (match FileStore.fetch m p with
      | .ok text => (importTargets text).all fun t => decide (importPath p t ∈ ps)
      | .error _ => false) && isLayered m ps

/-- The first file of some layers can be read, and imports files of the
others. -/
theorem isLayered_cons {m : Memory} {p : Path} {ps : List Path}
    (h : isLayered m (p :: ps) = true) :
    (∃ text, FileStore.fetch m p = .ok text) ∧ (∀ q, Imports m p q → q ∈ ps)
      ∧ isLayered m ps = true := by
  obtain ⟨hp, hps⟩ := (Bool.and_eq_true _ _).mp h
  cases hfetch : FileStore.fetch m p with
  | error e =>
    rw [hfetch] at hp
    cases hp
  | ok text =>
    rw [hfetch] at hp
    refine ⟨⟨text, rfl⟩, fun q ⟨text', hfetch', t, ht, hq⟩ => ?_, hps⟩
    rw [hfetch] at hfetch'
    cases hfetch'
    rw [hq]
    exact of_decide_eq_true (List.all_eq_true.mp hp t ht)

/-- **In layers of files** all imports exist, and none leads back. -/
theorem reach_of_isLayered {m : Memory} {ps : List Path} (h : isLayered m ps = true) {p : Path}
    (hp : p ∈ ps) : ∀ q ∈ reach m p, q ∈ ps ∧ (∃ text, FileStore.fetch m q = .ok text)
      ∧ ¬Relation.TransGen (Imports m) q q := by
  induction ps generalizing p with
  | nil => cases hp
  | cons r ps ih =>
    obtain ⟨hread, hbelow, hps⟩ := isLayered_cons h
    intro q hq
    rcases Relation.ReflTransGen.cases_head hq with rfl | ⟨q', himports, hq'⟩
    · rcases List.mem_cons.mp hp with rfl | hp
      · -- a cycle through the first file would lead back to it from a later one
        refine ⟨List.mem_cons_self, hread, fun hcycle => ?_⟩
        obtain ⟨q', himports, hback⟩ := Relation.TransGen.head'_iff.mp hcycle
        exact (ih hps (hbelow q' himports) p hback).2.2 hcycle
      · obtain ⟨hmem, hrest⟩ := ih hps hp p Relation.ReflTransGen.refl
        exact ⟨List.mem_cons_of_mem _ hmem, hrest⟩
    · have hq'mem : q' ∈ ps := by
        rcases List.mem_cons.mp hp with rfl | hp
        · exact hbelow q' himports
        · exact (ih hps hp q' (Relation.ReflTransGen.single himports)).1
      obtain ⟨hmem, hrest⟩ := ih hps hq'mem q hq'
      exact ⟨List.mem_cons_of_mem _ hmem, hrest⟩

/-! ## Stylesheets in memory

The files of the examples are given as stylesheets, so that it need not be
proved of their texts that they are some. -/

/-- The files of some stylesheets. -/
def ofSheets (files : List (Path × Headed)) : Memory :=
  .ofList (files.map fun e => (e.1, e.2.source))

/-- Each file has the source of one of the stylesheets. -/
theorem exists_of_mem_ofSheets {files : List (Path × Headed)} {e : Path × String}
    (he : e ∈ (ofSheets files).files) : ∃ d ∈ files, e.2 = d.2.source := by
  obtain ⟨d, hd, heq⟩ := Memory.exists_mem_of_mem_ofList he
  obtain ⟨f, hf, rfl⟩ := List.mem_map.mp hd
  exact ⟨f, hf, heq⟩

/-- Files that are made of stylesheets have their imports at the head. -/
theorem headedFiles_ofSheets (files : List (Path × Headed)) : HeadedFiles (ofSheets files) := by
  intro e he
  obtain ⟨d, -, heq⟩ := exists_of_mem_ofSheets he
  exact ⟨d.2, heq⟩

/-- The targets in the files are clear if those of the stylesheets are. -/
theorem clearFiles_ofSheets {files : List (Path × Headed)} (h : ∀ e ∈ files, e.2.IsClear) :
    ClearFiles (ofSheets files) := by
  intro e he h' heq
  obtain ⟨d, hd, heq'⟩ := exists_of_mem_ofSheets he
  rw [Headed.source_injective (heq.symm.trans heq')]
  exact h d hd

/-- A stylesheet of some imports and a rule with no declarations. -/
def sheetX (targets : List String) (h : ∀ t ∈ targets, IsFit t) : Headed :=
  .usual targets ".x{}" h (by decide) (by decide +kernel)

/-- A stylesheet of some imports and another such rule. -/
def sheetY (targets : List String) (h : ∀ t ∈ targets, IsFit t) : Headed :=
  .usual targets ".y{}" h (by decide) (by decide +kernel)

/-- Below `sub/x.css` another file is named `sub/x.css` too. -/
def nestedNames : Memory := ofSheets
  [(⟨"/p/a.css"⟩, sheetX ["sub/x.css"] (by decide)),
    (⟨"/p/sub/x.css"⟩, sheetX ["sub/x.css"] (by decide)),
    (⟨"/p/sub/sub/x.css"⟩, sheetY [] (by decide))]

/-- A target with a NUL, and the file that the parser takes it for. -/
def nulName : Memory := ofSheets
  [(⟨"/p/a.css"⟩, sheetX ["\x00"] (by decide)), (⟨"/p/\x00"⟩, sheetX [] (by decide)),
    (⟨"/p/\ufffd"⟩, sheetY [] (by decide))]

/-- A target that ends in the keyword and a blank. -/
def openName : Memory := ofSheets
  [(⟨"/p/a.css"⟩, sheetX [";@import ", "foo@import ", ";x"] (by decide)),
    (⟨"/p/;@import "⟩, sheetX [] (by decide)), (⟨"/p/foo@import "⟩, sheetY [] (by decide)),
    (⟨"/p/;x"⟩, sheetY [] (by decide))]

/-- A statement with white space behind the keyword that is none to the
parser. -/
def wideGap : Memory :=
  .ofList [(⟨"/p/a.css"⟩, "@import\u00a0\"x.css\";.a{}"), (⟨"/p/x.css"⟩, ".x{}")]

/-- The three files have their imports at the head. -/
theorem headedFiles_nestedNames : HeadedFiles nestedNames := by
  rw [nestedNames]
  exact headedFiles_ofSheets _

/-- The targets of the three files are clear. -/
theorem clearFiles_nestedNames : ClearFiles nestedNames := by
  have himport : (sheetX ["sub/x.css"] (by decide)).IsClear := by
    intro s hs
    rw [List.mem_singleton.mp hs]
    exact Statement.isClear_of_notMem (by decide) (by decide)
  rw [nestedNames]
  refine clearFiles_ofSheets ?_
  simp only [List.forall_mem_cons]
  exact ⟨himport, himport, fun s hs => absurd hs List.not_mem_nil, by simp⟩

/-- None of the three files imports an earlier one. -/
theorem isLayered_nestedNames :
    isLayered nestedNames [⟨"/p/a.css"⟩, ⟨"/p/sub/x.css"⟩, ⟨"/p/sub/sub/x.css"⟩] = true := by
  decide +kernel

/-- The first of them can be read. -/
theorem fetch_nestedNames : FileStore.fetch nestedNames ⟨"/p/a.css"⟩
    = .ok (sheetX ["sub/x.css"] (by decide)).source :=
  Memory.fetch_of_get? (by decide +kernel) (by decide +kernel)

/-! ## Inlining and concatenation

What can be said of all files without circles. The question whether the two
texts agree is put to the calls, one by one: does it drop an import, and is
there something in the file that this import names? -/

/-- **Inlining against manual concatenation.** Take files with their imports
at the head, with clear targets, and a file from which the imports all exist
and form no cycle. Then it has a full text, inlining it succeeds, and the
two are the same text exactly when each of the imports that are dropped on
the way names a file whose full text is empty.

A statement is dropped when its text is that of a statement around it, even
where it names another file, because targets are compared as they are
written and not as the files they lead to. There are no cycles, so the
recursion is on the files below, and it is the lists of the enclosing
targets that have to be carried along. -/
theorem inlineImports_eq_concatenation {m : Memory} (hfiles : HeadedFiles m)
    (hclear : ClearFiles m) {origin : Path} {source : String}
    (hfetch : FileStore.fetch m origin = .ok source)
    (hacyclic : ∀ q ∈ reach m origin, ¬Relation.TransGen (Imports m) q q)
    (hexists : ∀ q ∈ reach m origin, ∃ text, FileStore.fetch m q = .ok text) :
    ∃ inlined full, inlineImports m origin source = .ok (String.ofList inlined)
      ∧ FullText m origin full
      ∧ (inlined = full ↔ ∀ c, Relation.ReflTransGen (Call.Makes m) ⟨[], origin, source⟩ c →
          c.DropsNothing m) := by
  obtain ⟨h, rfl⟩ := hfiles.exists_of_fetch hfetch
  have hsource : h.IsClear := hclear.isClear hfetch
  obtain ⟨w, hunfolds⟩ := exists_unfolds hfiles hclear hfetch hacyclic hexists
  obtain ⟨v, hinlines, -, hiff⟩ := hunfolds.exists_inlines hclear (E := []) (by simp)
  refine ⟨v ++ h.body, w ++ h.body, hinlines.inlineImports_eq hclear hsource,
    ⟨h, hfetch, w, hunfolds, rfl⟩, ?_⟩
  rw [← lossless_iff hsource (by simp), ← hiff, List.append_cancel_right_eq]

/-- The three files of one name: the text that is given is the full one if
nothing is dropped. -/
theorem inlineImports_eq_concatenation_of_nested :
    ∃ inlined full, inlineImports nestedNames ⟨"/p/a.css"⟩
          (sheetX ["sub/x.css"] (by decide)).source = .ok (String.ofList inlined)
      ∧ FullText nestedNames ⟨"/p/a.css"⟩ full
      ∧ (inlined = full ↔ ∀ c, Relation.ReflTransGen (Call.Makes nestedNames)
          ⟨[], ⟨"/p/a.css"⟩, (sheetX ["sub/x.css"] (by decide)).source⟩ c →
            c.DropsNothing nestedNames) := by
  have hreach := reach_of_isLayered isLayered_nestedNames List.mem_cons_self
  exact inlineImports_eq_concatenation headedFiles_nestedNames clearFiles_nestedNames
    fetch_nestedNames (fun q hq => (hreach q hq).2.2) (fun q hq => (hreach q hq).2.1)

/-- **Inlining a file does not give its full text**, although its imports
all exist and form no cycle. -/
def Misread (m : Memory) (origin : Path) : Prop :=
  (∀ q ∈ reach m origin, ¬Relation.TransGen (Imports m) q q)
    ∧ (∀ q ∈ reach m origin, ∃ text, FileStore.fetch m q = .ok text)
    ∧ ∃ source full, FileStore.fetch m origin = .ok source ∧ FullText m origin full
      ∧ inlineImports m origin source ≠ .ok (String.ofList full)

/-- In layers of files only the two texts need be compared. -/
theorem misread_of {m : Memory} {origin : Path} {ps : List Path} {h : Headed} {w : List Char}
    (hlayered : isLayered m (origin :: ps) = true)
    (hfetch : FileStore.fetch m origin = .ok h.source) (hunfolds : Unfolds m origin h.statements w)
    (hne : (inlineImports m origin h.source).toOption ≠ some (String.ofList (w ++ h.body))) :
    Misread m origin := by
  have hreach := reach_of_isLayered hlayered List.mem_cons_self
  refine ⟨fun q hq => (hreach q hq).2.2, fun q hq => (hreach q hq).2.1, h.source, w ++ h.body,
    hfetch, ⟨h, hfetch, w, hunfolds, rfl⟩, fun heq => hne ?_⟩
  rw [heq]
  rfl

/-- The rule of the third file is lost. -/
theorem misread_nestedNames : Misread nestedNames ⟨"/p/a.css"⟩ := by
  have hinner : Unfolds nestedNames ⟨"/p/sub/x.css"⟩
      (sheetX ["sub/x.css"] (by decide)).statements ".y{}".toList :=
    .cons (h := sheetY [] (by decide))
      (Memory.fetch_of_get? (by decide +kernel) (by decide +kernel)) (.nil _) (.nil _)
  have houter : Unfolds nestedNames ⟨"/p/a.css"⟩
      (sheetX ["sub/x.css"] (by decide)).statements (".y{}".toList ++ ".x{}".toList ++ []) :=
    .cons (h := sheetX ["sub/x.css"] (by decide))
      (Memory.fetch_of_get? (by decide +kernel) (by decide +kernel)) hinner (.nil _)
  exact misread_of isLayered_nestedNames fetch_nestedNames houter (by decide +kernel)

/-- The wrong file is put in, since the parser has another character for the
NUL. -/
theorem misread_nulName : Misread nulName ⟨"/p/a.css"⟩ := by
  -- the parser reads the other file, so that is the one that has to be there
  have hlayered : isLayered nulName [⟨"/p/a.css"⟩, ⟨"/p/\ufffd"⟩] = true := by decide +kernel
  exact misread_of (h := sheetX ["\x00"] (by decide)) (w := ".x{}".toList) hlayered
    (Memory.fetch_of_get? (by decide +kernel) (by decide +kernel))
    (.cons (h := sheetX [] (by decide))
      (Memory.fetch_of_get? (by decide +kernel) (by decide +kernel)) (.nil _) (.nil _))
    (by decide +kernel)

/-- A statement is found that is none. -/
theorem misread_openName : Misread openName ⟨"/p/a.css"⟩ := by
  have hlayered : isLayered openName
      [⟨"/p/a.css"⟩, ⟨"/p/;@import "⟩, ⟨"/p/foo@import "⟩, ⟨"/p/;x"⟩] = true := by
    decide +kernel
  exact misread_of (h := sheetX [";@import ", "foo@import ", ";x"] (by decide))
    (w := ".x{}.y{}.y{}".toList) hlayered
    (Memory.fetch_of_get? (by decide +kernel) (by decide +kernel))
    (.cons (h := sheetX [] (by decide))
      (Memory.fetch_of_get? (by decide +kernel) (by decide +kernel)) (.nil _)
      (.cons (h := sheetY [] (by decide))
        (Memory.fetch_of_get? (by decide +kernel) (by decide +kernel)) (.nil _)
        (.cons (h := sheetY [] (by decide))
          (Memory.fetch_of_get? (by decide +kernel) (by decide +kernel)) (.nil _) (.nil _))))
    (by decide +kernel)

/-- **Inlining is not always manual concatenation**: not where two files
below each other are named alike, not where a target is not clear, and not
where the parser does not take white space for such. -/
theorem inlineImports_ne_concatenation :
    (HeadedFiles nestedNames ∧ ClearFiles nestedNames ∧ Misread nestedNames ⟨"/p/a.css"⟩)
      ∧ (HeadedFiles nulName ∧ Misread nulName ⟨"/p/a.css"⟩)
      ∧ (HeadedFiles openName ∧ Misread openName ⟨"/p/a.css"⟩)
      ∧ inlineImports wideGap ⟨"/p/a.css"⟩ "@import\u00a0\"x.css\";.a{}"
        = .ok "@import\u00a0\"x.css\";.a{}" := by
  have hnul : HeadedFiles nulName := by
    rw [nulName]
    exact headedFiles_ofSheets _
  have hopen : HeadedFiles openName := by
    rw [openName]
    exact headedFiles_ofSheets _
  have hwide : inlineImports wideGap ⟨"/p/a.css"⟩ "@import\u00a0\"x.css\";.a{}"
      = .ok "@import\u00a0\"x.css\";.a{}" := Except.eq_ok_of_toOption (by decide +kernel)
  exact ⟨⟨headedFiles_nestedNames, clearFiles_nestedNames, misread_nestedNames⟩,
    ⟨hnul, misread_nulName⟩, ⟨hopen, misread_openName⟩, hwide⟩

end Stylebook
