import Mathlib.Data.List.Sublists
import Mathlib.Data.Set.Card
import Stylebook.Proofs.Import.Adequacy
import Stylebook.Proofs.Import.Replacement

/-!
# Cycles of imports come to an end

No call of the inlining knows which files were read above it. What ends a
cycle is that the statements of the enclosing targets are taken out of every
text before its imports are looked up. A text for which that works is
*guarded*: whatever targets are taken out of it, none of them is reported
afterwards.

In guarded texts a target never stands inside of itself. So the targets
around a call are different ones, and there are only finitely many of them:
each was reported for what taking out statements can leave of some text,
which is a part of that text. Their number bounds the depth of the calls,
whatever cycles the imports form.
-/

namespace Stylebook

open Import

/-- **A text without back references**: of the targets that are taken out of
it, none is reported afterwards. -/
def Guarded (source : String) : Prop :=
  ∀ E : List String, ∀ t ∈ E, t ∉ importTargets (String.ofList (stripAll E source.toList))

/-- **The targets that can be reported** for a text or for one of the files,
when any statements are taken out of it. -/
def reportable (m : Memory) (source : String) : Set String :=
  {t | ∃ s ∈ source :: m.files.map Prod.snd, ∃ E : List String,
    t ∈ importTargets (String.ofList (stripAll E s.toList))}

/-- A text has finitely many parts, and each reports finitely many targets. -/
theorem finite_reportable (m : Memory) (source : String) : (reportable m source).Finite := by
  refine (List.finite_toSet ((source :: m.files.map Prod.snd).flatMap fun s =>
    s.toList.sublists.flatMap fun part => importTargets (String.ofList part))).subset ?_
  rintro t ⟨s, hs, E, ht⟩
  refine List.mem_flatMap.mpr ⟨s, hs, List.mem_flatMap.mpr ⟨stripAll E s.toList, ?_, ht⟩⟩
  exact List.mem_sublists.mpr (stripAll_sublist E s.toList)

namespace Call

variable {m : Memory} {c d : Call} {source : String}

/-! ## The targets around a call

The bound is found by counting names. In a chain of calls each has one
target more around it than the one before. Being guarded makes it a new one.
And all that may ever be reported is reported for a part of one of finitely
many texts. -/

/-- What holds of each call below the outermost one: its source is one of
the texts, and the targets around it are different ones that can be
reported. It is the invariant of a chain of calls. -/
structure IsBelow (m : Memory) (source : String) (c : Call) : Prop where
  source_mem : c.source ∈ source :: m.files.map Prod.snd
  nodup : c.enclosing.Nodup
  reportable : ∀ t ∈ c.enclosing, t ∈ reportable m source

/-- One call of guarded texts makes another with one more target around it. -/
theorem IsBelow.makes (hguarded : ∀ s ∈ source :: m.files.map Prod.snd, Guarded s)
    (hc : IsBelow m source c) (h : Makes m c d) : IsBelow m source d := by
  obtain ⟨t, ht, imported, hfetch, rfl⟩ := h
  have hreported : t ∈ importTargets (String.ofList c.text) := List.mem_eraseDups.mp ht
  have hnew : t ∉ c.enclosing := fun hmem =>
    hguarded c.source hc.source_mem c.enclosing t hmem hreported
  obtain ⟨e, he, -, rfl⟩ := Memory.exists_mem_of_fetch hfetch
  refine ⟨List.mem_cons_of_mem _ (List.mem_map_of_mem he), ?_, fun u hu => ?_⟩
  · exact List.nodup_append.mpr ⟨hc.nodup, List.nodup_singleton t, fun u hu v hv => by
      rw [List.mem_singleton.mp hv]
      exact fun heq => hnew (heq ▸ hu)⟩
  · rcases List.mem_append.mp hu with hu | hu
    · exact hc.reportable u hu
    · rw [List.mem_singleton.mp hu]
      exact ⟨c.source, hc.source_mem, c.enclosing, hreported⟩

/-- So it is for the calls further down. -/
theorem isBelow_of_makes (hguarded : ∀ s ∈ source :: m.files.map Prod.snd, Guarded s)
    {origin : Path} (h : Relation.ReflTransGen (Makes m) ⟨[], origin, source⟩ c) :
    IsBelow m source c := by
  induction h with
  | refl => exact ⟨List.mem_cons_self, List.nodup_nil, by simp⟩
  | tail _ hmakes ih => exact ih.makes hguarded hmakes

/-- As many targets stand around a call as there are to report, at most. -/
theorem IsBelow.depth_le (h : IsBelow m source c) :
    c.depth ≤ (Stylebook.reportable m source).ncard := by
  have hsub : (c.enclosing.toFinset : Set String) ⊆ Stylebook.reportable m source := by
    intro t ht
    exact h.reportable t (List.mem_toFinset.mp ht)
  have hcard := Set.ncard_le_ncard hsub (finite_reportable m source)
  rwa [Set.ncard_coe_finset, List.toFinset_card_of_nodup h.nodup] at hcard

/-! ## Depth and end

Running into a bound takes a chain of calls as long as the bound. Where
chains are shorter, no call runs into it. -/

/-- A call that runs into its bound has a call below it as deep as the
bound. -/
theorem exists_depth_eq {bound : Nat} (h : Endless (result m bound c)) :
    ∃ d, Relation.ReflTransGen (Makes m) c d ∧ d.depth = c.depth + bound := by
  induction bound generalizing c with
  | zero => exact ⟨c, Relation.ReflTransGen.refl, rfl⟩
  | succ bound ih =>
    rw [result_succ, Endless.map_iff] at h
    obtain ⟨t, ht, hpart⟩ := Except.exists_of_mapM_error h
    cases hfetch : FileStore.fetch m (c.path t) with
    | error e =>
      rw [part_eq_of_error hfetch, ← hfetch] at hpart
      exact absurd hpart (Endless.not_fetch m _)
    | ok imported =>
      rw [part_eq_of_fetch hfetch] at hpart
      obtain ⟨d, hreach, hdepth⟩ := ih hpart
      refine ⟨d, hreach.head ⟨t, ht, imported, hfetch, rfl⟩, ?_⟩
      rw [hdepth, depth, depth, inner, List.length_append, List.length_singleton]
      omega

/-- Where the depth of the calls has a bound, they come to an end. -/
theorem not_endless_of_depth_le {n bound : Nat}
    (h : ∀ d, Relation.ReflTransGen (Makes m) c d → d.depth ≤ n) (hbound : n < bound) :
    ¬Endless (result m bound c) := by
  intro hends
  obtain ⟨d, hreach, hdepth⟩ := exists_depth_eq hends
  have := h d hreach
  omega

end Call

/-! ## A text of one statement

For an example it has to be seen that a text is guarded, which is a
statement about all lists of targets. A text that is one statement is taken
out as a whole or not at all. -/

/-- At the front of a text that is one statement, its own target is found
only. -/
theorem afterStatement?_statement {t u : List Char} (hquote : '"' ∉ u) :
    afterStatement? t (keyword ++ (' ' :: '"' :: (u ++ ['"', ';'])))
      = if t = u then some [] else none := by
  have hblank : ∀ c ∈ [' '], Text.isBlank c = true := List.forall_mem_singleton.mpr (by decide)
  by_cases htu : t = u
  · rw [if_pos htu, htu]
    exact afterStatement?_eq_some.mpr ⟨[' '], '"', [], List.cons_ne_nil _ _, hblank, Or.inl rfl,
      by simp, rfl⟩
  · rw [if_neg htu]
    refine Option.eq_none_iff_forall_ne_some.mpr fun rest hrest => htu ?_
    obtain ⟨gap, quote, tail, -, hgap, hq, -, h⟩ := afterStatement?_eq_some.mp hrest
    rw [List.append_cancel_left_eq] at h
    have hblank' : ∀ c ∈ [' '], ¬Text.isBlank c = false := fun c hc => by simp [hblank c hc]
    have hcut := Text.append_cons_inj hblank' (fun c hc => by simp [hgap c hc]) (by decide)
      hq.isBlank h
    obtain ⟨-, rfl, h⟩ := hcut
    rw [List.append_cons_inj_of_notMem hquote (by decide)] at h
    exact h.1.symm

/-- A text that is one statement: taking out a target leaves nothing of it,
or all. -/
theorem strip_statement {t u : List Char} (hquote : '"' ∉ u) (hat : '@' ∉ u) :
    strip t (keyword ++ (' ' :: '"' :: (u ++ ['"', ';'])))
      = if t = u then [] else keyword ++ (' ' :: '"' :: (u ++ ['"', ';'])) := by
  have hfront := @afterStatement?_statement t u hquote
  rw [strip, replaceAll]
  by_cases htu : t = u
  · rw [if_pos htu] at hfront ⊢
    rw [replaceFrom_of_some [] hfront, replaceFrom_nil]
    rfl
  · rw [if_neg htu] at hfront ⊢
    have hsplit : keyword ++ (' ' :: '"' :: (u ++ ['"', ';']))
        = (keyword ++ (' ' :: '"' :: (u ++ ['"']))) ++ ';' :: [] := by simp
    rw [hsplit] at hfront ⊢
    rw [replaceFrom_append [] ?_ (by decide), replaceFrom_nil]
    · rfl
    intro v hv
    rcases List.suffix_cons_iff.mp hv with rfl | hv
    · exact hfront
    · -- behind the first character there is none that the keyword starts with
      refine afterStatement?_of_not_prefix fun hprefix => ?_
      have hmem : '@' ∈ v ++ [';'] := hprefix.subset (by decide)
      rcases List.mem_append.mp hmem with hmem | hmem
      · have := hv.subset hmem
        simp [hat] at this
      · simp at hmem

/-- A text that is one statement is guarded, when no other target is read in
it. -/
theorem guarded_statement {source t : String} (hquote : '"' ∉ t.toList) (hat : '@' ∉ t.toList)
    (hsource : source.toList = keyword ++ (' ' :: '"' :: (t.toList ++ ['"', ';'])))
    (htargets : importTargets source = [t]) : Guarded source := by
  intro E
  have hstrip : stripAll E source.toList = if t ∈ E then [] else source.toList := by
    rw [hsource]
    induction E with
    | nil => rfl
    | cons e E ih =>
      have hempty : stripAll E [] = [] := List.eq_nil_of_sublist_nil (stripAll_sublist E [])
      show stripAll E (strip e.toList _) = _
      rw [strip_statement hquote hat]
      by_cases he : e = t
      · rw [if_pos (congrArg String.toList he), hempty, if_pos (by simp [he])]
      · rw [if_neg (fun h => he (String.toList_inj.mp h)), ih]
        simp [Ne.symm he]
  have hnone : importTargets (String.ofList []) = [] := by decide
  intro u hu hmem
  rw [hstrip] at hmem
  split at hmem
  · rw [hnone] at hmem
    cases hmem
  · rename_i hnot
    rw [String.ofList_toList, htargets, List.mem_singleton] at hmem
    exact hnot (hmem ▸ hu)

/-- Two files that import each other. -/
def twoFileCycle : Memory :=
  .ofList [(⟨"/p/a.css"⟩, "@import \"b.css\";"), (⟨"/p/b.css"⟩, "@import \"a.css\";")]

/-! ## Inlining

Cycles are where one would expect trouble, and there is none: what the claim
of an end rests on is not that the imports have no cycle but that texts are
guarded. -/

/-- **Inlining comes to an end, whatever cycles the imports form.** Of
guarded texts, no call is deeper than there are targets to report, and a
bound beyond that never changes the answer: a text, or the import that could
not be read. The enclosing targets of a call are all different, for the text
of a guarded file does not report what was taken out of it, and each of them
was reported once. -/
theorem inlineImports_terminates (m : Memory) (hfiles : ∀ e ∈ m.files, Guarded e.2)
    (origin : Path) {source : String} (hsource : Guarded source) :
    (reportable m source).Finite
      ∧ (∀ c, Relation.ReflTransGen (Call.Makes m) ⟨[], origin, source⟩ c →
          c.depth ≤ (reportable m source).ncard)
      ∧ (∀ bound, (reportable m source).ncard < bound →
          inlineBelow m bound [] origin source = inlineImports m origin source)
      ∧ ((∃ text, inlineImports m origin source = .ok text)
        ∨ ∃ p cause, inlineImports m origin source = .error (.failed (.read p cause))) := by
  have hguarded : ∀ s ∈ source :: m.files.map Prod.snd, Guarded s := by
    intro s hs
    rcases List.mem_cons.mp hs with rfl | hs
    · exact hsource
    · obtain ⟨e, he, rfl⟩ := List.mem_map.mp hs
      exact hfiles e he
  have hdepth : ∀ c, Relation.ReflTransGen (Call.Makes m) ⟨[], origin, source⟩ c →
      c.depth ≤ (reportable m source).ncard :=
    fun c hc => (Call.isBelow_of_makes hguarded hc).depth_le
  have hends : ∀ bound, (reportable m source).ncard < bound →
      ¬Endless (Call.result m bound ⟨[], origin, source⟩) :=
    fun bound hbound => Call.not_endless_of_depth_le hdepth hbound
  have hbound : ∀ bound, (reportable m source).ncard < bound →
      inlineBelow m bound [] origin source = inlineImports m origin source :=
    fun bound h => (Call.inlineImports_eq_of_result rfl (hends bound h)).symm
  refine ⟨finite_reportable m source, hdepth, hbound, ?_⟩
  have hlast := hends _ (Nat.lt_succ_self _)
  rw [← hbound _ (Nat.lt_succ_self _)]
  rcases Call.result_cases m _ ⟨[], origin, source⟩ with hok | hread | hendless
  · exact Or.inl hok
  · exact Or.inr hread
  · exact absurd hendless hlast

/-- Inlining a third text that imports one of two files that import each
other. -/
theorem inlineImports_terminates_of_cycle :
    (∀ e ∈ twoFileCycle.files, Guarded e.2) ∧ Guarded "@import \"./a.css\";"
      ∧ (∀ bound, (reportable twoFileCycle "@import \"./a.css\";").ncard < bound →
          inlineBelow twoFileCycle bound [] ⟨"/p/c.css"⟩ "@import \"./a.css\";"
            = inlineImports twoFileCycle ⟨"/p/c.css"⟩ "@import \"./a.css\";") := by
  have hfiles : ∀ e ∈ twoFileCycle.files, Guarded e.2 := by
    intro e he
    have hm : twoFileCycle.files = [(⟨"/p/a.css"⟩, "@import \"b.css\";"),
      (⟨"/p/b.css"⟩, "@import \"a.css\";")] := by decide +kernel
    rw [hm] at he
    rcases List.mem_cons.mp he with rfl | he
    · exact guarded_statement (t := "b.css") (by decide) (by decide) (by decide)
        (by decide +kernel)
    · rw [List.mem_singleton.mp he]
      exact guarded_statement (t := "a.css") (by decide) (by decide) (by decide)
        (by decide +kernel)
  have hsource : Guarded "@import \"./a.css\";" :=
    guarded_statement (t := "./a.css") (by decide) (by decide) (by decide) (by decide +kernel)
  exact ⟨hfiles, hsource, (inlineImports_terminates twoFileCycle hfiles ⟨"/p/c.css"⟩ hsource).2.2.1⟩

end Stylebook
