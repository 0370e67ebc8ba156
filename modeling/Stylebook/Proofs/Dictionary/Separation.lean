import Mathlib.Data.List.Forall2
import Mathlib.Data.List.Perm.Basic
import Stylebook.Dictionary.Module
import Stylebook.Proofs.Css.Selector
import Stylebook.Proofs.Dictionary.Compound
import Stylebook.Proofs.Text.Words

/-!
# When selectors share a path

The path of a selector in a dictionary is made from its canonical text, and
this text is cut again at white space and at points. Where every compound is
plain, an element name at most with classes behind it, and no name has white
space or a point of its own, cutting gives back what was written. Then the
path tells a selector up to the order of the classes in its compounds
(`path_eq_iff_sameNodes`), and only an element of that name is in the way of
the reserved token.

A name can have a point or white space all the same: behind a backslash, and
white space beyond ASCII by itself. And a comment can part two names that no
character parts in the text. Then different selectors share a path
(`shared_paths`).
-/

namespace Stylebook

open Css

namespace Css

/-! ## Plain compounds

What a selector means is a matter of its parts, and its path is one of its
text. They go together as long as no part has a character at which the text
is cut. -/

/-- **A plain name**: it is not empty, and has no point and no white space. -/
def isPlainName (n : String) : Bool := n ≠ "" && n.toList.all fun c => c ≠ '.' && !Text.isBlank c

namespace SelectorPart

/-- A class with a plain name. -/
def isPlainClass : SelectorPart → Bool
  | .cls n => isPlainName n
  | _ => false

/-- **A plain compound**: an element name at most, and classes behind it. -/
def isPlainCompound : List SelectorPart → Bool
  | .element n :: ps => isPlainName n && ps.all isPlainClass
  | ps => ps.all isPlainClass

/-- **Compounds with the same nodes**, up to the order of the classes. -/
def SameNodes (c d : List SelectorPart) : Prop :=
  c.filter (!isClass ·) = d.filter (!isClass ·) ∧ (c.filter isClass).Perm (d.filter isClass)

instance (c d : List SelectorPart) : Decidable (SameNodes c d) := inferInstanceAs (Decidable (_ ∧ _))

/-- The compound of an element name, if there is one, and class names. -/
def ofNames (element : Option String) (classes : List String) : List SelectorPart :=
  element.toList.map .element ++ classes.map .cls

/-- The token of a compound: its text with the classes in order. -/
def token (c : List SelectorPart) : String := String.ofList (Chain.sortChars (c.flatMap chars))

end SelectorPart

/-- **A selector of plain compounds.** -/
def Selector.isPlain (s : Selector) : Bool := s.compounds.all SelectorPart.isPlainCompound

/-- A plain name is a word without a point. -/
theorem isPlainName_iff {n : String} : isPlainName n = true
    ↔ Text.IsWord n.toList ∧ '.' ∉ n.toList := by
  unfold isPlainName Text.IsWord
  simp only [Bool.and_eq_true, decide_eq_true_eq, List.all_eq_true, Bool.not_eq_true', ne_eq,
    String.toList_eq_nil_iff]
  constructor
  · rintro ⟨hne, hall⟩
    exact ⟨⟨hne, fun c hc => (hall c hc).2⟩, fun hpoint => (hall '.' hpoint).1 rfl⟩
  · rintro ⟨⟨hne, hblank⟩, hpoint⟩
    exact ⟨hne, fun c hc => ⟨fun heq => hpoint (heq ▸ hc), hblank c hc⟩⟩

namespace SelectorPart

variable {c d : List SelectorPart}

/-- **A plain compound is told by its names.** -/
theorem exists_names (h : isPlainCompound c = true) : ∃ element classes,
    c = ofNames element classes ∧ ∀ n ∈ element.toList ++ classes, isPlainName n = true := by
  have hclasses : ∀ ps : List SelectorPart, ps.all isPlainClass = true →
      ∃ classes : List String, ps = classes.map .cls ∧ ∀ n ∈ classes, isPlainName n = true := by
    intro ps hps
    induction ps with
    | nil => exact ⟨[], rfl, by simp⟩
    | cons p ps ih =>
      rw [List.all_cons, Bool.and_eq_true] at hps
      obtain ⟨classes, rfl, hplain⟩ := ih hps.2
      cases p with
      | cls n => exact ⟨n :: classes, rfl, List.forall_mem_cons.mpr ⟨hps.1, hplain⟩⟩
      | _ => cases hps.1
  unfold isPlainCompound at h
  split at h
  · rename_i n ps
    rw [Bool.and_eq_true] at h
    obtain ⟨classes, rfl, hplain⟩ := hclasses ps h.2
    exact ⟨some n, classes, rfl, List.forall_mem_cons.mpr ⟨h.1, hplain⟩⟩
  · obtain ⟨classes, rfl, hplain⟩ := hclasses c h
    exact ⟨none, classes, rfl, hplain⟩

section Names

variable {element element' : Option String} {classes classes' : List String}

/-- The text of such a compound is the element name with the class names
behind it. -/
theorem flatMap_chars_ofNames (element : Option String) (classes : List String) :
    (ofNames element classes).flatMap chars
      = element.toList.flatMap String.toList ++ Chain.pointed (classes.map String.toList) := by
  rw [ofNames, List.flatMap_append, List.flatMap_map, List.flatMap_map, Chain.pointed,
    List.flatMap_map]
  rfl

/-- The classes of such a compound are those of its class names. -/
theorem filter_isClass_ofNames (element : Option String) (classes : List String) :
    (ofNames element classes).filter isClass = classes.map .cls := by
  cases element <;> simp [ofNames, isClass]

/-- What is no class in such a compound is the element. -/
theorem filter_not_isClass_ofNames (element : Option String) (classes : List String) :
    (ofNames element classes).filter (!isClass ·) = element.toList.map .element := by
  cases element <;> simp [ofNames, isClass]

/-- The nodes of a compound are its element name and its class names. -/
theorem sameNodes_ofNames_iff : SameNodes (ofNames element classes) (ofNames element' classes')
    ↔ element = element' ∧ classes.Perm classes' := by
  have hcls : Function.Injective SelectorPart.cls := fun _ _ h => SelectorPart.cls.inj h
  rw [SameNodes, filter_isClass_ofNames, filter_isClass_ofNames, filter_not_isClass_ofNames,
    filter_not_isClass_ofNames, List.map_perm_map_iff hcls]
  refine and_congr_left fun _ => ⟨fun h => ?_, fun h => by rw [h]⟩
  cases element <;> cases element' <;> simp_all

/-- **A token tells a plain compound** up to the order of its classes. -/
theorem token_ofNames_inj (h : ∀ n ∈ element.toList ++ classes, isPlainName n = true)
    (h' : ∀ n ∈ element'.toList ++ classes', isPlainName n = true) :
    token (ofNames element classes) = token (ofNames element' classes')
      ↔ element = element' ∧ classes.Perm classes' := by
  have hnames : ∀ {element : Option String} {classes : List String},
      (∀ n ∈ element.toList ++ classes, isPlainName n = true) →
        '.' ∉ element.toList.flatMap String.toList
          ∧ Chain.AreNames (classes.map String.toList) := by
    intro element classes hplain
    rw [List.forall_mem_append] at hplain
    refine ⟨fun hpoint => ?_, fun cs hcs => ?_⟩
    · obtain ⟨n, hn, hpoint⟩ := List.mem_flatMap.mp hpoint
      exact (isPlainName_iff.mp (hplain.1 n hn)).2 hpoint
    · obtain ⟨n, hn, rfl⟩ := List.mem_map.mp hcs
      obtain ⟨hword, hpoint⟩ := isPlainName_iff.mp (hplain.2 n hn)
      exact ⟨hword.1, hpoint⟩
  obtain ⟨helement, hclasses⟩ := hnames h
  obtain ⟨helement', hclasses'⟩ := hnames h'
  have hstring : Function.Injective String.toList := fun _ _ h => String.toList_injective h
  rw [token, token, flatMap_chars_ofNames, flatMap_chars_ofNames, String.ofList_inj,
    Chain.sortChars_pointed_inj helement helement' hclasses hclasses',
    List.map_perm_map_iff hstring]
  refine and_congr_left fun _ => ⟨fun heq => ?_, fun heq => by rw [heq]⟩
  -- an element name is not empty, so its characters tell whether it is there
  have hne : ∀ n : String, isPlainName n = true → n.toList ≠ [] :=
    fun n hn => (isPlainName_iff.mp hn).1.1
  cases element with
  | none =>
    cases element' with
    | none => rfl
    | some m => exact absurd (by simpa using heq.symm) (hne m (h' m (by simp)))
  | some n =>
    cases element' with
    | none => exact absurd (by simpa using heq) (hne n (h n (by simp)))
    | some m =>
      rw [hstring (by simpa using heq : n.toList = m.toList)]

end Names

/-- **Equal tokens have the same nodes.** -/
theorem token_eq_iff (hc : isPlainCompound c = true) (hd : isPlainCompound d = true) :
    token c = token d ↔ SameNodes c d := by
  obtain ⟨element, classes, rfl, h⟩ := exists_names hc
  obtain ⟨element', classes', rfl, h'⟩ := exists_names hd
  rw [token_ofNames_inj h h', sameNodes_ofNames_iff]

/-- **Only an element of its name has the reserved token.** -/
theorem token_eq_sentinel_iff (hc : isPlainCompound c = true) :
    token c = sentinel ↔ c = [.element sentinel] := by
  obtain ⟨element, classes, rfl, h⟩ := exists_names hc
  have hsentinel : token (ofNames (some sentinel) []) = sentinel := by decide +kernel
  have hplain : ∀ n ∈ (some sentinel).toList ++ [], isPlainName n = true := by decide +kernel
  have hreserved : token (ofNames element classes) = sentinel
      ↔ element = some sentinel ∧ classes = [] := by
    conv_lhs => rw [← hsentinel]
    rw [token_ofNames_inj h hplain, List.perm_nil]
  rw [hreserved]
  constructor
  · rintro ⟨rfl, rfl⟩
    rfl
  · intro heq
    cases element with
    | none => cases classes <;> simp [ofNames] at heq
    | some n => simpa [ofNames] using heq

/-- The text of a plain compound is a word. -/
theorem isWord_of_isPlainCompound (hc : isPlainCompound c = true) (hne : c ≠ []) :
    Text.IsWord (c.flatMap chars) := by
  obtain ⟨element, classes, rfl, h⟩ := exists_names hc
  have hchars : ∀ p ∈ ofNames element classes, Text.IsWord p.chars := by
    intro p hp
    rw [ofNames, List.mem_append, List.mem_map, List.mem_map] at hp
    rcases hp with ⟨n, hn, rfl⟩ | ⟨n, hn, rfl⟩
    · exact (isPlainName_iff.mp (h n (List.mem_append_left _ hn))).1
    · obtain ⟨-, hblank⟩ := (isPlainName_iff.mp (h n (List.mem_append_right _ hn))).1
      exact ⟨List.cons_ne_nil _ _, List.forall_mem_cons.mpr ⟨by decide, hblank⟩⟩
  refine ⟨fun hnil => ?_, fun c hc => ?_⟩
  · obtain ⟨p, hp⟩ := List.exists_mem_of_ne_nil _ hne
    exact (hchars p hp).1 (List.flatMap_eq_nil_iff.mp hnil p hp)
  · obtain ⟨p, hp, hc⟩ := List.mem_flatMap.mp hc
    exact (hchars p hp).2 c hc

end SelectorPart

end Css

/-! ## Paths

Each compound of a plain selector is a word of its text, and it becomes one
token of the path. So two paths are compared token by token. -/

open SelectorPart (token SameNodes isPlainCompound)

variable {s t : Selector} {x y : String}

/-- **The path of a plain selector has the tokens of its compounds.** -/
theorem ofSelector_eq_map_token {ps : List SelectorPart} (hs : s = Selector.ofParts ps)
    (hplain : s.isPlain = true) (hx : s.canonical? = some x) :
    Chain.ofSelector x = s.compounds.map token := by
  obtain ⟨cs, hcs, hparts⟩ := Selector.exists_compounds ps
  rw [← hs] at hparts
  obtain ⟨hchars, hne⟩ := Selector.toList_of_canonical? hx
  have hcompounds : s.compounds = cs := by
    refine Selector.compounds_of_parts_eq hcs ?_ hparts
    rintro rfl
    exact hne hparts
  rw [Selector.isPlain, hcompounds, List.all_eq_true] at hplain
  have hwords : ∀ w ∈ cs.map (List.flatMap SelectorPart.chars), Text.IsWord w := by
    intro w hw
    obtain ⟨c, hc, rfl⟩ := List.mem_map.mp hw
    exact SelectorPart.isWord_of_isPlainCompound (hplain c hc) (hcs c hc).1
  rw [hparts, Selector.flatMap_chars_intercalate] at hchars
  rw [Chain.ofSelector, Text.words, hchars, Text.wordChars_intercalate hwords, hcompounds,
    List.map_map, List.map_map]
  refine List.map_congr_left fun c _ => ?_
  simp only [Function.comp_apply, Chain.sortCompound, String.toList_ofList, token]

/-- **The path of a plain selector tells it**, up to the order of the
classes in its compounds. Whatever the texts that the selectors were read
from, two of them have the same path exactly when their compounds have the
same nodes, one by one; and the reserved token is in a path exactly when a
compound is the element of that name.

A path is cut out of the text of a selector, at white space and at points.
That the selectors are plain says that neither is in a name, so that the
cuts are the places where the compounds and their nodes end. -/
theorem path_eq_iff_sameNodes {a b : String} {r q : StyleRule}
    (hr : r ∈ (Stylesheet.ofText a).rules) (hs : s ∈ r.selectors) (hx : s.canonical? = some x)
    (hq : q ∈ (Stylesheet.ofText b).rules) (ht : t ∈ q.selectors) (hy : t.canonical? = some y)
    (hsplain : s.isPlain = true) (htplain : t.isPlain = true) :
    (Chain.ofSelector x = Chain.ofSelector y ↔ List.Forall₂ SameNodes s.compounds t.compounds)
      ∧ (sentinel ∈ Chain.ofSelector x ↔ [.element sentinel] ∈ s.compounds) := by
  obtain ⟨ps, hps⟩ := Stylesheet.exists_ofParts hr hs
  obtain ⟨qs, hqs⟩ := Stylesheet.exists_ofParts hq ht
  rw [ofSelector_eq_map_token hps hsplain hx, ofSelector_eq_map_token hqs htplain hy]
  have hsall : ∀ c ∈ s.compounds, isPlainCompound c = true := List.all_eq_true.mp hsplain
  have htall : ∀ c ∈ t.compounds, isPlainCompound c = true := List.all_eq_true.mp htplain
  constructor
  · rw [← List.forall₂_eq_eq_eq, List.forall₂_map_left_iff, List.forall₂_map_right_iff]
    have hpair : ∀ {c d}, (c, d) ∈ s.compounds.zip t.compounds → (token c = token d ↔ SameNodes c d) :=
      fun h => SelectorPart.token_eq_iff (hsall _ (List.of_mem_zip h).1) (htall _ (List.of_mem_zip h).2)
    rw [List.forall₂_iff_zip, List.forall₂_iff_zip]
    exact and_congr_right fun _ => ⟨fun h _ _ hcd => (hpair hcd).mp (h hcd),
      fun h _ _ hcd => (hpair hcd).mpr (h hcd)⟩
  · rw [List.mem_map]
    constructor
    · rintro ⟨c, hc, heq⟩
      rwa [(SelectorPart.token_eq_sentinel_iff (hsall c hc)).mp heq] at hc
    · exact fun h => ⟨_, h, (SelectorPart.token_eq_sentinel_iff (hsall _ h)).mpr rfl⟩

/-- The classes of a compound may be written in any order. -/
theorem path_eq_iff_sameNodes_of_reordered :
    Chain.ofSelector ".b.a view.d" = Chain.ofSelector ".a.b view.d"
      ∧ sentinel ∉ Chain.ofSelector ".b.a view.d" := by
  obtain ⟨r, hr, hs⟩ : ∃ r ∈ (Stylesheet.ofText ".b.a view.d{}").rules,
      ⟨[.cls "b", .cls "a", .blank, .element "view", .cls "d"]⟩ ∈ r.selectors := by decide +kernel
  obtain ⟨q, hq, ht⟩ : ∃ q ∈ (Stylesheet.ofText ".a.b view.d{}").rules,
      ⟨[.cls "a", .cls "b", .blank, .element "view", .cls "d"]⟩ ∈ q.selectors := by decide +kernel
  obtain ⟨hpath, hreserved⟩ := path_eq_iff_sameNodes (x := ".b.a view.d") (y := ".a.b view.d")
    hr hs (by decide +kernel) hq ht (by decide +kernel) (by decide +kernel) (by decide +kernel)
  exact ⟨hpath.mpr (by decide +kernel), mt hreserved.mp (by decide +kernel)⟩

/-! ## Names that are cut

Each of these selectors is well formed, and the program takes it. Its text
does not tell any more what its parts were. -/

/-- The selectors of a text. -/
def selectorsOf (text : String) : List Selector :=
  (Stylesheet.ofText text).rules.flatMap StyleRule.selectors

/-- **Selectors that are not plain can share a path.** A class with white
space beyond ASCII, a name with a point or a blank behind a backslash and
two names that only a comment parts have the paths of other selectors; and
an element with backslashes in its name has the reserved token in its path. -/
theorem shared_paths :
    (∀ p ∈ [(".a\u00a0b{}", ".a b{}"), ("a\\.b{}", "a.b{}"), (".a\\ b{}", ".a b{}"),
        (".a/**/b{}", ".ab{}")],
      ∃ s ∈ selectorsOf p.1, ∃ t ∈ selectorsOf p.2, s.canonical? ≠ none
        ∧ s.canonical?.map Chain.ofSelector = t.canonical?.map Chain.ofSelector
        ∧ ¬ List.Forall₂ SameNodes s.compounds t.compounds)
      ∧ ∃ s ∈ selectorsOf "_\\#_{}", s.canonical?.map Chain.ofSelector = some [sentinel] := by
  decide +kernel

end Stylebook
