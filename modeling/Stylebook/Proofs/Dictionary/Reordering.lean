import Mathlib.Data.List.Forall2
import Mathlib.Data.List.Perm.Basic
import Stylebook.Dictionary.Module
import Stylebook.Proofs.Dictionary.Compound

/-!
# Classes in another order

Bringing the classes of a compound in order is a canonical form: two
compounds get the same one exactly when they have the same element name and
the same class names, each as often, and doing it twice is doing it once,
whatever the text.

A dictionary sees of a selector no more than the canonical forms of its
compounds. So writing the classes in the selectors of a style map in another
order leaves the dictionary as it is, and with it every lookup and the
module (`sortCompound_isCanonical`).
-/

namespace Stylebook

namespace Chain

/-! ## The canonical form

Sorting is a canonical form by any order. What has to be seen is that the
text of a compound is put together and cut again without loss. -/

/-- **A compound by its names**: the name of an element, which may be empty,
and those of classes. None has a point, and no class name is empty. -/
structure Compound where
  element : String
  classes : List String
  pointless : '.' ∉ element.toList
  areNames : AreNames (classes.map String.toList)

/-- A compound as it is written. -/
def Compound.text (c : Compound) : String :=
  String.ofList (c.element.toList ++ pointed (c.classes.map String.toList))

/-- **The canonical form tells a compound** up to the order of its classes. -/
theorem sortCompound_text_eq_iff (c d : Compound) :
    sortCompound c.text = sortCompound d.text
      ↔ c.element = d.element ∧ c.classes.Perm d.classes := by
  have hstring : Function.Injective String.toList := fun _ _ h => String.toList_injective h
  rw [sortCompound, sortCompound, String.ofList_inj, Compound.text, Compound.text,
    String.toList_ofList, String.toList_ofList,
    sortChars_pointed_inj c.pointless d.pointless c.areNames d.areNames, hstring.eq_iff,
    List.map_perm_map_iff hstring]

/-- **Every text is an element name and what stands behind its points**, if
nothing may stand there as well. -/
theorem exists_eq_append_pointed (cs : List Char) : ∃ element pieces,
    '.' ∉ element ∧ (∀ p ∈ pieces, '.' ∉ p) ∧ cs = element ++ pointed pieces := by
  induction cs with
  | nil => exact ⟨[], [], List.not_mem_nil, by simp, rfl⟩
  | cons c cs ih =>
    obtain ⟨element, pieces, helement, hpieces, rfl⟩ := ih
    by_cases hc : c = '.'
    · subst hc
      exact ⟨[], element :: pieces, List.not_mem_nil,
        List.forall_mem_cons.mpr ⟨helement, hpieces⟩, rfl⟩
    · exact ⟨c :: element, pieces, List.not_mem_cons_of_ne_of_not_mem (Ne.symm hc) helement,
        hpieces, rfl⟩

/-- The names among what stands behind points. -/
theorem areNames_filter {pieces : List (List Char)} (h : ∀ p ∈ pieces, '.' ∉ p) :
    AreNames (pieces.filter (!·.isEmpty)) := by
  intro n hn
  obtain ⟨hmem, hne⟩ := List.mem_filter.mp hn
  exact ⟨by simpa using hne, h n hmem⟩

/-- The same of lists of characters. -/
theorem sortChars_sortChars (cs : List Char) : sortChars (sortChars cs) = sortChars cs := by
  obtain ⟨element, pieces, helement, hpieces, rfl⟩ := exists_eq_append_pointed cs
  rw [sortChars_append_pointed helement hpieces]
  split
  · -- what is not brought in order is not brought in order the second time either
    rename_i hshort
    rw [sortChars_append_pointed helement hpieces, if_pos hshort]
  · have hsorted : AreNames ((pieces.filter (!·.isEmpty)).mergeSort nameLe) :=
      fun n hn => areNames_filter hpieces n (List.mem_mergeSort.mp hn)
    rw [sortChars_pointed helement hsorted, mergeSort_eq_iff.mpr (List.mergeSort_perm _ _)]

/-- **Bringing the classes in order twice** is doing it once. -/
theorem sortCompound_sortCompound (s : String) :
    sortCompound (sortCompound s) = sortCompound s := by
  rw [sortCompound, sortCompound, String.toList_ofList, sortChars_sortChars]

/-! ## Compounds that differ in the order of their classes

A text may have points with nothing behind them, as no parsed selector has.
Reordering lets those stand where they are, and so the statement holds of
any text. -/

/-- **Two compounds that differ in the order of their classes.** The element
name is the same, and so are the points behind which nothing stands. -/
def Reorders (cs ds : List Char) : Prop :=
  ∃ element pieces pieces', '.' ∉ element ∧ (∀ p ∈ pieces, '.' ∉ p)
    ∧ cs = element ++ pointed pieces ∧ ds = element ++ pointed pieces'
    ∧ pieces.Perm pieces' ∧ pieces.map List.isEmpty = pieces'.map List.isEmpty

/-- **Compounds with the same names** differ in the order of their classes. -/
theorem Compound.reorders {c d : Compound} (helement : c.element = d.element)
    (hclasses : c.classes.Perm d.classes) : Reorders c.text.toList d.text.toList := by
  have hnone : ∀ e : Compound, (e.classes.map String.toList).map List.isEmpty
      = List.replicate e.classes.length false := by
    intro e
    rw [List.eq_replicate_iff, List.length_map, List.length_map]
    refine ⟨rfl, fun b hb => ?_⟩
    obtain ⟨n, hn, rfl⟩ := List.mem_map.mp hb
    exact List.isEmpty_eq_false_iff.mpr (e.areNames n hn).1
  refine ⟨c.element.toList, c.classes.map String.toList, d.classes.map String.toList,
    c.pointless, fun n hn => (c.areNames n hn).2, ?_, ?_, hclasses.map _, ?_⟩
  · rw [text, String.toList_ofList]
  · rw [text, String.toList_ofList, helement]
  · rw [hnone, hnone, hclasses.length_eq]

/-- What stands behind points is told by its names and by where they stand. -/
theorem eq_of_filter_eq {pieces pieces' : List (List Char)}
    (hwhere : pieces.map List.isEmpty = pieces'.map List.isEmpty)
    (hnames : pieces.filter (!·.isEmpty) = pieces'.filter (!·.isEmpty)) : pieces = pieces' := by
  induction pieces generalizing pieces' with
  | nil => exact (List.map_eq_nil_iff.mp hwhere.symm).symm
  | cons p pieces ih =>
    cases pieces' with
    | nil => cases hwhere
    | cons q pieces' =>
      obtain ⟨hempty, hrest⟩ := List.cons.inj hwhere
      cases p with
      | nil =>
        obtain rfl : q = [] := List.isEmpty_iff.mp hempty.symm
        exact congrArg ([] :: ·) (ih hrest hnames)
      | cons c p =>
        cases q with
        | nil => cases hempty
        | cons d q =>
          obtain ⟨hname, hnames⟩ := List.cons.inj hnames
          rw [hname, ih hrest hnames]

/-- One name or none has one order. -/
theorem eq_of_perm_of_length_lt {names names' : List (List Char)} (h : names.Perm names')
    (hshort : names.length < 2) : names = names' := by
  match names, hshort with
  | [], _ => exact (List.nil_perm.mp h).symm
  | [n], _ => exact List.singleton_perm.mp h

/-- **The order of the classes does not show in the canonical form.** -/
theorem Reorders.sortChars_eq {cs ds : List Char} (h : Reorders cs ds) :
    sortChars cs = sortChars ds := by
  obtain ⟨element, pieces, pieces', helement, hpieces, rfl, rfl, hperm, hwhere⟩ := h
  have hpieces' : ∀ p ∈ pieces', '.' ∉ p := fun p hp => hpieces p (hperm.mem_iff.mpr hp)
  have hnames : (pieces.filter (!·.isEmpty)).Perm (pieces'.filter (!·.isEmpty)) :=
    hperm.filter _
  rw [sortChars_append_pointed helement hpieces, sortChars_append_pointed helement hpieces',
    ← hnames.length_eq, mergeSort_eq_iff.mpr hnames]
  split
  · -- with fewer than two names there is one order only
    rename_i hshort
    rw [eq_of_filter_eq hwhere (eq_of_perm_of_length_lt hnames hshort)]
  · rfl

/-- **Two selectors that differ in the order of the classes** in their
compounds. White space between the compounds does not count. -/
def SameButForOrder (x y : String) : Prop :=
  List.Forall₂ Reorders (Text.wordChars x.toList) (Text.wordChars y.toList)

/-- So such selectors have the same path. -/
theorem SameButForOrder.ofSelector_eq {x y : String} (h : SameButForOrder x y) :
    ofSelector x = ofSelector y := by
  have hchars : (Text.wordChars x.toList).map sortChars
      = (Text.wordChars y.toList).map sortChars := by
    rw [← List.forall₂_eq_eq_eq, List.forall₂_map_left_iff, List.forall₂_map_right_iff]
    exact h.imp fun _ _ => Reorders.sortChars_eq
  have hselector : ∀ z : String,
      ofSelector z = ((Text.wordChars z.toList).map sortChars).map String.ofList := by
    intro z
    rw [ofSelector, Text.words, List.map_map, List.map_map]
    refine List.map_congr_left fun cs _ => ?_
    show String.ofList (sortChars (String.ofList cs).toList) = String.ofList (sortChars cs)
    rw [String.toList_ofList]
  rw [hselector, hselector, hchars]

end Chain

/-! ## Dictionaries

A style map is inserted selector by selector, and each insertion looks at
the path of its selector alone. So equal paths at each step make equal
dictionaries, not only ones with equal lookups. -/

open Style (Properties)

/-- **Two style maps that differ in the order of the classes** in the
compounds of their selectors: the selectors stand in the same order and have
the same properties. -/
def StyleMap.SameButForOrder (styles styles' : StyleMap) : Prop :=
  List.Forall₂ (fun e e' => Chain.SameButForOrder e.1 e'.1 ∧ e.2 = e'.2) styles.entries
    styles'.entries

namespace Dictionary

/-- An insertion sees of a selector its canonical compounds only. -/
theorem insert_congr {x y : String} (h : Chain.ofSelector x = Chain.ofSelector y) (d : Dictionary)
    (properties : Properties) : d.insert x properties = d.insert y properties := by
  rw [insert, insert, h]

/-- **The order of the classes does not show in a dictionary.** -/
theorem ofStyles_eq_of_sameButForOrder {styles styles' : StyleMap}
    (h : styles.SameButForOrder styles') : ofStyles styles = ofStyles styles' := by
  have hrun : ∀ {es es' : List (String × Properties)},
      List.Forall₂ (fun e e' => Chain.SameButForOrder e.1 e'.1 ∧ e.2 = e'.2) es es' →
        ∀ d : Dictionary, es.foldl (fun d e => d.insert e.1 e.2) d
          = es'.foldl (fun d e => d.insert e.1 e.2) d := by
    intro es es' hes
    induction hes with
    | nil => exact fun _ => rfl
    | @cons e e' es es' hhead _ ih =>
      intro d
      rw [List.foldl_cons, List.foldl_cons, hhead.2, insert_congr hhead.1.ofSelector_eq]
      exact ih _
  exact hrun h empty

end Dictionary

/-- **Bringing classes in order is a canonical form.** Two compounds get the
same one exactly when they have the same element name and the same class
names, each as often; of any text the canonical form is its own canonical
form; and style maps whose selectors differ in the order of the classes in
their compounds give dictionaries with the same lookups and the same module.

Names are compared by an order in which only equal names are alike, so the
sorted list of the class names depends on how often each is there and on
nothing else. The chain of a selector is made of canonical forms, and a
dictionary sees nothing of a selector but its chain. -/
theorem sortCompound_isCanonical :
    (∀ c d : Chain.Compound, Chain.sortCompound c.text = Chain.sortCompound d.text
        ↔ c.element = d.element ∧ c.classes.Perm d.classes)
      ∧ (∀ s, Chain.sortCompound (Chain.sortCompound s) = Chain.sortCompound s)
      ∧ ∀ styles styles' : StyleMap, styles.SameButForOrder styles' →
          (∀ chain, (Dictionary.ofStyles styles).lookup? chain
              = (Dictionary.ofStyles styles').lookup? chain)
            ∧ (∀ selector, (Dictionary.ofStyles styles).get? selector
              = (Dictionary.ofStyles styles').get? selector)
            ∧ (Dictionary.ofStyles styles).module = (Dictionary.ofStyles styles').module := by
  refine ⟨Chain.sortCompound_text_eq_iff, Chain.sortCompound_sortCompound,
    fun styles styles' h => ?_⟩
  rw [Dictionary.ofStyles_eq_of_sameButForOrder h]
  exact ⟨fun _ => rfl, fun _ => rfl, rfl⟩

/-- Two rules that make text red. -/
def redStyles (first second : String) (hne : first ≠ second) : StyleMap :=
  let red : Properties := ⟨[("color", .text "red")], by decide⟩
  ⟨[(first, red), (second, red)], by simp [Entries.names, hne]⟩

/-- The classes of two compounds in other orders, one of them under an
element, with white space of another kind between the compounds. -/
theorem sortCompound_isCanonical_of_reordered :
    let styles := redStyles ".b.a view.d.c" ".a" (by decide)
    let styles' := redStyles ".a.b\tview.c.d" ".a" (by decide)
    styles.SameButForOrder styles' ∧ styles ≠ styles'
      ∧ (Dictionary.ofStyles styles).lookup? ["view.c.d", ".a.b"]
        = (Dictionary.ofStyles styles').lookup? ["view.c.d", ".a.b"]
      ∧ (Dictionary.ofStyles styles).module = (Dictionary.ofStyles styles').module := by
  intro styles styles'
  let first : Chain.Compound := ⟨"", ["b", "a"], by decide, by unfold Chain.AreNames; decide⟩
  let first' : Chain.Compound := ⟨"", ["a", "b"], by decide, by unfold Chain.AreNames; decide⟩
  let second : Chain.Compound := ⟨"view", ["d", "c"], by decide, by unfold Chain.AreNames; decide⟩
  let second' : Chain.Compound := ⟨"view", ["c", "d"], by decide, by unfold Chain.AreNames; decide⟩
  let alone : Chain.Compound := ⟨"", ["a"], by decide, by unfold Chain.AreNames; decide⟩
  have hwords : Text.wordChars ".b.a view.d.c".toList
      = [first.text.toList, second.text.toList] := by
    decide +kernel
  have hwords' : Text.wordChars ".a.b\tview.c.d".toList
      = [first'.text.toList, second'.text.toList] := by
    decide +kernel
  have halone : Text.wordChars ".a".toList = [alone.text.toList] := by decide +kernel
  have hsame : styles.SameButForOrder styles' := by
    refine .cons ⟨?_, rfl⟩ (.cons ⟨?_, rfl⟩ .nil)
    · rw [Chain.SameButForOrder, hwords, hwords']
      exact .cons (Chain.Compound.reorders rfl (by decide))
        (.cons (Chain.Compound.reorders rfl (by decide)) .nil)
    · rw [Chain.SameButForOrder, halone]
      exact .cons (Chain.Compound.reorders rfl (.refl _)) .nil
  obtain ⟨hlookup, -, hmodule⟩ := sortCompound_isCanonical.2.2 styles styles' hsame
  exact ⟨hsame, by decide +kernel, hlookup _, hmodule⟩

end Stylebook
