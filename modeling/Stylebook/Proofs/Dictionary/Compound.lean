import Mathlib.Data.List.Sort
import Stylebook.Dictionary.Chain
import Stylebook.Proofs.Text.Infix

/-!
# Compounds in order

A compound is an element name, which may be missing, with class names behind
it, each with a point in front. Cutting it at its points gives these names
back, because no name has a point. So bringing the classes in order forgets
their order and nothing else (`Chain.sortChars_pointed_inj`): two compounds
become equal exactly when they have the same element name and the same class
names, each as often.
-/

namespace Stylebook.Chain

/-- Class names, each with a point in front. -/
def pointed (names : List (List Char)) : List Char := names.flatMap ('.' :: ·)

/-- **Names that can be told apart**: none is empty or has a point. -/
def AreNames (names : List (List Char)) : Prop := ∀ n ∈ names, n ≠ [] ∧ '.' ∉ n

variable {element element' : List Char} {names names' : List (List Char)}

/-! ## The order of names

Class names are ordered by their characters. Any order would do here, as
long as two names come together only if they are equal. -/

/-- The comparison of names is an order: it is transitive. -/
theorem nameLe_trans (s t u : List Char) (hst : nameLe s t = true) (htu : nameLe t u = true) :
    nameLe s u = true :=
  Std.TransCmp.isLE_trans hst htu

/-- Two names are compared alike from either side. -/
theorem nameLe_swap (s t : List Char) :
    nameLe t s = (compare (String.ofList s) (String.ofList t)).swap.isLE := by
  rw [← Std.OrientedCmp.eq_swap]
  rfl

/-- Any two names can be compared. -/
theorem nameLe_total (s t : List Char) : (nameLe s t || nameLe t s) = true := by
  rw [nameLe_swap s t, nameLe]
  cases compare (String.ofList s) (String.ofList t) <;> rfl

/-- Two names of which neither is greater are equal. As the comparison is
that of the characters, a compound has one order of its class names. -/
theorem nameLe_antisymm {s t : List Char} (hst : nameLe s t = true) (hts : nameLe t s = true) :
    s = t := by
  rw [nameLe_swap s t] at hts
  rw [nameLe] at hst
  cases hc : compare (String.ofList s) (String.ofList t) with
  | eq => exact String.ofList_injective (Std.LawfulEqCmp.eq_of_compare hc)
  | lt =>
    rw [hc] at hts
    cases hts
  | gt =>
    rw [hc] at hst
    cases hst

/-- **Sorting names forgets their order**, and nothing else. -/
theorem mergeSort_eq_iff : names.mergeSort nameLe = names'.mergeSort nameLe ↔ names.Perm names' := by
  constructor
  · intro h
    have hperm := List.mergeSort_perm names nameLe
    rw [h] at hperm
    exact hperm.symm.trans (List.mergeSort_perm names' nameLe)
  · intro h
    refine List.Perm.eq_of_pairwise (fun s t _ _ => nameLe_antisymm)
      (List.pairwise_mergeSort nameLe_trans nameLe_total names)
      (List.pairwise_mergeSort nameLe_trans nameLe_total names') ?_
    exact (List.mergeSort_perm names nameLe).trans
      (h.trans (List.mergeSort_perm names' nameLe).symm)

/-! ## Cutting a compound

The text of a compound is cut at its points, and the pieces are the names.
The first piece is the element name, or empty. -/

/-- A name before a point is cut off at it. -/
theorem splitAtPoints_append {n : List Char} (hn : '.' ∉ n) (cs : List Char) :
    splitAtPoints (n ++ '.' :: cs) = n :: splitAtPoints cs := by
  induction n with
  | nil => rw [List.nil_append, splitAtPoints, if_pos rfl]
  | cons c n ih =>
    rw [List.mem_cons, not_or] at hn
    obtain ⟨hc, hn⟩ := hn
    rw [List.cons_append, splitAtPoints, if_neg (Ne.symm hc), ih hn]

/-- Without a point there is nothing to cut. -/
theorem splitAtPoints_of_notMem {n : List Char} (hn : '.' ∉ n) : splitAtPoints n = [n] := by
  induction n with
  | nil => rfl
  | cons c n ih =>
    rw [List.mem_cons, not_or] at hn
    obtain ⟨hc, hn⟩ := hn
    rw [splitAtPoints, if_neg (Ne.symm hc), ih hn]

/-- **Class names are cut at their points.** There is nothing before the
first point. -/
theorem splitAtPoints_pointed (h : ∀ n ∈ names, '.' ∉ n) :
    splitAtPoints (pointed names) = [] :: names := by
  suffices hall : ∀ n, '.' ∉ n → splitAtPoints (n ++ pointed names) = n :: names from
    hall [] List.not_mem_nil
  induction names with
  | nil =>
    intro n hn
    rw [pointed, List.flatMap_nil, List.append_nil]
    exact splitAtPoints_of_notMem hn
  | cons m names ih =>
    intro n hn
    obtain ⟨hm, hnames⟩ := List.forall_mem_cons.mp h
    rw [pointed, List.flatMap_cons, List.cons_append, splitAtPoints_append hn]
    exact congrArg (n :: ·) (ih hnames m hm)

/-- Class names start with a point, -/
theorem head?_pointed (names : List (List Char)) : ∀ c ∈ (pointed names).head?, c = '.' := by
  cases names with
  | nil => simp [pointed]
  | cons n names => simp [pointed]

/-- The element name goes up to the first point. -/
theorem takeWhile_append_pointed (helement : '.' ∉ element) (names : List (List Char)) :
    (element ++ pointed names).takeWhile (· ≠ '.') = element := by
  refine Text.takeWhile_append_eq (fun c hc => ?_) fun c hc => ?_
  · exact decide_eq_true fun heq => helement (heq ▸ hc)
  · simp [head?_pointed names c hc]

/-- The class names go on from the first point. -/
theorem dropWhile_append_pointed (helement : '.' ∉ element) (names : List (List Char)) :
    (element ++ pointed names).dropWhile (· ≠ '.') = pointed names := by
  refine Text.dropWhile_append_eq (fun c hc => ?_) fun c hc => ?_
  · exact decide_eq_true fun heq => helement (heq ▸ hc)
  · simp [head?_pointed names c hc]

/-- **A compound is read in one way.** -/
theorem append_pointed_inj (helement : '.' ∉ element) (helement' : '.' ∉ element')
    (hnames : AreNames names) (hnames' : AreNames names')
    (h : element ++ pointed names = element' ++ pointed names') :
    element = element' ∧ names = names' := by
  have htake := congrArg (List.takeWhile (· ≠ '.')) h
  have hdrop := congrArg (List.dropWhile (· ≠ '.')) h
  rw [takeWhile_append_pointed helement, takeWhile_append_pointed helement'] at htake
  rw [dropWhile_append_pointed helement, dropWhile_append_pointed helement'] at hdrop
  have hsplit := congrArg splitAtPoints hdrop
  rw [splitAtPoints_pointed fun n hn => (hnames n hn).2,
    splitAtPoints_pointed fun n hn => (hnames' n hn).2] at hsplit
  exact ⟨htake, (List.cons.inj hsplit).2⟩

/-! ## Bringing the classes in order

A compound with one class or none is left as it is, in the program and here.
That makes no difference for names, only for points with nothing behind
them, which are dropped when there is something to sort. -/

/-- **What is brought in order** of an element name and what stands behind
its points: the names among them, if there are two of them at least. -/
theorem sortChars_append_pointed (helement : '.' ∉ element) (h : ∀ n ∈ names, '.' ∉ n) :
    sortChars (element ++ pointed names)
      = if (names.filter (!·.isEmpty)).length < 2 then element ++ pointed names
        else element ++ pointed ((names.filter (!·.isEmpty)).mergeSort nameLe) := by
  unfold sortChars
  rw [takeWhile_append_pointed helement, dropWhile_append_pointed helement,
    splitAtPoints_pointed h, List.filter_cons_of_neg (by simp)]
  rfl

/-- **A compound with its classes in order** has its element name and
its class names. -/
theorem sortChars_pointed (helement : '.' ∉ element) (hnames : AreNames names) :
    sortChars (element ++ pointed names) = element ++ pointed (names.mergeSort nameLe) := by
  have hfilter : names.filter (!·.isEmpty) = names :=
    List.filter_eq_self.mpr fun n hn => by simp [(hnames n hn).1]
  rw [sortChars_append_pointed helement fun n hn => (hnames n hn).2, hfilter]
  split
  · -- fewer than two names are in order as they are
    rename_i hshort
    match names, hshort with
    | [], _ => rw [List.mergeSort_nil]
    | [n], _ => rw [List.mergeSort_singleton]
  · rfl

/-- **The order of the classes is all that is forgotten.** -/
theorem sortChars_pointed_inj (helement : '.' ∉ element) (helement' : '.' ∉ element')
    (hnames : AreNames names) (hnames' : AreNames names') :
    sortChars (element ++ pointed names) = sortChars (element' ++ pointed names')
      ↔ element = element' ∧ names.Perm names' := by
  have hsorted : ∀ {names : List (List Char)}, AreNames names → AreNames (names.mergeSort nameLe) :=
    fun h n hn => h n (List.mem_mergeSort.mp hn)
  rw [sortChars_pointed helement hnames, sortChars_pointed helement' hnames', ← mergeSort_eq_iff]
  refine ⟨append_pointed_inj helement helement' (hsorted hnames) (hsorted hnames'), ?_⟩
  rintro ⟨rfl, h⟩
  rw [h]

end Stylebook.Chain
