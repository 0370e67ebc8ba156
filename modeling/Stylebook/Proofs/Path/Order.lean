import Mathlib.Data.List.Perm.Basic
import Stylebook.Proofs.Path.Keys

/-!
# The order of paths

Paths are ordered by their components, and components by their kind and then
by their name. This is a total order in which the spellings of one path, and
only these, come together (`Path.order_eq_eq_iff`). So a list that names
each path once is sorted into a strictly ascending one
(`Path.ascending_sort`).
-/

namespace Stylebook

namespace Component

/-- The name in a component, if it has one. -/
def label : Component → String
  | .name s => s
  | _ => ""

/-- The order of components is lexicographic, by kind and then by name. -/
theorem order_eq : order = compareLex (compareOn rank) (compareOn label) := by
  funext c d
  cases c <;> cases d <;> rfl

instance : Std.TransCmp order := order_eq ▸ inferInstance

instance : Std.LawfulEqCmp order where
  compare_self := order_eq ▸ Std.ReflCmp.compare_self
  eq_of_compare {c d} h := by
    cases c <;> cases d <;> simp_all [order, rank]

end Component

namespace Path

/-- The order of lists of components is lexicographic. -/
theorem orderComponents_eq : orderComponents = List.compareLex Component.order := by
  funext cs ds
  induction cs generalizing ds with
  | nil => cases ds <;> rfl
  | cons c cs ih =>
    cases ds with
    | nil => rfl
    | cons d ds =>
      rw [orderComponents, List.compareLex_cons_cons, ih]
      cases c.order d <;> rfl

variable {p q r : Path} {ps : List Path}

instance : Std.TransCmp Path.order where
  eq_swap {p q} := by
    rw [order, order, orderComponents_eq]
    exact Std.OrientedCmp.eq_swap
  isLE_trans {p q r} h h' := by
    rw [order, orderComponents_eq] at *
    exact Std.TransCmp.isLE_trans h h'

/-- **Spellings of one path, and no others, come together.** -/
theorem order_eq_eq_iff : p.order q = .eq ↔ p.same q = true := by
  rw [order, orderComponents_eq, Std.LawfulEqCmp.compare_eq_iff_eq, same_iff]

/-- Each path comes before the next one. -/
def Ascending (ps : List Path) : Prop := ps.Pairwise fun p q => p.order q = .lt

/-- No path comes twice, in whatever spelling. -/
def Distinct (ps : List Path) : Prop := ps.Pairwise fun p q => p.same q = false

/-- Sorting keeps the members. -/
theorem mem_sort : p ∈ sort ps ↔ p ∈ ps := List.mem_mergeSort

/-- The comparison that the sorting uses is transitive. -/
theorem le_trans (p q r : Path) (h : p.le q = true) (h' : q.le r = true) : p.le r = true :=
  (Std.TransCmp.isLE_trans h h' : (p.order r).isLE = true)

/-- The comparison that the sorting uses is total. -/
theorem le_total (p q : Path) : (p.le q || q.le p) = true := by
  have hswap : q.order p = (p.order q).swap := Std.OrientedCmp.eq_swap
  rw [le, le, hswap]
  cases p.order q <;> rfl

/-- So a sorted list is in order. -/
theorem pairwise_sort (ps : List Path) : (sort ps).Pairwise fun p q => p.le q = true :=
  List.pairwise_mergeSort le_trans le_total ps

/-- Of two different paths in order the first one is smaller. -/
theorem order_eq_lt (hle : p.le q = true) (hne : p.same q = false) : p.order q = .lt := by
  rw [← Bool.not_eq_true, ← order_eq_eq_iff] at hne
  unfold le at hle
  cases hpq : p.order q <;> simp_all

/-- **A list that names each path once is sorted into a strictly ascending
one.** -/
theorem ascending_sort (h : Distinct ps) : Ascending (sort ps) := by
  have hdistinct : Distinct (sort ps) :=
    h.perm (List.mergeSort_perm ps le).symm fun hpq => by rw [same_comm]; exact hpq
  exact (pairwise_sort ps).imp₂ (fun p q hle hne => order_eq_lt hle hne) hdistinct

end Path

end Stylebook
