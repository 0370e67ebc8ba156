import Mathlib.Data.List.Basic
import Stylebook.Proofs.Path.Join

/-!
# Where a path leads

To follow a path is to go one component further at a time: a name leads into
a directory, and a step up out of the last one that was entered. A step up
that finds no such directory is a *climb* above the start. So a path leads
to a number of climbs and then into the directories that are left
(`Descent`), and a path that follows another one goes on from there
(`Descent.foldl_step`).

`Path.normalize` keeps the directories. The climbs it only counts by twos:
the first one is kept as a step up, the second one takes that step away
again, and so on, also at the root, where nothing is above
(`components_normalize_eq`). It is right about a path that never climbs, and
about a relative one with a single climb. Hence it does not matter whether
the target of an import is made normal before it is seen from its directory,
as long as it climbs once at most (`normalize_join_normalize_iff`).
-/

namespace Stylebook

/-- **Where components lead** from a start. -/
structure Descent where
  /-- The steps up that found no directory to leave. -/
  climbs : Nat
  /-- The directories that were entered and not left again, the last one
  first. -/
  names : List String
  deriving DecidableEq, Repr

namespace Descent

/-- One component further. -/
def step (d : Descent) : Component → Descent
  | .name s => ⟨d.climbs, s :: d.names⟩
  | .up =>
    match d.names with
    | _ :: names => ⟨d.climbs, names⟩
    | [] => ⟨d.climbs + 1, []⟩
  | _ => d

/-- The start. -/
def start : Descent := ⟨0, []⟩

/-- **The directories of a descent**, as components. -/
def directories (d : Descent) : List Component := d.names.reverse.map .name

/-- **One descent after another**: the climbs of the second leave
directories of the first, as far as there are some. -/
def andThen (d e : Descent) : Descent :=
  ⟨d.climbs + (e.climbs - d.names.length), e.names ++ d.names.drop e.climbs⟩

/-- A descent that does not move changes nothing. -/
theorem andThen_start (d : Descent) : d.andThen start = d := by
  simp [andThen, start]

/-- The last step of two descents is one of the second. -/
theorem step_andThen (d e : Descent) (c : Component) :
    (d.andThen e).step c = d.andThen (e.step c) := by
  obtain ⟨k, names⟩ := e
  cases c with
  | root => rfl
  | here => rfl
  | name s => rfl
  | up =>
    cases names with
    | cons s names => rfl
    | nil =>
      -- a climb leaves the next directory of the first descent, or is one of the whole
      have hclimb : d.andThen (step ⟨k, []⟩ .up)
          = ⟨d.climbs + (k + 1 - d.names.length), d.names.drop (k + 1)⟩ := rfl
      have hself : d.andThen ⟨k, []⟩ = ⟨d.climbs + (k - d.names.length), d.names.drop k⟩ := rfl
      rw [hclimb, hself]
      by_cases hlt : k < d.names.length
      · rw [List.drop_eq_getElem_cons hlt, Nat.sub_eq_zero_of_le (Nat.le_of_lt hlt),
          Nat.sub_eq_zero_of_le hlt]
        rfl
      · rw [List.drop_eq_nil_of_le (by omega), List.drop_eq_nil_of_le (by omega),
          show k + 1 - d.names.length = k - d.names.length + 1 by omega]
        rfl

/-- **Components that follow a descent go on from it.** -/
theorem foldl_step (d : Descent) (cs : List Component) :
    cs.foldl step d = d.andThen (cs.foldl step start) := by
  calc cs.foldl step d
      = cs.foldl step (d.andThen start) := by rw [andThen_start]
    _ = d.andThen (cs.foldl step start) := List.foldl_hom d.andThen fun e c => step_andThen d e c

end Descent

namespace Path

variable {b p q : Path}

/-- **Where a path leads**, seen from where it starts. -/
def descent (p : Path) : Descent := p.components.foldl Descent.step .start

/-- A point leads nowhere. -/
theorem foldl_step_filter (d : Descent) (cs : List Component) :
    (cs.filter (· ≠ .here)).foldl Descent.step d = cs.foldl Descent.step d := by
  rw [List.foldl_filter]
  refine congrArg (fun f => cs.foldl f d) (funext fun d => funext fun c => ?_)
  cases c <;> rfl

/-- **A path below another one goes on from it.** -/
theorem descent_join (hq : q.isAbsolute = false) :
    (p.join q).descent = q.components.foldl Descent.step p.descent := by
  by_cases hp : p.text = ""
  · have hempty : p.descent = .start := by
      rw [descent, show p = ⟨""⟩ from congrArg Path.mk hp]
      rfl
    rw [join_of_empty hp hq, hempty, descent]
  · rw [descent, components_join hp hq, List.foldl_append, foldl_step_filter]
    rfl

/-! ## Normalizing

The program has one stack, on which climbs and directories lie together. A
step up takes off whatever is on top. That is right for a directory, and it
is where climbs are lost. -/

/-- What is left of climbs by `normalize`: every second one takes the one
before it away. -/
def leftClimbs (climbs : Nat) : List Component := if climbs % 2 = 1 then [.up] else []

/-- The stack of `normalize` at a descent that starts at `base`. -/
def stackOf (base : List Component) (d : Descent) : List Component :=
  d.names.map .name ++ (leftClimbs d.climbs ++ base)

/-- One step of `normalize` is one step of the descent. -/
theorem follow_stackOf {base : List Component} (hbase : base = [] ∨ base = [.root]) (d : Descent)
    {c : Component} (hc : c ≠ .root) : follow (stackOf base d) c = stackOf base (d.step c) := by
  obtain ⟨n, names⟩ := d
  cases c with
  | root => exact absurd rfl hc
  | here =>
    rw [follow]
    rfl
  | name s =>
    show follow (stackOf base ⟨n, names⟩) (.name s) = .name s :: stackOf base ⟨n, names⟩
    unfold follow
    split <;> simp_all
  | up =>
    cases names with
    | cons s names =>
      show follow (.name s :: stackOf base ⟨n, names⟩) .up = stackOf base ⟨n, names⟩
      rfl
    | nil =>
      show follow (leftClimbs n ++ base) .up = leftClimbs (n + 1) ++ base
      unfold leftClimbs
      by_cases hodd : n % 2 = 1
      · rw [if_pos hodd, if_neg (by omega)]
        rcases hbase with rfl | rfl <;> rfl
      · rw [if_neg hodd, if_pos (by omega)]
        rcases hbase with rfl | rfl <;> rfl

/-- So are all steps behind the root. -/
theorem foldl_follow_stackOf {base : List Component} (hbase : base = [] ∨ base = [.root])
    (d : Descent) {cs : List Component} (hcs : .root ∉ cs) :
    cs.foldl follow (stackOf base d) = stackOf base (cs.foldl Descent.step d) := by
  induction cs generalizing d with
  | nil => rfl
  | cons c cs ih =>
    rw [List.mem_cons, not_or] at hcs
    rw [List.foldl_cons, List.foldl_cons, follow_stackOf hbase d (Ne.symm hcs.1), ih _ hcs.2]

/-- The root comes first and nowhere else. -/
theorem exists_components_eq (p : Path) : ∃ cs, p.components = p.top ++ cs ∧ .root ∉ cs := by
  refine ⟨_, rfl, fun h => ?_⟩
  obtain ⟨w, -, hw⟩ := List.mem_map.mp h
  unfold ofPiece at hw
  split at hw
  · cases hw
  · split at hw <;> cases hw

/-- **What normalizing leaves of a path**: its directories, and of its
climbs at most one. -/
theorem components_normalize_eq (p : Path) :
    p.normalize.components = p.top ++ (leftClimbs p.descent.climbs ++ p.descent.directories) := by
  obtain ⟨cs, hcs, hroot⟩ := exists_components_eq p
  have htop : p.top = [] ∨ p.top = [.root] := by
    unfold top
    split <;> simp
  have hdescent : p.descent = cs.foldl Descent.step .start := by
    rw [descent, hcs, List.foldl_append]
    rcases htop with htop | htop <;> rw [htop] <;> rfl
  have hstack : p.components.foldl follow [] = stackOf p.top p.descent := by
    rw [hcs, List.foldl_append, hdescent, ← foldl_follow_stackOf htop .start hroot]
    rcases htop with htop | htop <;> rw [htop] <;> rfl
  have hclimbs : (leftClimbs p.descent.climbs).reverse = leftClimbs p.descent.climbs := by
    unfold leftClimbs
    split <;> rfl
  have htopreverse : p.top.reverse = p.top := by
    rcases htop with htop | htop <;> rw [htop] <;> rfl
  rw [components_normalize, hstack, stackOf, List.reverse_append, List.reverse_append, hclimbs,
    htopreverse, Descent.directories, List.map_reverse, List.append_assoc]

/-- Directories tell the names. -/
theorem directories_injective {d e : Descent} (h : d.directories = e.directories) :
    d.names = e.names := by
  have hinj : Function.Injective Component.name := fun s t h => Component.name.inj h
  exact List.reverse_injective (List.map_injective_iff.mpr hinj h)

/-! ## Normalizing before and after

The target of an import may be made normal before it is joined to its
directory, or only behind. Before, the climbs at its start have nothing to
leave, so a pair of them is lost; behind, there are directories to leave. -/

/-- **A path of names**, with the root before them or not. -/
def IsPlain (p : Path) : Prop := ∀ c ∈ p.components, c = .root ∨ ∃ s, c = .name s

instance (p : Path) : Decidable p.IsPlain :=
  have : DecidablePred fun c : Component => c = .root ∨ ∃ s, c = .name s := fun c => match c with
    | .root => isTrue (Or.inl rfl)
    | .name s => isTrue (Or.inr ⟨s, rfl⟩)
    | .here | .up => isFalse (by simp)
  List.decidableBAll _ p.components

/-- A path of names never climbs. -/
theorem IsPlain.climbs_eq (h : p.IsPlain) : p.descent.climbs = 0 := by
  have hall : ∀ cs : List Component, (∀ c ∈ cs, c = .root ∨ ∃ s, c = .name s) → ∀ d : Descent,
      (cs.foldl Descent.step d).climbs = d.climbs := by
    intro cs hcs d
    induction cs generalizing d with
    | nil => rfl
    | cons c cs ih =>
      rw [List.forall_mem_cons] at hcs
      rcases hcs.1 with rfl | ⟨s, rfl⟩
      · exact ih hcs.2 d
      · exact ih hcs.2 _
  exact hall _ h .start

/-- **Below a path of names**, a path that climbs no higher than to its top
is followed to the end. -/
theorem components_normalize_join (hb : b.IsPlain) (hp : p.isAbsolute = false)
    (hclimbs : p.descent.climbs ≤ b.descent.names.length) : (b.join p).normalize.components
      = b.top ++ (p.components.foldl Descent.step b.descent).directories := by
  have hnone : (b.join p).descent.climbs = 0 := by
    rw [descent_join hp, Descent.foldl_step]
    show b.descent.climbs + (p.descent.climbs - b.descent.names.length) = 0
    rw [hb.climbs_eq, Nat.sub_eq_zero_of_le hclimbs]
  rw [components_normalize_eq, hnone, descent_join hp, top, isAbsolute_join hp]
  rfl

/-- A normal path leads to where the path leads, with every second climb
missing. -/
theorem descent_normalize (p : Path) :
    p.normalize.descent = ⟨p.descent.climbs % 2, p.descent.names⟩ := by
  have hnames : ∀ (names : List String) (d : Descent),
      (names.map Component.name).foldl Descent.step d = ⟨d.climbs, names.reverse ++ d.names⟩ := by
    intro names
    induction names with
    | nil => exact fun d => rfl
    | cons s names ih =>
      intro d
      rw [List.map_cons, List.foldl_cons, ih, List.reverse_cons, List.append_assoc]
      rfl
  have htop : p.top.foldl Descent.step .start = .start := by
    unfold top
    split <;> rfl
  have hclimbs : (leftClimbs p.descent.climbs).foldl Descent.step .start
      = ⟨p.descent.climbs % 2, []⟩ := by
    unfold leftClimbs
    split
    · rename_i hodd
      rw [hodd]
      rfl
    · rename_i heven
      rw [show p.descent.climbs % 2 = 0 by omega]
      rfl
  rw [descent, components_normalize_eq, List.foldl_append, htop, List.foldl_append, hclimbs,
    Descent.directories, hnames, List.reverse_reverse, List.append_nil]

/-- A path is absolute if the root is one of its components. -/
theorem isAbsolute_iff : p.isAbsolute = true ↔ .root ∈ p.components := by
  obtain ⟨cs, hcs, hroot⟩ := exists_components_eq p
  rw [hcs, List.mem_append, or_iff_left hroot, top]
  split <;> simp_all

/-- Normalizing keeps a path absolute or relative, as it keeps the root. -/
theorem isAbsolute_normalize (p : Path) : p.normalize.isAbsolute = p.isAbsolute := by
  have hclimbs : .root ∉ leftClimbs p.descent.climbs ++ p.descent.directories := by
    unfold leftClimbs Descent.directories
    split <;> simp
  rw [Bool.eq_iff_iff, isAbsolute_iff, components_normalize_eq, List.mem_append,
    or_iff_left hclimbs, top]
  split <;> simp_all

/-- **A path may be made normal before it is seen from a directory** exactly
if it climbs once at most. -/
theorem normalize_join_normalize_iff (hb : b.IsPlain) (hp : p.isAbsolute = false)
    (hclimbs : p.descent.climbs ≤ b.descent.names.length) :
    (b.join p.normalize).normalize = (b.join p).normalize ↔ p.descent.climbs ≤ 1 := by
  have hnormal : p.normalize.isAbsolute = false := by rw [isAbsolute_normalize, hp]
  have hmod : p.descent.climbs % 2 ≤ p.descent.climbs := Nat.mod_le _ 2
  have hless : p.normalize.descent.climbs ≤ b.descent.names.length := by
    rw [descent_normalize]
    exact Nat.le_trans hmod hclimbs
  have hafter : (b.join p).normalize.components
      = b.top ++ (b.descent.andThen p.descent).directories := by
    rw [components_normalize_join hb hp hclimbs, Descent.foldl_step]
    rfl
  have hbefore : (b.join p.normalize).normalize.components
      = b.top ++ (b.descent.andThen ⟨p.descent.climbs % 2, p.descent.names⟩).directories := by
    rw [components_normalize_join hb hnormal hless, Descent.foldl_step, ← descent_normalize]
    rfl
  constructor
  · intro heq
    rw [heq, hafter, List.append_cancel_left_eq] at hbefore
    -- the climbs that are lost would leave that many directories more
    have hdrop : b.descent.names.drop p.descent.climbs
        = b.descent.names.drop (p.descent.climbs % 2) :=
      List.append_cancel_left (directories_injective hbefore)
    have hlength := congrArg List.length hdrop
    rw [List.length_drop, List.length_drop] at hlength
    omega
  · intro hone
    have hself : p.descent.climbs % 2 = p.descent.climbs := Nat.mod_eq_of_lt (by omega)
    rw [hself] at hbefore
    exact normalize_eq_of_same (same_iff.mpr (hbefore.trans hafter.symm))

/-- **Normalizing follows a path**, and loses climbs. Below a path of names,
a path that climbs no higher than to its top leads to where following its
components one by one leads; that it was made normal before makes no
difference exactly if it climbs once at most. Of an absolute path no point
is left, and a step up at the root exactly if the number of its climbs above
the root is odd.

A step up takes off the last component, even if that is a step up, and stays
only where nothing but the root is left. So a second climb takes off the
first one, and of the climbs of a path only their parity is left. -/
theorem normalize_follows {b p q : Path} (hb : b.IsPlain) (hp : p.isAbsolute = false)
    (hclimbs : p.descent.climbs ≤ b.descent.names.length) (hq : q.isAbsolute = true) :
    (b.join p).normalize.components
        = b.top ++ (p.components.foldl Descent.step b.descent).directories
      ∧ ((b.join p.normalize).normalize = (b.join p).normalize ↔ p.descent.climbs ≤ 1)
      ∧ q.normalize.components
        = .root :: (leftClimbs q.descent.climbs ++ q.descent.directories) := by
  refine ⟨components_normalize_join hb hp hclimbs, normalize_join_normalize_iff hb hp hclimbs, ?_⟩
  rw [components_normalize_eq, top, if_pos hq]
  rfl

/-- An import of a neighbouring directory, and two climbs above the root. -/
theorem normalize_follows_of_neighbour :
    (⟨"/p/styles"⟩ : Path).IsPlain ∧ (⟨"./../base/x/../b.css"⟩ : Path).isAbsolute = false
      ∧ (⟨"./../base/x/../b.css"⟩ : Path).descent.climbs
        ≤ (⟨"/p/styles"⟩ : Path).descent.names.length
      ∧ (⟨"/../../a/./b.css"⟩ : Path).isAbsolute = true
      ∧ (Path.join ⟨"/p/styles"⟩ ⟨"./../base/x/../b.css"⟩).normalize.components
        = [.root, .name "p", .name "base", .name "b.css"]
      ∧ (Path.join ⟨"/p/styles"⟩ (normalize ⟨"./../base/x/../b.css"⟩)).normalize
        = (Path.join ⟨"/p/styles"⟩ ⟨"./../base/x/../b.css"⟩).normalize
      ∧ (normalize ⟨"/../../a/./b.css"⟩).components = [.root, .name "a", .name "b.css"] := by
  have hb : (⟨"/p/styles"⟩ : Path).IsPlain := by decide +kernel
  have hp : (⟨"./../base/x/../b.css"⟩ : Path).isAbsolute = false := by decide +kernel
  have hclimbs : (⟨"./../base/x/../b.css"⟩ : Path).descent.climbs
      ≤ (⟨"/p/styles"⟩ : Path).descent.names.length := by decide +kernel
  have hq : (⟨"/../../a/./b.css"⟩ : Path).isAbsolute = true := by decide +kernel
  obtain ⟨hjoin, hbefore, habsolute⟩ := normalize_follows hb hp hclimbs hq
  exact ⟨hb, hp, hclimbs, hq, hjoin.trans (by decide +kernel), hbefore.mpr (by decide +kernel),
    habsolute.trans (by decide +kernel)⟩

/-- **A climb above the root stays in a normal path**, and two of them do
not; and a target with two climbs, made normal, has none. -/
theorem normalize_of_climbs : normalize ⟨"/../a.css"⟩ = ⟨"/../a.css"⟩
    ∧ normalize ⟨"/../../a.css"⟩ = ⟨"/a.css"⟩
    ∧ (Path.join ⟨"/p/q/r"⟩ (normalize ⟨"../../a.css"⟩)).normalize
      ≠ (Path.join ⟨"/p/q/r"⟩ ⟨"../../a.css"⟩).normalize := by
  decide +kernel

end Path

end Stylebook
