import Mathlib
import Stylebook.Proofs.Path.Order
import Stylebook.Proofs.Watch.Exclusion
import Stylebook.Scan

/-!
# The scan and the notifications

The scan walks down from the root and leaves out what it meets on the way:
below an entry that is left out it does not look (`Scan.mem_filesAt_iff`). A
notification names a path, and this is tested as a whole. Both come to the
same. What is left out stays so with everything below it, since the
components of the cache directory still come first and an excluded name is
still there; and a file is not left out unless it is itself
(`Settings.keeps_iff`). So the scan finds the files for which the test of
notifications holds, each once and in ascending order
(`scanStylesheets_spec`).
-/

namespace Stylebook

namespace Entry

variable {e f : Entry} {es : List (String × Entry)} {n : String} {location : List String}

/-- **Induction over a directory tree**: a directory comes after everything
in it. -/
@[elab_as_elim]
theorem induct {motive : Entry → Prop} (file : ∀ content, motive (.file content))
    (link : ∀ target, motive (.link target))
    (directory : ∀ es, (∀ n e, (n, e) ∈ es → motive e) → motive (.directory es)) :
    ∀ e, motive e
  | .file content => file content
  | .link target => link target
  | .directory es => directory es fun n e hmem => by
    have hsize := List.sizeOf_lt_of_mem hmem
    exact induct file link directory e
termination_by e => sizeOf e
decreasing_by
  simp only [Prod.mk.sizeOf_spec] at hsize
  simp only [Entry.directory.sizeOf_spec]
  omega

/-- **An entry as the system keeps it**: in every directory in it, no name
stands twice, and each is one that a path can lead through. -/
def IsSound (e : Entry) : Prop :=
  ∀ location es, e.at? location = some (.directory es) →
    (es.map Prod.fst).Nodup ∧ ∀ g ∈ es, (Component.name g.1).IsStep

/-- A location in a directory starts with the name of an entry. -/
theorem at?_directory (es : List (String × Entry)) (n : String) (ns : List String) :
    (directory es).at? (n :: ns) = (es.lookup n).bind fun e => e.at? ns := by
  rw [at?]

/-- **An entry is under its name**, if this stands once. -/
theorem lookup_eq_some_iff (hnodup : (es.map Prod.fst).Nodup) :
    es.lookup n = some e ↔ (n, e) ∈ es := by
  induction es with
  | nil => simp
  | cons g es ih =>
    obtain ⟨m, g⟩ := g
    obtain ⟨hm, hnodup⟩ := List.nodup_cons.mp hnodup
    rw [List.lookup_cons]
    by_cases h : n = m
    · subst h
      have hnot : (n, e) ∉ es := fun hmem => hm (List.mem_map.mpr ⟨_, hmem, rfl⟩)
      simp [hnot, eq_comm]
    · have hne : (n == m) = false := beq_eq_false_iff_ne.mpr h
      simp [hne, h, ih hnodup]

namespace IsSound

/-- A file is sound. -/
theorem file (content : ByteArray) : (Entry.file content).IsSound := by
  intro location es hat
  cases location <;> simp [at?] at hat

/-- A link is sound. -/
theorem link (target : String) : (Entry.link target).IsSound := by
  intro location es hat
  cases location <;> simp [at?] at hat

/-- A directory is sound when its names are, and everything in it. -/
theorem directory (hnodup : (es.map Prod.fst).Nodup)
    (hsteps : ∀ g ∈ es, (Component.name g.1).IsStep) (hall : ∀ g ∈ es, g.2.IsSound) :
    (Entry.directory es).IsSound := by
  intro location fs hat
  cases location with
  | nil =>
    obtain rfl : es = fs := by simpa [at?] using hat
    exact ⟨hnodup, hsteps⟩
  | cons n location =>
    rw [at?_directory, Option.bind_eq_some_iff] at hat
    obtain ⟨e, hlookup, hat⟩ := hat
    exact hall _ ((lookup_eq_some_iff hnodup).mp hlookup) location fs hat

/-- In a sound directory, every entry is sound. -/
theorem of_mem (h : IsSound (.directory es)) (hmem : (n, e) ∈ es) : e.IsSound := by
  intro location fs hat
  refine h (n :: location) fs ?_
  rw [at?_directory, (lookup_eq_some_iff (h [] es rfl).1).mpr hmem]
  exact hat

/-- What stands at a location in a sound directory. -/
theorem at?_cons_iff (h : IsSound (.directory es)) :
    (Entry.directory es).at? (n :: location) = some f
      ↔ ∃ e, (n, e) ∈ es ∧ e.at? location = some f := by
  rw [at?_directory, Option.bind_eq_some_iff]
  simp only [lookup_eq_some_iff (h [] es rfl).1]

/-- A location in a sound entry is made of names. -/
theorem isStep_of_at? (h : e.IsSound) (hat : e.at? location = some f) :
    ∀ n ∈ location, (Component.name n).IsStep := by
  induction location generalizing e with
  | nil => simp
  | cons n location ih =>
    cases e with
    | file content => simp [at?] at hat
    | link target => simp [at?] at hat
    | directory es =>
      obtain ⟨e, hmem, hat⟩ := h.at?_cons_iff.mp hat
      exact List.forall_mem_cons.mpr
        ⟨(h [] es rfl).2 _ hmem, ih (h.of_mem hmem) hat⟩

end IsSound

end Entry

open Entry

/-! ## What a walk finds

The walk asks of each entry whether it is kept, and does not go into one
that is not. So a file is found if every directory on the way to it is kept;
the walk never asks whether it would keep a file in a directory that it has
left out. -/

namespace Scan

variable {keep : Path → Bool} {p q r : Path} {e : Entry} {es : List (String × Entry)}
  {n : String} {location : List String}

/-- **Nothing is refused on the way** to a location, and neither is what
stands there. -/
def Keeps (keep : Path → Bool) (p : Path) (location : List String) : Prop :=
  ∀ front, front ≠ [] → front <+: location → keep (p.below front) = true

/-- Nothing is on the way to where the walk starts. -/
theorem keeps_nil : Keeps keep p [] := fun _ hne hfront => absurd (List.prefix_nil.mp hfront) hne

/-- The first name may not be refused, nor what follows it. -/
theorem keeps_cons_iff : Keeps keep p (n :: location)
    ↔ keep (p.join ⟨n⟩) = true ∧ Keeps keep (p.join ⟨n⟩) location := by
  constructor
  · intro h
    refine ⟨h [n] (List.cons_ne_nil _ _) ⟨location, rfl⟩, fun front hne hfront => ?_⟩
    exact h (n :: front) (List.cons_ne_nil _ _) (List.cons_prefix_cons.mpr ⟨rfl, hfront⟩)
  · rintro ⟨hn, h⟩ front hne hfront
    cases front with
    | nil => exact absurd rfl hne
    | cons m front =>
      obtain ⟨rfl, hrest⟩ := List.cons_prefix_cons.mp hfront
      cases front with
      | nil => exact hn
      | cons l front => exact h (l :: front) (List.cons_ne_nil _ _) hrest

/-- What is found in a directory is found in one of its entries. -/
theorem mem_filesIn_iff : q ∈ filesIn keep p es
    ↔ ∃ n e, (n, e) ∈ es ∧ keep (p.join ⟨n⟩) = true ∧ q ∈ filesAt keep (p.join ⟨n⟩) e := by
  induction es with
  | nil => simp [filesIn]
  | cons g es ih =>
    obtain ⟨m, g⟩ := g
    rw [filesIn, List.mem_append, ih]
    by_cases h : keep (p.join ⟨m⟩) = true <;> aesop

/-- **A walk finds the regular files** to which it is kept on every step. -/
theorem mem_filesAt_iff (h : e.IsSound) : q ∈ filesAt keep p e
    ↔ ∃ location content, e.at? location = some (.file content) ∧ q = p.below location
      ∧ Keeps keep p location := by
  induction e using Entry.induct generalizing p with
  | file content =>
    rw [filesAt, List.mem_singleton]
    constructor
    · rintro rfl
      exact ⟨[], content, rfl, rfl, keeps_nil⟩
    · rintro ⟨location, content', hat, rfl, -⟩
      cases location with
      | nil => rfl
      | cons n location => simp [at?] at hat
  | link target =>
    rw [filesAt]
    refine iff_of_false List.not_mem_nil ?_
    rintro ⟨location, content, hat, -⟩
    cases location <;> simp [at?] at hat
  | directory es ih =>
    -- the first name of a location picks the entry in which the rest is looked up
    rw [filesAt, mem_filesIn_iff]
    constructor
    · rintro ⟨n, e, hmem, hkeep, hq⟩
      obtain ⟨location, content, hat, rfl, hkeeps⟩ := (ih n e hmem (h.of_mem hmem)).mp hq
      exact ⟨n :: location, content, h.at?_cons_iff.mpr ⟨e, hmem, hat⟩, rfl,
        keeps_cons_iff.mpr ⟨hkeep, hkeeps⟩⟩
    · rintro ⟨location, content, hat, rfl, hkeeps⟩
      cases location with
      | nil => simp [at?] at hat
      | cons n location =>
        obtain ⟨e, hmem, hat⟩ := h.at?_cons_iff.mp hat
        obtain ⟨hkeep, hkeeps⟩ := keeps_cons_iff.mp hkeeps
        exact ⟨n, e, hmem, hkeep,
          (ih n e hmem (h.of_mem hmem)).mpr ⟨location, content, hat, rfl, hkeeps⟩⟩

/-- The files of a walk are below where it starts. -/
theorem components_of_mem_filesAt (h : e.IsSound) (hq : q ∈ filesAt keep p e) :
    ∃ names : List String, q.components = p.components ++ names.map .name := by
  obtain ⟨location, content, hat, rfl, -⟩ := (mem_filesAt_iff h).mp hq
  exact ⟨location, Path.components_below p (h.isStep_of_at? hat)⟩

/-- The files under different names are different. -/
theorem same_of_names {m n : String} {f : Entry} (hmn : m ≠ n) (hm : (Component.name m).IsStep)
    (hn : (Component.name n).IsStep) (he : e.IsSound) (hf : f.IsSound)
    (hq : q ∈ filesAt keep (p.join ⟨m⟩) e) (hr : r ∈ filesAt keep (p.join ⟨n⟩) f) :
    q.same r = false := by
  obtain ⟨ms, hms⟩ := components_of_mem_filesAt he hq
  obtain ⟨ns, hns⟩ := components_of_mem_filesAt hf hr
  rw [Path.components_join_name p hm, List.append_assoc] at hms
  rw [Path.components_join_name p hn, List.append_assoc] at hns
  refine Bool.eq_false_iff.mpr fun hsame => hmn ?_
  rw [Path.same_iff, hms, hns, List.append_cancel_left_eq] at hsame
  simpa using (List.cons.inj hsame).1

/-- **A walk finds no file twice.** -/
theorem distinct_filesAt (h : e.IsSound) : Path.Distinct (filesAt keep p e) := by
  induction e using Entry.induct generalizing p with
  | file content => exact List.pairwise_singleton _ _
  | link target => exact List.Pairwise.nil
  | directory es ih =>
    rw [filesAt]
    obtain ⟨hnodup, hsteps⟩ := h [] es rfl
    have hsound : ∀ n e, (n, e) ∈ es → e.IsSound := fun n e hmem => h.of_mem hmem
    clear h
    induction es with
    | nil => exact List.Pairwise.nil
    | cons g es ihes =>
      obtain ⟨n, e⟩ := g
      obtain ⟨hn, hnodup⟩ := List.nodup_cons.mp hnodup
      obtain ⟨hstep, hsteps⟩ := List.forall_mem_cons.mp hsteps
      have he := hsound n e List.mem_cons_self
      rw [filesIn, Path.Distinct, List.pairwise_append]
      refine ⟨?_, ihes (fun m f hmem => ih m f (List.mem_cons_of_mem _ hmem)) hnodup hsteps
        (fun m f hmem => hsound m f (List.mem_cons_of_mem _ hmem)), ?_⟩
      · split
        · exact ih n e List.mem_cons_self he
        · exact List.Pairwise.nil
      · intro q hq r hr
        obtain ⟨m, f, hmem, -, hr⟩ := mem_filesIn_iff.mp hr
        have hmn : n ≠ m := fun heq => hn (List.mem_map.mpr ⟨_, hmem, heq.symm⟩)
        split at hq
        · exact same_of_names hmn hstep (hsteps _ hmem) he
            (hsound m f (List.mem_cons_of_mem _ hmem)) hq hr
        · cases hq

end Scan

/-! ## The same test

The test of a notification is about the whole path, the test of the walk
about each front of it. They agree because what makes a path left out stays
so for all that is below: this is where it counts that names anywhere in a
path are looked at. -/

namespace Settings

variable {s : Settings} {root : Path} {names : List String}

/-- **Pruning keeps what the test keeps.** Nothing on the way to a location
is left out exactly if what stands there is not. -/
theorem keeps_iff (hnames : ∀ n ∈ names, (Component.name n).IsStep) (hne : names ≠ []) :
    Scan.Keeps (fun p => !s.isExcluded root p) root names
      ↔ s.isExcluded root (root.below names) = false := by
  constructor
  · intro h
    simpa using h names hne List.prefix_rfl
  · intro h front _ hfront
    rw [Bool.not_eq_true']
    refine Bool.eq_false_iff.mpr fun hexcluded => Bool.eq_false_iff.mp h ?_
    have hsteps : ∀ n ∈ front, (Component.name n).IsStep :=
      fun n hn => hnames n (hfront.subset hn)
    rw [isExcluded_iff (Path.components_below root hnames)]
    rcases (isExcluded_iff (Path.components_below root hsteps)).mp hexcluded with
      hcache | ⟨n, hn, hmem⟩
    · exact .inl (hcache.trans (hfront.map Component.name))
    · exact .inr ⟨n, hfront.subset hn, hmem⟩

end Settings

/-- **The scan and the notifications find the same files.** The scan lists,
in ascending order and each once, the regular files below the root that are
reached without following links, have the extension of stylesheets and are
not left out. The same two tests pass the paths of a notification, unless it
is one of reading.

The scan does not enter a directory that is left out, and asks for the
extension of files only. That it misses nothing by this is so because what
is left out is decided by the components of a path from the root on: a file
in a directory that is left out is left out itself. -/
theorem scanStylesheets_spec {t : Tree} {root : Path} {es : List (String × Entry)}
    (s : Settings) (hroot : t.entry root = .ok (.directory es))
    (hsound : (directory es).IsSound) :
    Path.Ascending (scanStylesheets t s root)
      ∧ (∀ p, p ∈ scanStylesheets t s root
        ↔ (∃ location content, (directory es).at? location = some (.file content)
            ∧ p = root.below location)
          ∧ s.isStylesheet p = true ∧ s.isExcluded root p = false)
      ∧ ∀ (n : Notification) (p : Path), p ∈ n.stylesheets s root
        ↔ (n.kind ≠ .access ∧ p ∈ n.paths)
          ∧ s.isStylesheet p = true ∧ s.isExcluded root p = false := by
  have hscan : scanStylesheets t s root = Path.sort ((Scan.filesAt
      (fun p => !s.isExcluded root p) root (.directory es)).filter s.isStylesheet) := by
    rw [scanStylesheets, hroot]
  refine ⟨?_, fun p => ?_, fun n p => ?_⟩
  · rw [hscan]
    exact Path.ascending_sort (List.Pairwise.filter _ (Scan.distinct_filesAt hsound))
  · rw [hscan, Path.mem_sort, List.mem_filter, Scan.mem_filesAt_iff hsound]
    constructor
    · rintro ⟨⟨location, content, hat, rfl, hkeeps⟩, hsheet⟩
      have hne : location ≠ [] := by
        rintro rfl
        simp [at?] at hat
      exact ⟨⟨location, content, hat, rfl⟩, hsheet,
        (Settings.keeps_iff (hsound.isStep_of_at? hat) hne).mp hkeeps⟩
    · rintro ⟨⟨location, content, hat, rfl⟩, hsheet, hexcluded⟩
      have hne : location ≠ [] := by
        rintro rfl
        simp [at?] at hat
      exact ⟨⟨location, content, hat, rfl,
        (Settings.keeps_iff (hsound.isStep_of_at? hat) hne).mpr hexcluded⟩, hsheet⟩
  · rw [← Bool.not_eq_true', ← Bool.and_eq_true]
    show _ ↔ _ ∧ s.isSource root p = true
    unfold Notification.stylesheets
    cases n.kind <;> simp

/-- A project with a stylesheet in a directory, a link, and a directory that
is left out. -/
def smallProject : List (String × Entry) :=
  [("node_modules", .directory [("a.css", .file .empty)]),
    ("x", .directory [("b.CSS", .file .empty), ("c.css", .link "b.CSS")])]

/-- Of a small project, the scan lists the stylesheet that is neither a link
nor left out. -/
theorem scanStylesheets_spec_of_smallProject :
    (Tree.mk (.directory [("p", .directory smallProject)]) []).entry ⟨"/p"⟩
        = .ok (.directory smallProject)
      ∧ (Entry.directory smallProject).IsSound
      ∧ ⟨"/p/x/b.CSS"⟩ ∈ scanStylesheets
        (Tree.mk (.directory [("p", .directory smallProject)]) []) {} ⟨"/p"⟩
      ∧ ⟨"/p/node_modules/a.css"⟩ ∉ scanStylesheets
        (Tree.mk (.directory [("p", .directory smallProject)]) []) {} ⟨"/p"⟩ := by
  have hroot : (Tree.mk (.directory [("p", .directory smallProject)]) []).entry ⟨"/p"⟩
      = .ok (.directory smallProject) := by cbv
  have hexcluded : (Entry.directory [("a.css", .file .empty)]).IsSound :=
    .directory (by decide) (by simp [Component.IsStep]) (by simp [IsSound.file])
  have hsheets : (Entry.directory [("b.CSS", .file .empty), ("c.css", .link "b.CSS")]).IsSound :=
    .directory (by decide) (by simp [Component.IsStep]) (by simp [IsSound.file, IsSound.link])
  have hsound : (Entry.directory smallProject).IsSound :=
    .directory (by decide) (by simp [smallProject, Component.IsStep])
      (by simp [smallProject, hexcluded, hsheets])
  obtain ⟨-, hmem, -⟩ := scanStylesheets_spec {} hroot hsound
  refine ⟨hroot, hsound, (hmem _).mpr ⟨⟨["x", "b.CSS"], .empty, by cbv, by decide⟩, ?_⟩, ?_⟩
  · decide +kernel
  · intro h
    exact absurd ((hmem _).mp h).2.2 (by decide +kernel)

end Stylebook
