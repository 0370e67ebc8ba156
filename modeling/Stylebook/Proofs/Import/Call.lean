import Mathlib.Logic.Relation
import Mathlib.Tactic.Push
import Stylebook.Compile
import Stylebook.Proofs.Except

/-!
# The calls of the inlining

Inlining a stylesheet calls itself for every import that it meets. A `Call`
is what such a call is given: a source text at its path, inside of the
statements of its enclosing targets. What it does is then four things, each
with a definition here: its `text` is the source without the enclosing
statements, its `targets` are the imports named in that text, `Call.Makes`
says which further calls it makes, and `Call.result` is what it answers when
at most so many statements may stand inside of each other.

The bound is a matter of the program and not of its meaning, and the lemmas
below take it out of sight. A call that answers anything but that its
imports have no end answers the same with a larger bound (`Call.result_le`);
and the answer depends on the store only through what is read below the call
(`Call.result_congr_store`).
-/

namespace Stylebook

/-- A file that cannot be read is named by the failure. -/
theorem FileStore.eq_read_of_fetch {σ : Type} [FileStore σ] {store : σ} {p : Path} {e : Stop}
    (h : FileStore.fetch store p = .error e) : ∃ cause, e = .failed (.read p cause) := by
  unfold FileStore.fetch at h
  split at h
  · cases h
  · cases h
    exact ⟨_, rfl⟩

/-- That imports have no end: the answer of a call that ran into its bound.
With a bound that is chosen for the files it means more, namely that no
bound is large enough (`Proofs/Import/Adequacy`). -/
def Endless {α : Type} (r : Except Stop α) : Prop := r = .error (.crashed .endlessImports)

namespace Endless

variable {α β : Type}

/-- What has a result has an end. -/
@[simp] theorem not_ok (a : α) : ¬Endless (.ok a : Except Stop α) := nofun

/-- One error says that imports have no end, and the others do not. -/
theorem error_iff {e : Stop} :
    Endless (.error e : Except Stop α) ↔ e = .crashed .endlessImports := by
  simp [Endless]

/-- Reading a file never comes upon endless imports. -/
theorem not_fetch {σ : Type} [FileStore σ] (store : σ) (p : Path) :
    ¬Endless (FileStore.fetch store p) := by
  intro h
  obtain ⟨cause, hcause⟩ := FileStore.eq_read_of_fetch h
  cases hcause

/-- Of two steps, the first one has no end, or it has a result and the
second one has no end. -/
theorem bind_iff {r : Except Stop α} {f : α → Except Stop β} :
    Endless (r >>= f) ↔ Endless r ∨ ∃ a, r = .ok a ∧ Endless (f a) := by
  cases r with
  | ok a => simp [bind, Except.bind]
  | error e => simp [bind, Except.bind, error_iff]

/-- What is made of the result does not matter. -/
theorem map_iff {r : Except Stop α} {f : α → β} : Endless (r.map f) ↔ Endless r := by
  cases r with
  | ok a => simp [Except.map]
  | error e => simp [Except.map, error_iff]

end Endless

/-! ## Gathering the answers of several calls

The imports of a call are gone through in order, and the first one that
fails ends it. So raising the bound might let an earlier import come to
its end and show another failure. The next two statements keep track of
this. -/

namespace Except

variable {α β : Type} {f f' : α → Except Stop β} {as : List α}

/-- If every answer is endless or stays the same, so is the list of them. -/
theorem mapM_eq_or_endless (h : ∀ a ∈ as, Endless (f a) ∨ f a = f' a) :
    Endless (as.mapM f) ∨ as.mapM f = as.mapM f' := by
  induction as with
  | nil => exact Or.inr rfl
  | cons a as ih =>
    rw [mapM_cons, mapM_cons]
    rcases h a List.mem_cons_self with ha | ha
    · exact Or.inl (Endless.bind_iff.mpr (Or.inl ha))
    rw [← ha]
    cases hfa : f a with
    | error e => exact Or.inr rfl
    | ok b =>
      rcases ih fun c hc => h c (List.mem_cons_of_mem _ hc) with has | has
      · exact Or.inl (Endless.bind_iff.mpr (Or.inr ⟨b, rfl, Endless.bind_iff.mpr (Or.inl has)⟩))
      · rw [has]
        exact Or.inr rfl

/-- If the list of answers stops being endless, one of the answers does. -/
theorem exists_of_mapM_endless (h : ∀ a ∈ as, Endless (f a) ∨ f a = f' a)
    (hf : Endless (as.mapM f)) (hf' : ¬Endless (as.mapM f')) :
    ∃ a ∈ as, Endless (f a) ∧ ¬Endless (f' a) := by
  induction as with
  | nil => exact absurd hf (Endless.not_ok _)
  | cons a as ih =>
    rw [mapM_cons, Endless.bind_iff] at hf hf'
    push Not at hf'
    rcases hf with ha | ⟨b, hb, hrest⟩
    · exact ⟨a, List.mem_cons_self, ha, hf'.1⟩
    · have hab : f' a = .ok b := by
        rcases h a List.mem_cons_self with ha | ha
        · rw [hb] at ha
          exact absurd ha (Endless.not_ok _)
        · rw [← ha, hb]
      rw [Endless.bind_iff] at hrest
      have hrest' := hf'.2 b hab
      rw [Endless.bind_iff] at hrest'
      push Not at hrest'
      have hfas : Endless (as.mapM f) :=
        hrest.resolve_right fun ⟨bs, _, hbs⟩ => Endless.not_ok _ hbs
      obtain ⟨c, hc, hends⟩ := ih (fun c hc => h c (List.mem_cons_of_mem _ hc)) hfas hrest'.1
      exact ⟨c, List.mem_cons_of_mem _ hc, hends⟩

end Except

/-- **A call of the inlining**: a source at its path, inside of the
statements of the enclosing targets. -/
structure Call where
  enclosing : List String
  origin : Path
  source : String

namespace Call

open Import

/-- The text in which the call looks for imports. -/
def text (c : Call) : List Char := stripAll c.enclosing c.source.toList

/-- The imports that the call looks up, each once. -/
def targets (c : Call) : List String := (importTargets (String.ofList c.text)).eraseDups

/-- The path of an import of the call. -/
def path (c : Call) (target : String) : Path := importPath c.origin target

/-- The call for an import whose text is `imported`. -/
def inner (c : Call) (target imported : String) : Call :=
  ⟨c.enclosing ++ [target], c.path target, imported⟩

/-- It is at the path of the import. -/
theorem origin_inner (c : Call) (target imported : String) :
    (c.inner target imported).origin = c.path target := by
  rw [inner]

/-- How many statements stand around the call: its depth in the recursion. -/
def depth (c : Call) : Nat := c.enclosing.length

variable {σ : Type} [FileStore σ]

/-- **One call makes another**: for an import that it names, with the text
that is read there. -/
def Makes (store : σ) (c d : Call) : Prop :=
  ∃ target ∈ c.targets, ∃ imported,
    FileStore.fetch store (c.path target) = .ok imported ∧ d = c.inner target imported

/-- What a call answers when at most `bound` statements may stand inside of
it. -/
def result (store : σ) (bound : Nat) (c : Call) : Except Stop String :=
  inlineBelow store bound c.enclosing c.origin c.source

/-- What a call puts in the place of one of its imports. -/
def part (store : σ) (bound : Nat) (c : Call) (target : String) : Except Stop String := do
  result store bound (c.inner target (← FileStore.fetch store (c.path target)))

/-- The text of a call with its imports replaced, one after the other. -/
def replaced (c : Call) (parts : List String) : String :=
  String.ofList ((c.targets.zip parts).foldl
    (fun text e => replaceAll e.1.toList e.2.toList text) c.text)

/-- The steps of a loop that replaces each import by its part. -/
theorem foldlM_replaceAll (f : String → Except Stop String) (ts : List String)
    (text : List Char) :
    ts.foldlM (fun text t => do return replaceAll t.toList (← f t).toList text) text
      = (ts.mapM f).map fun parts =>
          (ts.zip parts).foldl (fun text e => replaceAll e.1.toList e.2.toList text) text := by
  induction ts generalizing text with
  | nil => rfl
  | cons t ts ih =>
    rw [List.foldlM_cons, Except.mapM_cons]
    cases hft : f t with
    | error e => rfl
    | ok part =>
      refine (ih (replaceAll t.toList part.toList text)).trans ?_
      cases ts.mapM f with
      | error e => rfl
      | ok parts => rfl

/-- Without the keyword in its text a call looks up nothing. -/
theorem targets_eq_nil {c : Call} (h : Text.hasInfix keyword c.text = false) :
    c.targets = [] := by
  rw [targets, importTargets, String.toList_ofList, h]
  rfl

/-- Without a further statement, only a text without the keyword is
answered. -/
theorem result_zero (store : σ) (c : Call) :
    result store 0 c = if Text.hasInfix keyword c.text = true
      then .error (.crashed .endlessImports) else .ok (String.ofList c.text) := by
  rw [result, inlineBelow]
  show (if !Text.hasInfix keyword c.text then Except.ok (String.ofList c.text)
    else Except.error (Stop.crashed .endlessImports)) = _
  cases Text.hasInfix keyword c.text <;> rfl

/-- **What a call answers**: the text with each import replaced by its part,
or the first failure of a part. -/
theorem result_succ (store : σ) (bound : Nat) (c : Call) :
    result store (bound + 1) c = (c.targets.mapM (part store bound c)).map c.replaced := by
  have hloop : result store (bound + 1) c
      = if !Text.hasInfix keyword c.text then Except.ok (String.ofList c.text)
        else (c.targets.foldlM (fun text t => do
            return replaceAll t.toList (← part store bound c t).toList text) c.text)
          >>= fun text => Except.ok (String.ofList text) := by
    simp only [part, bind_assoc]
    rw [result, inlineBelow]
    rfl
  rw [hloop]
  -- without the keyword there are no targets, and the loop would leave the text as it is
  by_cases hkey : Text.hasInfix keyword c.text = true
  · rw [hkey, foldlM_replaceAll]
    cases c.targets.mapM (part store bound c) with
    | error e => rfl
    | ok parts => rfl
  · rw [Bool.not_eq_true] at hkey
    rw [hkey, targets_eq_nil hkey]
    show _ = Except.ok (c.replaced [])
    rw [replaced, targets_eq_nil hkey]
    rfl

/-- The part of an import that can be read is what its call answers. -/
theorem part_eq_of_fetch {store : σ} {bound : Nat} {c : Call} {target imported : String}
    (h : FileStore.fetch store (c.path target) = .ok imported) :
    part store bound c target = result store bound (c.inner target imported) := by
  rw [part, h]
  rfl

/-- The part of an import that cannot be read is the failure. -/
theorem part_eq_of_error {store : σ} {bound : Nat} {c : Call} {target : String} {e : Stop}
    (h : FileStore.fetch store (c.path target) = .error e) :
    part store bound c target = .error e := by
  rw [part, h]
  rfl

/-! ## Larger bounds

The bound counts statements inside of each other. It is lowered by one for
each call, so that a call with a larger bound makes the same calls with
larger bounds, and the induction goes along the bound. -/

/-- If the calls that a call makes are endless or stay the same, so are its
parts. -/
theorem part_eq_or_endless {store : σ} {bound bound' : Nat} {c : Call}
    (h : ∀ d, Makes store c d →
      Endless (result store bound d) ∨ result store bound d = result store bound' d)
    {t : String} (ht : t ∈ c.targets) :
    Endless (part store bound c t) ∨ part store bound c t = part store bound' c t := by
  cases hfetch : FileStore.fetch store (c.path t) with
  | error e => exact Or.inr (by rw [part_eq_of_error hfetch, part_eq_of_error hfetch])
  | ok imported =>
    rw [part_eq_of_fetch hfetch, part_eq_of_fetch hfetch]
    exact h _ ⟨t, ht, imported, hfetch, rfl⟩

/-- A larger bound changes no answer but that imports have no end. -/
theorem result_succ_of_not_endless (store : σ) (bound : Nat) (c : Call) :
    Endless (result store bound c) ∨ result store bound c = result store (bound + 1) c := by
  induction bound generalizing c with
  | zero =>
    rw [result_zero]
    by_cases hkey : Text.hasInfix keyword c.text = true
    · rw [if_pos hkey]
      exact Or.inl rfl
    · rw [if_neg hkey, result_succ, targets_eq_nil (by simpa using hkey)]
      refine Or.inr (Eq.symm ?_)
      show Except.ok (c.replaced []) = _
      rw [replaced, targets_eq_nil (by simpa using hkey)]
      rfl
  | succ bound ih =>
    rw [result_succ, result_succ store (bound + 1)]
    have hparts : ∀ t ∈ c.targets,
        Endless (part store bound c t) ∨ part store bound c t = part store (bound + 1) c t :=
      fun t ht => part_eq_or_endless (fun d _ => ih d) ht
    rcases Except.mapM_eq_or_endless hparts with h | h
    · exact Or.inl (Endless.map_iff.mpr h)
    · exact Or.inr (congrArg _ h)

/-- **A call that comes to an end gives the same answer with every larger
bound.** -/
theorem result_le {store : σ} {bound bound' : Nat} {c : Call}
    (h : ¬Endless (result store bound c)) (hle : bound ≤ bound') :
    result store bound' c = result store bound c := by
  induction hle with
  | refl => rfl
  | step _ ih =>
    rw [← ih] at h
    rw [← ih]
    exact ((result_succ_of_not_endless store _ c).resolve_left h).symm

/-- So does a part of it. -/
theorem part_le_of_not_endless {store : σ} {bound bound' : Nat} {c : Call} {target : String}
    (h : ¬Endless (part store bound c target)) (hle : bound ≤ bound') :
    part store bound' c target = part store bound c target := by
  cases hfetch : FileStore.fetch store (c.path target) with
  | error e => rw [part_eq_of_error hfetch, part_eq_of_error hfetch]
  | ok imported =>
    rw [part_eq_of_fetch hfetch] at h
    rw [part_eq_of_fetch hfetch, part_eq_of_fetch hfetch, result_le h hle]

/-- A part that is there stays with every larger bound. -/
theorem part_le {store : σ} {bound bound' : Nat} {c : Call} {target text : String}
    (h : part store bound c target = .ok text) (hle : bound ≤ bound') :
    part store bound' c target = .ok text := by
  rw [part_le_of_not_endless (by rw [h]; exact Endless.not_ok _) hle, h]

/-- Where one more bound makes a call come to an end, it does so for one of
the calls that it makes. -/
theorem exists_makes {store : σ} {bound : Nat} {c : Call}
    (h : Endless (result store (bound + 1) c)) (h' : ¬Endless (result store (bound + 2) c)) :
    ∃ d, Makes store c d ∧ Endless (result store bound d)
      ∧ ¬Endless (result store (bound + 1) d) := by
  rw [result_succ, Endless.map_iff] at h h'
  have hparts : ∀ t ∈ c.targets,
      Endless (part store bound c t) ∨ part store bound c t = part store (bound + 1) c t :=
    fun t ht => part_eq_or_endless (fun d _ => result_succ_of_not_endless store bound d) ht
  obtain ⟨t, ht, hends, hends'⟩ := Except.exists_of_mapM_endless hparts h h'
  cases hfetch : FileStore.fetch store (c.path t) with
  | error e =>
    rw [part_eq_of_error hfetch, ← hfetch] at hends
    exact absurd hends (Endless.not_fetch store _)
  | ok imported =>
    rw [part_eq_of_fetch hfetch] at hends hends'
    exact ⟨c.inner t imported, ⟨t, ht, imported, hfetch, rfl⟩, hends, hends'⟩

/-! ## What is read below a call

A call reads the files that its imports name, and those below it read
others. Nothing else of the store is looked at. In the end this is why a
stylesheet keeps its result while other files change. -/

/-- **What the call reads**: two stores with the same files at every path
that is looked up below a call give it the same answer. -/
theorem result_congr_store {τ : Type} [FileStore τ] {store : σ} {store' : τ} {c : Call}
    (h : ∀ d, Relation.ReflTransGen (Makes store) c d → ∀ t ∈ d.targets,
      FileStore.fetch store' (d.path t) = FileStore.fetch store (d.path t))
    (bound : Nat) : result store' bound c = result store bound c := by
  induction bound generalizing c with
  | zero => rw [result_zero, result_zero]
  | succ bound ih =>
    rw [result_succ, result_succ]
    refine congrArg _ (Except.mapM_congr fun t ht => ?_)
    have hsame := h c Relation.ReflTransGen.refl t ht
    cases hfetch : FileStore.fetch store (c.path t) with
    | error e =>
      rw [hfetch] at hsame
      rw [part_eq_of_error hsame, part_eq_of_error hfetch]
    | ok imported =>
      rw [hfetch] at hsame
      rw [part_eq_of_fetch hsame, part_eq_of_fetch hfetch]
      exact ih fun d hd => h d (hd.head ⟨t, ht, imported, hfetch, rfl⟩)

/-- The same calls are then made. -/
theorem makes_congr_store {τ : Type} [FileStore τ] {store : σ} {store' : τ} {c : Call}
    (h : ∀ d, Relation.ReflTransGen (Makes store) c d → ∀ t ∈ d.targets,
      FileStore.fetch store' (d.path t) = FileStore.fetch store (d.path t))
    {d : Call} (hd : Relation.ReflTransGen (Makes store') c d) :
    Relation.ReflTransGen (Makes store) c d := by
  induction hd with
  | refl => exact Relation.ReflTransGen.refl
  | tail _ hmakes ih =>
    obtain ⟨t, ht, imported, hfetch, rfl⟩ := hmakes
    rw [h _ ih t ht] at hfetch
    exact ih.tail ⟨t, ht, imported, hfetch, rfl⟩

/-- A text means that each part is there. -/
theorem exists_part_of_result_succ {store : σ} {bound : Nat} {c : Call} {text target : String}
    (h : result store (bound + 1) c = .ok text) (ht : target ∈ c.targets) :
    ∃ text', part store bound c target = .ok text' := by
  rw [result_succ] at h
  cases hmap : c.targets.mapM (part store bound c) with
  | error e =>
    rw [hmap] at h
    cases h
  | ok parts => exact Except.exists_of_mapM_ok hmap ht

/-- **A call that answers with a text** has an answer for each of its
imports. -/
theorem exists_inner_of_result_succ {store : σ} {bound : Nat} {c : Call}
    {text target imported : String} (h : result store (bound + 1) c = .ok text)
    (ht : target ∈ c.targets) (hfetch : FileStore.fetch store (c.path target) = .ok imported) :
    ∃ text', result store bound (c.inner target imported) = .ok text' := by
  obtain ⟨text', hpart⟩ := exists_part_of_result_succ h ht
  exact ⟨text', (part_eq_of_fetch hfetch).symm.trans hpart⟩

/-- Without a further statement there is no import to answer for. -/
theorem exists_bound_of_result {store : σ} {bound : Nat} {c : Call} {text target : String}
    (h : result store bound c = .ok text) (ht : target ∈ c.targets) :
    ∃ bound', bound = bound' + 1 := by
  cases bound with
  | zero =>
    rw [result_zero] at h
    split at h
    · cases h
    · rename_i hkey
      rw [targets_eq_nil (by simpa using hkey)] at ht
      cases ht
  | succ bound => exact ⟨bound, rfl⟩

/-- It finds each of them. -/
theorem exists_fetch_of_result {store : σ} {bound : Nat} {c : Call} {text target : String}
    (h : result store bound c = .ok text) (ht : target ∈ c.targets) :
    ∃ imported, FileStore.fetch store (c.path target) = .ok imported := by
  obtain ⟨bound, rfl⟩ := exists_bound_of_result h ht
  obtain ⟨text', hpart⟩ := exists_part_of_result_succ h ht
  cases hfetch : FileStore.fetch store (c.path target) with
  | ok imported => exact ⟨imported, rfl⟩
  | error e =>
    rw [part_eq_of_error hfetch] at hpart
    cases hpart

/-- Every call below it answers with a text too. -/
theorem exists_result_of_reach {store : σ} {bound : Nat} {c d : Call} {text : String}
    (h : result store bound c = .ok text) (hreach : Relation.ReflTransGen (Makes store) c d) :
    ∃ bound' text', result store bound' d = .ok text' := by
  induction hreach with
  | refl => exact ⟨bound, text, h⟩
  | tail _ hmakes ih =>
    obtain ⟨bound', text', hresult⟩ := ih
    obtain ⟨t, ht, imported, hfetch, rfl⟩ := hmakes
    obtain ⟨bound, rfl⟩ := exists_bound_of_result hresult ht
    exact ⟨bound, exists_inner_of_result_succ hresult ht hfetch⟩

/-- A call answers with a text, with an import that cannot be read, or that
imports have no end. -/
theorem result_cases (store : σ) (bound : Nat) (c : Call) :
    (∃ text, result store bound c = .ok text)
      ∨ (∃ p cause, result store bound c = .error (.failed (.read p cause)))
      ∨ Endless (result store bound c) := by
  induction bound generalizing c with
  | zero =>
    rw [result_zero]
    split
    · exact Or.inr (Or.inr rfl)
    · exact Or.inl ⟨_, rfl⟩
  | succ bound ih =>
    rw [result_succ]
    cases hmap : c.targets.mapM (part store bound c) with
    | ok parts => exact Or.inl ⟨_, rfl⟩
    | error e =>
      -- the first import that fails tells the failure
      obtain ⟨t, -, hpart⟩ := Except.exists_of_mapM_error hmap
      cases hfetch : FileStore.fetch store (c.path t) with
      | error e' =>
        rw [part_eq_of_error hfetch] at hpart
        cases hpart
        obtain ⟨cause, rfl⟩ := FileStore.eq_read_of_fetch hfetch
        exact Or.inr (Or.inl ⟨_, cause, rfl⟩)
      | ok imported =>
        rw [part_eq_of_fetch hfetch] at hpart
        rcases ih (c.inner t imported) with ⟨_, h⟩ | ⟨p, cause, h⟩ | h
        · rw [h] at hpart
          cases hpart
        · rw [h] at hpart
          cases hpart
          exact Or.inr (Or.inl ⟨p, cause, rfl⟩)
        · rw [h] at hpart
          cases hpart
          exact Or.inr (Or.inr rfl)

end Call

end Stylebook
