import Mathlib.Data.List.Forall2

/-!
# Steps that may fail

A sequence of steps succeeds when each of them does, and else it fails as
the first one that does not. These lemmas take such a sequence apart, so
that nothing else has to open the monad of failures: two steps after each
other, one step for each element of a list, and a state that each element of
a list takes one step further.

Of a state, what holds at the end of a run that succeeds is proved from one
step, with the steps that the run really made (`Except.foldlM_induction`);
and a run that fails is one that succeeded up to the step that failed
(`Except.foldlM_eq_error`).
-/

namespace Stylebook

namespace Except

variable {ε α β : Type} {f f' : α → Except ε β} {as : List α}

/-- What is evaluated as an option is an answer. A kernel that decides an
equation of answers may have to compare the reasons of failures, so the
examples of this library are decided on options and brought back by this. -/
theorem eq_ok_of_toOption {r : Except ε α} {a : α} (h : r.toOption = some a) : r = .ok a := by
  cases r with
  | error e => cases h
  | ok b => exact congrArg _ (Option.some.inj h)

/-- An answer that is known to be there can be named. -/
theorem exists_eq_ok {r : Except ε α} (h : r.toOption.isSome = true) : ∃ a, r = .ok a := by
  obtain ⟨a, ha⟩ := Option.isSome_iff_exists.mp h
  exact ⟨a, eq_ok_of_toOption ha⟩

/-- An answer with a property that was decided can be named, and has it. A
computation is then run once for both. -/
theorem exists_of_any {r : Except ε α} {p : α → Bool} (h : r.toOption.any p = true) :
    ∃ a, r = .ok a ∧ p a = true := by
  cases r with
  | error e => cases h
  | ok a => exact ⟨a, rfl, h⟩

/-- A sequence of two steps succeeds exactly when its steps do, one with the
answer of the other. This is the inversion that all lemmas about programs
with failures are made of. -/
theorem bind_eq_ok {r : Except ε α} {g : α → Except ε β} {b : β} :
    r >>= g = .ok b ↔ ∃ a, r = .ok a ∧ g a = .ok b := by
  cases r with
  | ok a => simp [bind, Except.bind]
  | error e => simp [bind, Except.bind]

/-- A sequence of two steps fails as its first step does, or as the second
one does on the answer of the first. So where the reason of a failure
matters, it is told which step it is from. -/
theorem bind_eq_error {r : Except ε α} {g : α → Except ε β} {e : ε} :
    r >>= g = .error e ↔ r = .error e ∨ ∃ a, r = .ok a ∧ g a = .error e := by
  cases r with
  | ok a => simp [bind, Except.bind]
  | error e => simp [bind, Except.bind]

/-- Two sequences with the same first step are the same where they go on
alike. -/
theorem bind_congr {r : Except ε α} {g g' : α → Except ε β} (h : ∀ a, r = .ok a → g a = g' a) :
    r >>= g = r >>= g' := by
  cases r with
  | ok a => exact h a rfl
  | error e => rfl

/-- The answers for a list are that for its first element and those for the
others, in this order. -/
theorem mapM_cons (f : α → Except ε β) (a : α) (as : List α) :
    (a :: as).mapM f = f a >>= fun b => as.mapM f >>= fun bs => .ok (b :: bs) :=
  List.mapM_cons

/-- Lists are answered alike by steps that agree on their elements. -/
theorem mapM_congr (h : ∀ a ∈ as, f a = f' a) : as.mapM f = as.mapM f' := by
  induction as with
  | nil => rfl
  | cons a as ih =>
    rw [mapM_cons, mapM_cons, h a List.mem_cons_self,
      ih fun b hb => h b (List.mem_cons_of_mem _ hb)]

/-- If all answers are there, so is the list of them. -/
theorem mapM_eq_map {g : α → β} (h : ∀ a ∈ as, f a = .ok (g a)) : as.mapM f = .ok (as.map g) := by
  induction as with
  | nil => rfl
  | cons a as ih =>
    rw [mapM_cons, h a List.mem_cons_self, ih fun b hb => h b (List.mem_cons_of_mem _ hb)]
    rfl

/-- The answers for a list, if all of them are there, stand in the order of
its elements, one for each. -/
theorem mapM_eq_ok {bs : List β} (h : as.mapM f = .ok bs) :
    List.Forall₂ (fun a b => f a = .ok b) as bs := by
  induction as generalizing bs with
  | nil =>
    cases h
    exact List.Forall₂.nil
  | cons a as ih =>
    rw [mapM_cons, bind_eq_ok] at h
    obtain ⟨b, hb, h⟩ := h
    obtain ⟨bs, hbs, h⟩ := bind_eq_ok.mp h
    cases h
    exact List.Forall₂.cons hb (ih hbs)

/-- If a list is answered, so is each of its elements. -/
theorem exists_of_mapM_ok {bs : List β} (h : as.mapM f = .ok bs) {a : α} (ha : a ∈ as) :
    ∃ b, f a = .ok b := by
  obtain ⟨i, hi, rfl⟩ := List.getElem_of_mem ha
  have hall := mapM_eq_ok h
  exact ⟨_, List.forall₂_iff_get.mp hall |>.2 i hi (hall.length_eq ▸ hi)⟩

/-- Each answer of a list is that to one of its elements. -/
theorem exists_of_mem_mapM {bs : List β} (h : as.mapM f = .ok bs) {b : β} (hb : b ∈ bs) :
    ∃ a ∈ as, f a = .ok b := by
  obtain ⟨i, hi, rfl⟩ := List.getElem_of_mem hb
  have hall := mapM_eq_ok h
  have hi' : i < as.length := hall.length_eq ▸ hi
  exact ⟨as[i], List.getElem_mem hi', List.forall₂_iff_get.mp hall |>.2 i hi' hi⟩

/-- A list of answers fails as one of them does: there is no failure that is
the list's own. -/
theorem exists_of_mapM_error {e : ε} (h : as.mapM f = .error e) :
    ∃ a ∈ as, f a = .error e := by
  induction as with
  | nil => cases h
  | cons a as ih =>
    rw [mapM_cons, bind_eq_error] at h
    rcases h with ha | ⟨b, -, h⟩
    · exact ⟨a, List.mem_cons_self, ha⟩
    · rcases bind_eq_error.mp h with has | ⟨bs, -, h⟩
      · obtain ⟨c, hc, hfc⟩ := ih has
        exact ⟨c, List.mem_cons_of_mem _ hc, hfc⟩
      · cases h

/-! ## A state and its steps

A run takes a state through a list of steps and stops at the first that
fails. The lemmas on it are stated for a run that is known to have
succeeded, with the state it led to: a run that fails has no last state, so
there is nothing else to speak of. -/

section Steps

variable {step : β → α → Except ε β} {as as' : List α} {a : α} {b c : β} {e : ε}

@[simp] theorem foldlM_nil_eq_ok : ([] : List α).foldlM step b = .ok c ↔ c = b := by
  rw [List.foldlM_nil]
  exact ⟨fun h => (Except.ok.inj h).symm, fun h => congrArg _ h.symm⟩

theorem foldlM_cons_eq_ok : (a :: as).foldlM step b = .ok c
    ↔ ∃ b', step b a = .ok b' ∧ as.foldlM step b' = .ok c := by
  rw [List.foldlM_cons]
  exact bind_eq_ok

/-- A run over two lists is a run over the first and then one over the
second, from where the first one ended. -/
theorem foldlM_append_eq_ok : (as ++ as').foldlM step b = .ok c
    ↔ ∃ b', as.foldlM step b = .ok b' ∧ as'.foldlM step b' = .ok c := by
  rw [List.foldlM_append]
  exact bind_eq_ok

/-- **What each step keeps, a run keeps** that comes to its end. Each step
is given with the state before it and the one after, and with the equation
between them, so that what is asked of a step is what its own lemma says. -/
theorem foldlM_induction {motive : β → Prop} (hrun : as.foldlM step b = .ok c)
    (hstart : motive b)
    (hstep : ∀ a ∈ as, ∀ b b', step b a = .ok b' → motive b → motive b') : motive c := by
  induction as generalizing b with
  | nil =>
    rw [foldlM_nil_eq_ok.mp hrun]
    exact hstart
  | cons a as ih =>
    obtain ⟨b', hfirst, hrest⟩ := foldlM_cons_eq_ok.mp hrun
    exact ih hrest (hstep a List.mem_cons_self b b' hfirst hstart)
      fun d hd => hstep d (List.mem_cons_of_mem a hd)

/-- **A run fails at one of its steps**, with the state that the steps
before it led to. It is the first step that fails, for the steps before it
have a state to show. -/
theorem foldlM_eq_error : as.foldlM step b = .error e
    ↔ ∃ before a after b', as = before ++ a :: after ∧ before.foldlM step b = .ok b'
      ∧ step b' a = .error e := by
  constructor
  · intro h
    induction as generalizing b with
    | nil => cases h
    | cons a as ih =>
      rw [List.foldlM_cons, bind_eq_error] at h
      rcases h with hnow | ⟨b', hfirst, hrest⟩
      · exact ⟨[], a, as, b, rfl, rfl, hnow⟩
      · obtain ⟨before, d, after, c, rfl, hbefore, hfails⟩ := ih hrest
        exact ⟨a :: before, d, after, c, rfl, foldlM_cons_eq_ok.mpr ⟨b', hfirst, hbefore⟩, hfails⟩
  · rintro ⟨before, a, after, b', rfl, hbefore, hfails⟩
    rw [List.foldlM_append, hbefore]
    show (a :: after).foldlM step b' = _
    rw [List.foldlM_cons, hfails]
    rfl

end Steps

/-! ## Whether there is an answer

Some statements are about whether a text is accepted, in whatever words it
is refused. They are about options, and a sequence of steps becomes one of
options. -/

/-- Whatever the reason for a failure, a sequence answers when its steps do. -/
theorem toOption_bind (r : Except ε α) (g : α → Except ε β) :
    (r >>= g).toOption = r.toOption.bind fun a => (g a).toOption := by
  cases r <;> rfl

/-- A list is answered as its elements are, without the reasons of failures. -/
theorem toOption_mapM (f : α → Except ε β) (as : List α) :
    (as.mapM f).toOption = as.mapM fun a => (f a).toOption := by
  induction as with
  | nil => rfl
  | cons a as ih =>
    rw [mapM_cons, List.mapM_cons, toOption_bind]
    refine congrArg ((f a).toOption.bind ·) (funext fun b => ?_)
    rw [toOption_bind, ih]
    rfl

end Except

end Stylebook
