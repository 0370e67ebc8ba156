import Mathlib.Data.List.ReduceOption
import Stylebook.Proofs.Css.Scanned
import Stylebook.Proofs.Css.Sequence

/-!
# Lexemes without gaps

The text of a function has its tokens one behind the other, and nothing
where white space stood between them. Tokens that stood side by side are
still read as they were, since what follows each of them starts no more than
before (`Lexeme.IsReadAt.of_noMore`): the next token is the same, and what
is behind that token matters only to a sign or a point, which would not be a
token by itself then (`Lexeme.IsReadAt.not_joins`). Where there was a gap,
the two tokens at its sides are compared side by side (`KeepApart`). If all
of these keep apart, the lexemes without gaps are read as they are
(`readsOn_reduceOption`).

Lexemes that are read as they are can be told from their text, because the
same token is read from the same text (`ReadsOn.eq_of_text`).
-/

namespace Stylebook.Css

variable {l m : Lexeme} {c : Char} {u v w cs : List Char}

/-! ## Side by side

What may go wrong between two tokens, and why it does not. The next token is
the same with the gap and without it. Only a sign or a point could make
something new of it, when it stands alone in front of a name or a number;
and a sign or a point that stood there before was read with what follows. -/

/-- A number that a sign or a point starts has more characters. -/
theorem numberLength_pos (hc : c = '+' ∨ c = '-' ∨ c = '.') (h : startsNumber (c :: cs) = true) :
    0 < numberLength c cs := by
  have hdigits : startsDigit cs = true → 0 < digitsLength cs := by
    intro hstart
    rw [Nat.pos_iff_ne_zero]
    intro hzero
    rw [digitsLength_eq_zero_iff.mp hzero] at hstart
    cases hstart
  unfold numberLength
  dsimp only
  rcases or_assoc.mpr hc with hsign | rfl
  · rw [startsNumber_sign hsign, Bool.or_eq_true, decide_eq_true_eq] at h
    have hpoint : c ≠ '.' := by rcases hsign with rfl | rfl <;> decide
    rw [if_neg hpoint]
    by_cases hstart : startsDigit cs = true
    · have := hdigits hstart
      omega
    · rw [digitsLength_eq_zero_iff.mpr (Bool.eq_false_iff.mpr hstart), List.drop_zero]
      have := h.resolve_left hstart
      omega
  · have := hdigits h
    omega

/-- **A sign or a point is no token in front of what it belongs to.** -/
theorem Lexeme.IsReadAt.not_joins {d : Char} (h : l.IsReadAt (d :: w))
    (hkept : l.token.isKept = true) (htext : l.text = [c]) : ¬Joins c d := by
  intro hjoins
  obtain ⟨c', u, htext', hscan⟩ := h
  obtain ⟨rfl, rfl⟩ := List.cons.inj (htext.symm.trans htext')
  have hc : c = '+' ∨ c = '-' ∨ c = '.' := by
    rcases hjoins with ⟨rfl, -⟩ | ⟨rfl | rfl, -⟩ <;> simp
  rcases scan_cases_of_isKept hkept hscan with ⟨rfl, -⟩ | ⟨hnumber, hnumeric⟩
    | ⟨hident, -, -, hname⟩ | ⟨-, -, hnumber, hident⟩
  · simp at hc
  · have hle := numberLength_le_numeric c (d :: w)
    rw [List.nil_append] at hnumeric hnumber
    rw [hnumeric] at hle
    exact absurd hle (Nat.not_le.mpr (numberLength_pos hc hnumber))
  · rcases hjoins with ⟨rfl, hd⟩ | ⟨rfl | rfl, -⟩
    · exact absurd (congrArg Prod.snd hname) (identLike_hyphen_ne_zero hd w)
    · rw [startsIdent_cons (by decide) (by decide)] at hident
      cases hident
    · rw [startsIdent_cons (by decide) (by decide)] at hident
      cases hident
  · rcases hjoins with ⟨rfl, hd⟩ | ⟨rfl | rfl, hd⟩
    · rcases cases_of_isNameChar hd with hd | hd | rfl
      · simp [startsIdent, hd] at hident
      · simp [startsNumber_sign, startsDigit, hd] at hnumber
      · cases hident
    · simp [startsNumber_sign, startsDigit, hd] at hnumber
    · simp [startsNumber_point, startsDigit, hd] at hnumber

/-- **A lexeme that stands in the text of a function**, written without
escapes. It was read in some text. -/
structure Lexeme.IsKept (l : Lexeme) : Prop where
  token : l.token.isKept = true
  unescaped : Unescaped l.text
  read : ∃ w, l.IsReadAt w

/-- A lexeme has a text. -/
theorem Lexeme.IsKept.text_ne_nil (h : l.IsKept) : l.text ≠ [] := by
  obtain ⟨-, c, u, htext, -⟩ := h.read
  rw [htext]
  exact List.cons_ne_nil c u

/-- A bracket that is kept is the parenthesis of a function. -/
theorem Lexeme.IsKept.eq_of_closer {b : Bracket} (h : b.closer.IsKept) : b = .paren := by
  have hkept := h.token
  cases b <;> first | rfl | cases hkept

/-- Only the delimiter starts with this character. -/
theorem Lexeme.IsKept.eq_of_head (h : l.IsKept) (hhead : l.text.head? = some '<') :
    l = ⟨.delim '<', ['<']⟩ := by
  obtain ⟨w, c, u, htext, hscan⟩ := h.read
  obtain ⟨t, text⟩ := l
  obtain rfl : text = c :: u := htext
  obtain rfl : c = '<' := Option.some.inj hhead
  rcases scan_cases_of_isKept h.token hscan with ⟨hhash, -⟩ | ⟨hnumber, -⟩ | ⟨hident, -⟩
    | ⟨hlength, ht, -⟩
  · cases hhash
  · cases hnumber
  · rw [startsIdent_cons (by decide) (by decide)] at hident
    cases hident
  · obtain rfl := List.length_eq_zero_iff.mp hlength
    rcases ht with rfl | rfl <;> rfl

/-- **What follows a lexeme starts no more** when more is written behind it. -/
theorem noMore_append (hm : m.IsKept) (h : m.text.head? = some '<' ∨ m.IsReadAt v) (w : List Char) :
    NoMore (m.text ++ v) (m.text ++ w) := by
  obtain ⟨w', c, u, htext, -⟩ := hm.read
  refine ⟨.inl (by rw [htext]; rfl), fun d e r heq hjoins => ?_⟩
  rw [htext] at heq ⊢
  obtain ⟨rfl, hrest⟩ := List.cons.inj heq
  cases u with
  | cons e' u =>
    obtain rfl : e' = e := (List.cons.inj hrest).1
    exact ⟨u ++ w, rfl⟩
  | nil =>
    obtain rfl : v = e :: r := hrest
    rcases h with hlt | hread
    · rw [htext] at hlt
      obtain rfl := Option.some.inj hlt
      rcases hjoins with ⟨hc, -⟩ | ⟨hc | hc, -⟩ <;> cases hc
    · exact absurd hjoins (hread.not_joins hm.token htext)

/-- A parenthesis that closes starts nothing. -/
theorem noMore_closer (v : List Char) : NoMore (Bracket.paren.closer.text ++ v) [] := by
  refine ⟨.inr ⟨rfl, rfl⟩, fun d e r heq hjoins => ?_⟩
  obtain ⟨rfl, -⟩ := List.cons.inj heq
  rcases hjoins with ⟨hc, -⟩ | ⟨hc | hc, -⟩ <;> cases hc

/-- **A lexeme is read in front of a rest that starts no more.** -/
theorem Lexeme.IsReadAt.of_noMore (h : l.IsReadAt w) (hl : l.IsKept) (hlt : l.text.head? ≠ some '<')
    (hv : Unescaped v) (hmore : NoMore v w) : l.IsReadAt v := by
  obtain ⟨c, u, htext, hscan⟩ := h
  refine ⟨c, u, htext, scan_eq hmore (htext ▸ hl.unescaped) hv hl.token ?_ hscan⟩
  rintro rfl
  rw [htext] at hlt
  exact hlt rfl

/-! ## Lexemes one behind the other

Each lexeme is read in front of the text of all others, and so the text is
read as these lexemes. It is a condition on each of them, and the induction
goes along the list from its end. -/

/-- **Lexemes that are read as they are** when nothing is left between them.
A comment mark might start with the delimiter `<`, but nothing else that
starts so is kept. -/
def ReadsOn : List Lexeme → Prop
  | [] => True
  | l :: ls => (l.text.head? = some '<' ∨ l.IsReadAt (ls.flatMap Lexeme.text)) ∧ ReadsOn ls

/-- **Lexemes that are read as they are can be told from their text.** -/
theorem ReadsOn.eq_of_text {ls ms : List Lexeme} (hls : ReadsOn ls) (hms : ReadsOn ms)
    (kls : ∀ l ∈ ls, l.IsKept) (kms : ∀ m ∈ ms, m.IsKept)
    (h : ls.flatMap Lexeme.text = ms.flatMap Lexeme.text) : ls = ms := by
  have hne : ∀ {l : Lexeme} {ls : List Lexeme}, l.IsKept →
      (l :: ls).flatMap Lexeme.text ≠ [] := by
    intro l ls hl hnil
    exact hl.text_ne_nil (List.append_eq_nil_iff.mp hnil).1
  induction ls generalizing ms with
  | nil =>
    cases ms with
    | nil => rfl
    | cons m ms => exact absurd h.symm (hne (kms m List.mem_cons_self))
  | cons l ls ih =>
    cases ms with
    | nil => exact absurd h (hne (kls l List.mem_cons_self))
    | cons m ms =>
      obtain ⟨hl, hrest⟩ := List.forall_mem_cons.mp kls
      obtain ⟨hm, hrest'⟩ := List.forall_mem_cons.mp kms
      suffices heq : l = m by
        subst heq
        rw [List.flatMap_cons, List.flatMap_cons] at h
        rw [ih hls.2 hms.2 hrest hrest' (List.append_cancel_left h)]
      rw [List.flatMap_cons, List.flatMap_cons] at h
      have hhead : l.text.head? = m.text.head? := by
        obtain ⟨-, c, u, hltext, -⟩ := hl.read
        obtain ⟨-, d, v, hmtext, -⟩ := hm.read
        rw [hltext, hmtext] at h ⊢
        exact congrArg some (List.cons.inj h).1
      by_cases hlt : l.text.head? = some '<'
      · rw [hl.eq_of_head hlt, hm.eq_of_head (hhead ▸ hlt)]
      · obtain ⟨c, u, hltext, hlscan⟩ := hls.1.resolve_left hlt
        obtain ⟨d, v, hmtext, hmscan⟩ := hms.1.resolve_left (hhead ▸ hlt)
        rw [hltext, hmtext] at h
        obtain ⟨rfl, hrests⟩ := List.cons.inj h
        -- the same token is read from the same text
        have hrests : u ++ ls.flatMap Lexeme.text = v ++ ms.flatMap Lexeme.text := hrests
        rw [hrests, hmscan] at hlscan
        obtain ⟨htoken, hlength⟩ := Prod.mk.inj hlscan
        obtain ⟨rfl, -⟩ := List.append_inj hrests hlength.symm
        obtain ⟨t, text⟩ := l
        obtain ⟨t', text'⟩ := m
        exact congr (congrArg Lexeme.mk htoken.symm) (hltext.trans hmtext.symm)

/-- Without escapes in the parts there are none in the whole. -/
theorem unescaped_flatMap {ls : List Lexeme} (h : ∀ l ∈ ls, l.IsKept) :
    Unescaped (ls.flatMap Lexeme.text) := by
  induction ls with
  | nil => decide
  | cons l ls ih =>
    obtain ⟨hl, hrest⟩ := List.forall_mem_cons.mp h
    exact Unescaped.append_iff.mpr ⟨hl.unescaped, ih hrest⟩

/-! ## Lexemes with gaps

The other half of it are gaps, of which nothing is known in advance. Two
numbers side by side are one number. So the condition is put on the pairs at
the sides of each gap, and it is one that can be decided by reading the two. -/

/-- **The pairs of lexemes between which something was left out.** What was
left out is `none`. -/
def parted : List (Option Lexeme) → List (Lexeme × Lexeme)
  | [] => []
  | none :: ls => parted ls
  | some l :: ls =>
    let next := if ls.head? = some none then ls.reduceOption.head? else none
    (next.map fun m => (l, m)).toList ++ parted ls

/-- **Two lexemes keep apart** when they are read as they are side by side. -/
def KeepApart (p : Lexeme × Lexeme) : Prop := lex (p.1.text ++ p.2.text) = [p.1, p.2]

instance : DecidablePred KeepApart := fun _ => inferInstanceAs (Decidable (_ = _))

/-- **What was read in front of what**, where there is no gap. -/
def Precede (x y : Option Lexeme) : Prop := ∀ l ∈ x, ∀ m ∈ y, l.Precedes m

/-- One more lexeme in front takes no pair away. -/
theorem parted_subset_cons (x : Option Lexeme) (ls : List (Option Lexeme)) :
    parted ls ⊆ parted (x :: ls) := by
  cases x with
  | none => exact List.Subset.refl _
  | some l => exact List.subset_append_right _ _

/-- **A lexeme is read in front of the next one** without the gap between
them, if there is one and the two keep apart. -/
theorem Lexeme.IsKept.isReadAt_reduceOption {ls : List (Option Lexeme)} {ms : List Lexeme}
    (hl : l.IsKept) (hlt : l.text.head? ≠ some '<') (hkept : ∀ k ∈ m :: ms, k.IsKept)
    (hm : m.text.head? = some '<' ∨ m.IsReadAt (ms.flatMap Lexeme.text))
    (hnext : ∀ y ∈ ls.head?, Precede (some l) y)
    (hparted : ∀ p ∈ parted (some l :: ls), KeepApart p) (hreduce : ls.reduceOption = m :: ms) :
    l.IsReadAt ((m :: ms).flatMap Lexeme.text) := by
  have hmkept : m.IsKept := hkept m List.mem_cons_self
  have hv : Unescaped ((m :: ms).flatMap Lexeme.text) := unescaped_flatMap hkept
  rw [List.flatMap_cons] at hv ⊢
  have hbefore : ∀ w, l.IsReadAt (m.text ++ w) → l.IsReadAt (m.text ++ ms.flatMap Lexeme.text) :=
    fun w h => h.of_noMore hl hlt hv (noMore_append hmkept hm w)
  cases ls with
  | nil => cases hreduce
  | cons next ls =>
    cases next with
    | none =>
      have hpair : (l, m) ∈ parted (some l :: none :: ls) := by
        rw [parted, List.head?_cons, if_pos rfl, hreduce]
        exact List.mem_cons_self
      refine hbefore [] ?_
      rw [List.append_nil]
      exact Lexeme.isReadAt_of_lex hmkept.text_ne_nil (hparted (l, m) hpair)
    | some k =>
      rw [List.reduceOption_cons_of_some] at hreduce
      obtain rfl : k = m := (List.cons.inj hreduce).1
      obtain ⟨w, h⟩ | ⟨⟨b, rfl⟩, h⟩ := hnext (some k) rfl l rfl k rfl
      · exact hbefore w h
      · obtain rfl := hmkept.eq_of_closer
        exact h.of_noMore hl hlt hv (noMore_closer _)

/-- **Lexemes with gaps are read as they are** without the gaps, if those
keep apart between which there is one. -/
theorem readsOn_reduceOption {ls : List (Option Lexeme)} (hread : ls.IsChain Precede)
    (hparted : ∀ p ∈ parted ls, KeepApart p) (hkept : ∀ l, some l ∈ ls → l.IsKept)
    (hlast : ∀ l ∈ ls.reduceOption.getLast?, l = Bracket.paren.closer) :
    ReadsOn ls.reduceOption := by
  induction ls with
  | nil => trivial
  | cons first ls ih =>
    have hrest : ∀ l, some l ∈ ls → l.IsKept := fun l hl => hkept l (List.mem_cons_of_mem _ hl)
    obtain ⟨hnext, htail⟩ := List.isChain_cons.mp hread
    have ih := ih htail (fun p hp => hparted p (parted_subset_cons first ls hp)) hrest
    cases first with
    | none => exact ih hlast
    | some l =>
      have hl : l.IsKept := hkept l List.mem_cons_self
      rw [List.reduceOption_cons_of_some] at hlast ⊢
      cases hreduce : ls.reduceOption with
      | nil =>
        rw [hreduce] at hlast
        obtain rfl := hlast l rfl
        exact ⟨.inr (Bracket.isReadAt_closer .paren _), trivial⟩
      | cons m ms =>
        rw [hreduce] at hlast ih
        have hon : ReadsOn (m :: ms) := ih (by rwa [List.getLast?_cons_cons] at hlast)
        have hmem : ∀ k ∈ m :: ms, k.IsKept :=
          fun k hk => hrest k (List.reduceOption_mem_iff.mp (hreduce ▸ hk))
        refine ⟨or_iff_not_imp_left.mpr fun hlt => ?_, hon⟩
        exact hl.isReadAt_reduceOption hlt hmem hon.1 hnext hparted hreduce

end Stylebook.Css
