import Stylebook.Proofs.Css.Ending

/-!
# Closed texts

A text is closed when nothing in it is open at its end: no string, no
comment, no address in `url(…)` and no escape. Each of these takes in
whatever comes behind the text, so a text is closed exactly when a curly
bracket behind it is read as a bracket (`IsClosed`).

A space and a curly bracket behind a closed text leave its lexemes as they
are, but for the end: the space is a lexeme of its own there, or it belongs
to the last lexeme, which is white space or ends with an escape
(`IsClosed.exists_lex_append`). And a space in front of a closed text is a
lexeme of its own, or the text starts with white space
(`IsClosed.exists_lex_cons`).
-/

namespace Stylebook.Css

/-- **A text is closed** when a curly bracket behind it is read as one. The
condition is on the lexemes, so that it can be decided for any text. In
words, nothing is open at its end.

It is not asked that the brackets in the text are balanced. Whether a
bracket has its partner is a question about lexemes and not about
characters, and it is asked later. -/
def IsClosed (cs : List Char) : Prop := lex (cs ++ ['}']) = lex cs ++ [⟨.closing .curly, ['}']⟩]

instance (cs : List Char) : Decidable (IsClosed cs) :=
  inferInstanceAs (Decidable (lex (cs ++ ['}']) = _))

/-- A string, a comment, an address and an escape, closed and then open. -/
example : (∀ text ∈ ["'b\\' c'", "/* b */", "url( b )", "url(b c)", "\\7b"], IsClosed text.toList)
    ∧ ∀ text ∈ ["'b\\'", "/* b *", "url( b ", "url(b c", "\\"], ¬IsClosed text.toList := by
  decide +kernel

/-! ## One token

For each scanner there are two cases, the one where its end is in sight and
the one where the text ends first. Closed texts leave the first case only.
But it has to be found out for each scanner that the second one would have
taken the bracket. -/

section Tokens

variable {w : List Char}

/-- A token that is no bracket, and no name with one. -/
def Token.isFlat : Token → Bool
  | .opening _ | .closing _ | .function _ => false
  | _ => true

/-- **A token is settled** in a text of length `len`: it stops there, and it
is no bracket if it takes a space that comes behind. -/
def Settles (len : Nat) (p : Token × Nat) (q : List Char → Token × Nat) : Prop :=
  p.2 ≤ len ∧ ((∀ w, AtCurly w → q w = p)
    ∨ p.1.isFlat = true ∧ p.2 = len ∧ ∀ w, AtCurly w → q w = (p.1, len + 1))

/-- A scanner of a flat token settles where it stops. -/
theorem Stops.settles {len : Nat} {p : Token × Nat} {q : List Char → Token × Nat}
    (h : Stops len p q) (hflat : p.1.isFlat = true) : Settles len p q :=
  ⟨h.1, h.2.imp id fun h => ⟨hflat, h⟩⟩

/-- What does not come next in a text does not come next in front of an
edge. -/
theorem head?_append_ne {d e : Char} (hd : d ≠ e) {cs : List Char} (h : cs.head? ≠ some e)
    (w : List Char) : (cs ++ d :: w).head? ≠ some e := by
  cases cs with
  | nil => simpa using hd
  | cons c cs => exact h

/-! ### Names -/

/-- A parenthesis behind a name makes it a function, or an address if the
name is that of one. -/
theorem identLike_of_paren {cs rest : List Char} (h : cs.drop (name cs).2 = '(' :: rest) :
    identLike cs = if Text.lower (String.ofList (name cs).1) = "url" then
        ((afterUrl (String.ofList (name cs).1) rest).1,
          (name cs).2 + (afterUrl (String.ofList (name cs).1) rest).2)
      else (.function (String.ofList (name cs).1), (name cs).2) := by
  unfold identLike
  dsimp only
  rw [h]
  rfl

/-- Without a parenthesis behind it a name is read as a name. -/
theorem identLike_of_other {cs : List Char} (h : (cs.drop (name cs).2).head? ≠ some '(') :
    identLike cs = (.ident (String.ofList (name cs).1), (name cs).2 - 1) := by
  unfold identLike
  dsimp only
  split
  · rename_i hparen
    rw [hparen] at h
    exact absurd rfl h
  · rfl

/-- An identifier is not shorter than its name. -/
theorem le_identLike (cs : List Char) : (name cs).2 - 1 ≤ (identLike cs).2 := by
  by_cases h : (cs.drop (name cs).2).head? = some '('
  · obtain ⟨rest, hrest⟩ := List.head?_eq_some_iff.mp h
    rw [identLike_of_paren hrest]
    split
    · exact Nat.le_trans (Nat.sub_le _ _) (Nat.le_add_right _ _)
    · exact Nat.sub_le _ _
  · rw [identLike_of_other h]

/-- **An identifier is settled**, and so is a function or an address. -/
theorem identLike_settles (c : Char) (cs : List Char)
    (h : (identLike (c :: cs ++ ['}'])).2 ≤ cs.length) :
    Settles cs.length (identLike (c :: cs ++ ['}'])) fun w => identLike (c :: cs ++ ' ' :: w) := by
  have hname : (name (c :: cs ++ ['}'])).2 ≤ (c :: cs).length := by
    have hle := Nat.le_trans (le_identLike (c :: cs ++ ['}'])) h
    rw [List.length_cons]
    omega
  obtain ⟨hle, heq | ⟨hlength, heq⟩⟩ := name_stops (c :: cs) hname
  · refine ⟨h, .inl fun w hw => ?_⟩
    show identLike (c :: cs ++ ' ' :: w) = _
    have hrest : ∀ w, (c :: cs ++ w).drop (name (c :: cs ++ ['}'])).2
        = (c :: cs).drop (name (c :: cs ++ ['}'])).2 ++ w :=
      fun w => List.drop_append_of_le_length hle
    have heq : name (c :: cs ++ ' ' :: w) = name (c :: cs ++ ['}']) := heq w hw
    by_cases hparen : ((c :: cs).drop (name (c :: cs ++ ['}'])).2).head? = some '('
    · obtain ⟨rest, hrest'⟩ := List.head?_eq_some_iff.mp hparen
      have hdrop : ∀ w, (c :: cs ++ w).drop (name (c :: cs ++ ['}'])).2 = '(' :: (rest ++ w) :=
        fun w => by rw [hrest, hrest']; rfl
      have hlength := congrArg List.length hrest'
      simp only [List.length_drop, List.length_cons] at hlength
      rw [identLike_of_paren (hdrop _)] at h ⊢
      rw [identLike_of_paren (heq.symm ▸ hdrop _), heq]
      split at h <;> rename_i hurl
      · rw [if_pos hurl, if_pos hurl,
          afterUrl_append_of_closed hw _ rest (by dsimp only at h; omega)]
      · rw [if_neg hurl, if_neg hurl]
    · have hother : ∀ d t, d = ' ' ∨ d = '}' →
          ((c :: cs ++ d :: t).drop (name (c :: cs ++ ['}'])).2).head? ≠ some '(' := by
        intro d t hd
        rw [hrest]
        exact head?_append_ne (by rcases hd with rfl | rfl <;> decide) hparen t
      rw [identLike_of_other (hother _ _ (.inr rfl)),
        identLike_of_other (heq.symm ▸ hother _ _ (.inl rfl)), heq]
  · -- the name takes the space, and a curly bracket follows
    have hbracket : ((c :: cs ++ ['}']).drop (name (c :: cs ++ ['}'])).2).head? ≠ some '(' := by
      rw [hlength, List.drop_left]
      decide
    rw [identLike_of_other hbracket, hlength]
    refine ⟨Nat.le_refl _, .inr ⟨rfl, rfl, fun w hw => ?_⟩⟩
    have heq : name (c :: cs ++ ' ' :: w)
      = ((name (c :: cs ++ ['}'])).1, (c :: cs).length + 1) := heq w hw
    have hspace : ((c :: cs ++ ' ' :: w).drop
        (name (c :: cs ++ ' ' :: w)).2).head? ≠ some '(' := by
      have hdrop : (c :: cs ++ ' ' :: w).drop ((c :: cs).length + 1) = w := by simp
      rw [heq, hdrop]
      rcases hw.head?_eq with hhead | hhead <;> rw [hhead] <;> decide
    show identLike (c :: cs ++ ' ' :: w) = _
    rw [identLike_of_other hspace, heq]
    rfl

/-! ### Numbers -/

/-- A percent sign behind a number belongs to it. -/
theorem numeric_of_percent {first : Char} {cs rest : List Char}
    (h : cs.drop (numberLength first cs) = '%' :: rest) :
    numeric first cs = (.percentage, numberLength first cs + 1) := by
  unfold numeric
  dsimp only
  rw [h]
  rfl

/-- Without a percent sign behind it, a number takes a name behind it as its
unit, and is a number alone where no name starts. -/
theorem numeric_of_other {first : Char} {cs : List Char}
    (h : (cs.drop (numberLength first cs)).head? ≠ some '%') : numeric first cs
      = if startsIdent (cs.drop (numberLength first cs)) then
          (.dimension (String.ofList (name (cs.drop (numberLength first cs))).1),
            numberLength first cs + (name (cs.drop (numberLength first cs))).2)
        else (.number, numberLength first cs) := by
  unfold numeric
  dsimp only
  split
  · rename_i hpercent
    rw [hpercent] at h
    exact absurd rfl h
  · rfl

/-- **A number is settled**, with what is attached to it. -/
theorem numeric_settles (first : Char) (cs : List Char)
    (h : (numeric first (cs ++ ['}'])).2 ≤ cs.length) :
    Settles cs.length (numeric first (cs ++ ['}'])) fun w => numeric first (cs ++ ' ' :: w) := by
  have hle := numberLength_le cs first
  have hnumber : ∀ d t, d = ' ' ∨ d = '}' →
      (cs ++ d :: t).drop (numberLength first (cs ++ d :: t))
        = cs.drop (numberLength first cs) ++ d :: t := by
    intro d t hd
    rw [numberLength_append hd, List.drop_append_of_le_length hle]
  -- no number goes over the edge, so what stands behind it is the rest of `cs`
  by_cases hpercent : (cs.drop (numberLength first cs)).head? = some '%'
  · obtain ⟨rest, hrest⟩ := List.head?_eq_some_iff.mp hpercent
    have hdrop : ∀ d t, d = ' ' ∨ d = '}' →
        (cs ++ d :: t).drop (numberLength first (cs ++ d :: t)) = '%' :: (rest ++ d :: t) :=
      fun d t hd => by rw [hnumber d t hd, hrest]; rfl
    refine ⟨h, .inl fun w _ => ?_⟩
    show numeric first (cs ++ ' ' :: w) = _
    rw [numeric_of_percent (hdrop _ _ (.inr rfl)), numeric_of_percent (hdrop _ _ (.inl rfl)),
      numberLength_append (.inr rfl), numberLength_append (.inl rfl)]
  · have hother : ∀ d t, d = ' ' ∨ d = '}' → numeric first (cs ++ d :: t)
        = if startsIdent (cs.drop (numberLength first cs)) then
            (.dimension (String.ofList (name (cs.drop (numberLength first cs) ++ d :: t)).1),
              numberLength first cs + (name (cs.drop (numberLength first cs) ++ d :: t)).2)
          else (.number, numberLength first cs) := by
      intro d t hd
      have hhead : ((cs ++ d :: t).drop (numberLength first (cs ++ d :: t))).head? ≠ some '%' := by
        rw [hnumber d t hd]
        exact head?_append_ne (by rcases hd with rfl | rfl <;> decide) hpercent t
      rw [numeric_of_other hhead, hnumber d t hd, startsIdent_append hd, numberLength_append hd]
    rw [hother _ _ (.inr rfl)] at h ⊢
    simp only [hother _ _ (.inl rfl)]
    by_cases hident : startsIdent (cs.drop (numberLength first cs)) = true
    · simp only [if_pos hident] at h ⊢
      have hlength : (cs.drop (numberLength first cs)).length + numberLength first cs
          = cs.length := by
        rw [List.length_drop]
        omega
      have hname := (name_stops (cs.drop (numberLength first cs)) (by omega)).shift
        (fun v => Token.dimension (String.ofList v)) (numberLength first cs)
      simp only [hlength, Nat.add_comm _ (numberLength first cs)] at hname
      exact hname.settles rfl
    · simp only [if_neg hident]
      exact (Stops.refl hle).settles rfl

/-! ### Any token -/

/-- A mark that is looked for is not completed by an edge. -/
theorem isSome_dropFront?_append {d : Char} {front : List Char} (hd : d ∉ front)
    (cs r : List Char) :
    (Text.dropFront? front (cs ++ d :: r)).isSome = (Text.dropFront? front cs).isSome := by
  rw [Bool.eq_iff_iff, Text.isSome_dropFront?_iff, Text.isSome_dropFront?_iff]
  exact ⟨fun h => Text.prefix_of_notMem h hd, fun h => h.trans (List.prefix_append _ _)⟩

/-- **Which token starts does not depend on the edge**, only what the
scanner of this token reads. -/
theorem scan_append {d : Char} (hd : d = ' ' ∨ d = '}') (c : Char) (cs t : List Char) :
    scan c (cs ++ d :: t) = if isSpace c then (.blank, ((cs ++ d :: t).takeWhile isSpace).length)
      else if c = '"' || c = '\'' then
        match quoted c (cs ++ d :: t) with
        | (some text, n) => (.str (String.ofList text), n)
        | (none, n) => (.badStr, n)
      else if c = '#' then
        if startsIdent cs || startsDigit cs || cs.head? = some '-' then
          (.hash (String.ofList (name (cs ++ d :: t)).1), (name (cs ++ d :: t)).2)
        else (.delim '#', 0)
      else if c = '@' then
        if startsIdent cs then
          (.atKeyword (String.ofList (name (cs ++ d :: t)).1), (name (cs ++ d :: t)).2)
        else (.delim '@', 0)
      else if startsNumber (c :: cs) then numeric c (cs ++ d :: t)
      else if c = '-' && (Text.dropFront? ['-', '>'] cs).isSome then (.embedMark, 2)
      else if c = '<' && (Text.dropFront? ['!', '-', '-'] cs).isSome then (.embedMark, 3)
      else if c = '/' && cs.head? = some '*' then
        (.comment, commentLength ((cs ++ d :: t).drop 1) + 1)
      else if startsIdent (c :: cs) then identLike (c :: cs ++ d :: t)
      else if c = '$' || c = '*' || c = '^' || c = '|' || c = '~' then
        attributeMark c (cs ++ d :: t)
      else (punctuation c, 0) := by
  have hhead : ∀ e : Char, e ≠ ' ' → e ≠ '}' →
      decide ((cs ++ d :: t).head? = some e) = decide (cs.head? = some e) := by
    intro e hspace hcurly
    cases cs with
    | nil => rcases hd with rfl | rfl <;> simp [hspace.symm, hcurly.symm]
    | cons c cs => rfl
  have hnumber : startsNumber (c :: (cs ++ d :: t)) = startsNumber (c :: cs) :=
    startsNumber_append hd (c :: cs) t
  have hident : startsIdent (c :: (cs ++ d :: t)) = startsIdent (c :: cs) :=
    startsIdent_append hd (c :: cs) t
  have hmark : (Text.dropFront? ['-', '>'] (cs ++ d :: t)).isSome
      = (Text.dropFront? ['-', '>'] cs).isSome :=
    isSome_dropFront?_append (by rcases hd with rfl | rfl <;> decide) cs t
  have hmark' : (Text.dropFront? ['!', '-', '-'] (cs ++ d :: t)).isSome
      = (Text.dropFront? ['!', '-', '-'] cs).isSome :=
    isSome_dropFront?_append (by rcases hd with rfl | rfl <;> decide) cs t
  rw [scan, hnumber, hident, hmark, hmark', startsIdent_append hd, startsDigit_append hd,
    hhead '-' (by decide) (by decide), hhead '*' (by decide) (by decide)]
  rfl

/-- White space at the end of a text takes a space that comes behind. -/
theorem blank_settles (cs : List Char) :
    Settles cs.length (.blank, ((cs ++ ['}']).takeWhile isSpace).length)
      fun w => (.blank, ((cs ++ ' ' :: w).takeWhile isSpace).length) := by
  cases hdrop : cs.dropWhile isSpace with
  | nil =>
    have hall := List.dropWhile_eq_nil_iff.mp hdrop
    rw [(spaces_append_of_nil hdrop).1]
    refine ⟨Nat.le_refl _, .inr ⟨rfl, rfl, fun w hw => ?_⟩⟩
    have hgrown : (cs ++ ' ' :: w).takeWhile isSpace = cs ++ [' '] := by
      rw [List.append_cons]
      refine Text.takeWhile_append_eq ?_ ?_
      · exact List.forall_mem_append.mpr ⟨hall, List.forall_mem_singleton.mpr rfl⟩
      · rcases hw.head?_eq with hhead | hhead <;> rw [hhead] <;> simp [isSpace]
    show (Token.blank, ((cs ++ ' ' :: w).takeWhile isSpace).length) = _
    rw [hgrown, List.length_append]
    rfl
  | cons d rest =>
    simp only [(spaces_append hdrop _).1]
    exact (Stops.refl (List.takeWhile_sublist _).length_le).settles rfl

/-- A choice that does not depend on what comes behind. -/
theorem Settles.ite {P : Prop} [Decidable P] {len : Nat} {p p' : Token × Nat}
    {q q' : List Char → Token × Nat} (hpos : P → p.2 ≤ len → Settles len p q)
    (hneg : ¬P → p'.2 ≤ len → Settles len p' q') :
    (if P then p else p').2 ≤ len →
      Settles len (if P then p else p') fun w => if P then q w else q' w := by
  by_cases h : P
  · simp only [if_pos h]
    exact hpos h
  · simp only [if_neg h]
    exact hneg h

/-- A comment is settled. -/
theorem comment_settles {cs : List Char} (hcs : cs.head? = some '*')
    (h : commentLength ((cs ++ ['}']).drop 1) + 1 ≤ cs.length) :
    Settles cs.length (.comment, commentLength ((cs ++ ['}']).drop 1) + 1)
      fun w => (.comment, commentLength ((cs ++ ' ' :: w).drop 1) + 1) := by
  obtain ⟨rest, rfl⟩ := List.head?_eq_some_iff.mp hcs
  refine ⟨h, .inl fun w _ => ?_⟩
  simp only [List.cons_append, List.drop_succ_cons, List.drop_zero] at h ⊢
  rw [commentLength_append_of_closed rest _ (Nat.le_of_succ_le_succ h)]

/-- A mark is settled: an edge does not complete it. -/
theorem attributeMark_settles (c : Char) {cs : List Char}
    (h : (attributeMark c (cs ++ ['}'])).2 ≤ cs.length) :
    Settles cs.length (attributeMark c (cs ++ ['}']))
      fun w => attributeMark c (cs ++ ' ' :: w) := by
  refine ⟨h, .inl fun w _ => ?_⟩
  cases cs with
  | nil => rfl
  | cons d rest =>
    by_cases hd : d = '='
    · subst hd
      rfl
    · have hmark : ∀ w, attributeMark c (d :: w) = (.delim c, 0) := fun w => by
        unfold attributeMark
        split <;> simp_all
      exact (hmark _).trans (hmark _).symm

/-- A name behind a mark of its own is settled. -/
theorem marked_settles (f : List Char → Token) (hf : ∀ v, (f v).isFlat = true) {cs : List Char}
    (h : (name (cs ++ ['}'])).2 ≤ cs.length) :
    Settles cs.length (f (name (cs ++ ['}'])).1, (name (cs ++ ['}'])).2)
      fun w => (f (name (cs ++ ' ' :: w)).1, (name (cs ++ ' ' :: w)).2) :=
  ((name_stops cs h).shift f 0).settles (hf _)

/-- A token of which nothing stands behind the text. -/
theorem settles_const {len : Nat} {p : Token × Nat} (h : p.2 ≤ len) : Settles len p fun _ => p :=
  ⟨h, .inl fun _ _ => rfl⟩

/-- **Each token is settled** that leaves the bracket behind the text. -/
theorem scan_settles (c : Char) (cs : List Char) (h : (scan c (cs ++ ['}'])).2 ≤ cs.length) :
    Settles cs.length (scan c (cs ++ ['}'])) fun w => scan c (cs ++ ' ' :: w) := by
  rw [scan_append (.inr rfl)] at h ⊢
  simp only [scan_append (.inl rfl)]
  revert h
  -- one step for each test of the scanner, which has the same answer in front of both edges
  refine Settles.ite (fun _ _ => blank_settles cs) fun _ => ?_
  refine Settles.ite (fun hquote h => ?string) fun _ => ?_
  case string =>
    have hcurly : c ≠ '}' := by
      rintro rfl
      exact absurd hquote (by decide)
    have hquoted : (quoted c (cs ++ ['}'])).2 ≤ cs.length := by
      generalize quoted c (cs ++ ['}']) = e at h ⊢
      obtain ⟨v, n⟩ := e
      cases v <;> exact h
    refine ⟨h, .inl fun w hw => ?_⟩
    simp only [quoted_append_of_closed hcurly hw cs hquoted]
  refine Settles.ite (fun _ => ?hash) fun _ => ?_
  case hash =>
    exact Settles.ite (fun _ => marked_settles (fun v => .hash (String.ofList v)) fun _ => rfl)
      fun _ => settles_const
  refine Settles.ite (fun _ => ?keyword) fun _ => ?_
  case keyword =>
    exact Settles.ite (fun _ => marked_settles (fun v => .atKeyword (String.ofList v)) fun _ => rfl)
      fun _ => settles_const
  refine Settles.ite (fun _ => numeric_settles c cs) fun _ => ?_
  refine Settles.ite (fun _ => settles_const) fun _ => ?_
  refine Settles.ite (fun _ => settles_const) fun _ => ?_
  refine Settles.ite (fun hcomment => comment_settles ?comment) fun _ => ?_
  case comment => exact of_decide_eq_true (Bool.and_eq_true_iff.mp hcomment).2
  refine Settles.ite (fun _ => identLike_settles c cs) fun _ => ?_
  exact Settles.ite (fun _ => attributeMark_settles c) fun _ => settles_const

end Tokens

/-! ## All tokens

The lexemes of a text are told one by one, and each of them leaves a closed
text. So what is true of one token is carried through the text by induction
on its length. -/

/-- **A closed text starts with a whole token**, and what follows this is
closed. -/
theorem IsClosed.cases_cons {c : Char} {cs : List Char} (h : IsClosed (c :: cs)) :
    ∃ t n, scan c (cs ++ ['}']) = (t, n) ∧ n ≤ cs.length
      ∧ lex (c :: cs) = ⟨t, c :: cs.take n⟩ :: lex (cs.drop n) ∧ IsClosed (cs.drop n) := by
  have hlex : lex (c :: cs) = ⟨(scan c cs).1, c :: cs.take (scan c cs).2⟩
      :: lex (cs.drop (scan c cs).2) := by rw [lex]
  unfold IsClosed at h
  rw [List.cons_append, lex, hlex] at h
  cases hscan : scan c (cs ++ ['}']) with
  | mk t n =>
    rw [hscan] at h
    obtain ⟨hhead, htail⟩ := List.cons.inj h
    have hn : n ≤ cs.length := by
      by_contra hlong
      rw [List.drop_eq_nil_of_le (by simp; omega), lex] at htail
      exact absurd htail.symm (List.append_ne_nil_of_right_ne_nil _ (List.cons_ne_nil _ _))
    rw [List.take_append_of_le_length hn] at hhead
    rw [List.drop_append_of_le_length hn] at htail
    obtain ⟨rfl, htext⟩ := Lexeme.mk.inj hhead
    have hdrop : cs.drop n = cs.drop (scan c cs).2 := by
      have hlength := congrArg List.length (List.cons.inj htext).2
      rw [List.length_take, List.length_take] at hlength
      by_cases hcount : (scan c cs).2 ≤ cs.length
      · rw [show n = (scan c cs).2 by omega]
      · rw [List.drop_eq_nil_of_le (show cs.length ≤ n by omega),
          List.drop_eq_nil_of_le (by omega)]
    refine ⟨_, n, rfl, hn, ?_, ?_⟩
    · rw [hlex, hdrop, (List.cons.inj htext).2]
    · rw [IsClosed, htail, hdrop]
      rfl

/-- **A space behind lexemes** is a lexeme of its own, or belongs to the
last one, which is no bracket. -/
inductive Spaced : List Lexeme → List Lexeme → Prop
  | blank (ls : List Lexeme) : Spaced ls (ls ++ [⟨.blank, [' ']⟩])
  | last (ls : List Lexeme) (l : Lexeme) (text : List Char) (h : l.token.isFlat = true) :
    Spaced (ls ++ [l]) (ls ++ [⟨l.token, text⟩])

/-- Lexemes in front do not matter. -/
theorem Spaced.cons {ls ls' : List Lexeme} (h : Spaced ls ls') (l : Lexeme) :
    Spaced (l :: ls) (l :: ls') := by
  cases h with
  | blank => exact .blank (l :: ls)
  | last ls k text hk => exact .last (l :: ls) k text hk

/-- There are no lexemes without a text. -/
theorem lex_nil : lex [] = [] := by rw [lex]

/-- **A space and a curly bracket behind a closed text** change nothing but
its end. -/
theorem IsClosed.exists_lex_append {cs : List Char} (h : IsClosed cs) :
    ∃ ls, Spaced (lex cs) ls ∧ ∀ w, AtCurly w → lex (cs ++ ' ' :: w) = ls ++ lex w := by
  induction hlength : cs.length using Nat.strongRecOn generalizing cs with
  | ind n ih =>
  subst hlength
  cases cs with
  | nil =>
    refine ⟨_, .blank (lex []), fun w hw => ?_⟩
    have hspace : lex ([' '] ++ w) = (if [' '] = [] then [] else [⟨.blank, [' ']⟩]) ++ lex w :=
      lex_space (by simp [isSpace]) (by
        rcases hw.head?_eq with hhead | hhead <;> rw [EndsSpace, hhead] <;> simp [isSpace])
    rw [lex_nil]
    exact hspace
  | cons c cs =>
    obtain ⟨t, n, hscan, hn, hlex, hrest⟩ := h.cases_cons
    have hsettles := scan_settles c cs (by rw [hscan]; exact hn)
    rw [hscan] at hsettles
    obtain ⟨-, heq | ⟨hflat, hlength, heq⟩⟩ := hsettles
    · obtain ⟨ls, hspaced, hls⟩ := ih _ (length_drop_lt c cs n) hrest rfl
      refine ⟨⟨t, c :: cs.take n⟩ :: ls, hlex ▸ hspaced.cons _, fun w hw => ?_⟩
      rw [List.cons_append, lex, show scan c (cs ++ ' ' :: w) = (t, n) from heq w hw]
      simp only [List.take_append_of_le_length hn, List.drop_append_of_le_length hn, hls w hw]
      rfl
    · -- the last token takes the space
      obtain rfl : n = cs.length := hlength
      rw [List.take_length, List.drop_length, lex_nil] at hlex
      refine ⟨[⟨t, c :: cs ++ [' ']⟩], hlex ▸ .last [] ⟨t, c :: cs⟩ _ hflat, fun w hw => ?_⟩
      have htake : (cs ++ ' ' :: w).take (cs.length + 1) = cs ++ [' '] := by
        rw [List.append_cons, List.take_left' (by simp)]
      have hdrop : (cs ++ ' ' :: w).drop (cs.length + 1) = w := by simp
      rw [List.cons_append, lex, show scan c (cs ++ ' ' :: w) = (t, cs.length + 1) from heq w hw]
      simp only [htake, hdrop]
      rfl

/-- **A space in front of a closed text** is a lexeme of its own, or belongs
to the white space that comes first. The text stays closed. -/
theorem IsClosed.exists_lex_cons {cs : List Char} (h : IsClosed cs) :
    IsClosed (' ' :: cs) ∧ ∃ text ls, lex (' ' :: cs) = ⟨.blank, text⟩ :: ls
      ∧ (lex cs = ls ∨ ∃ text', lex cs = ⟨.blank, text'⟩ :: ls) := by
  have hspaces : ∀ c ∈ cs.takeWhile isSpace, isSpace c = true :=
    fun c hc => List.mem_takeWhile_imp hc
  have hrest : EndsSpace (cs.dropWhile isSpace) := fun c hc => by
    have hhead := List.head?_dropWhile_not isSpace cs
    rw [Option.mem_def.mp hc] at hhead
    simpa using hhead
  have hrest' : EndsSpace (cs.dropWhile isSpace ++ ['}']) := fun c hc => by
    cases hdrop : cs.dropWhile isSpace with
    | nil =>
      rw [hdrop] at hc
      obtain rfl : '}' = c := Option.some.inj hc
      rfl
    | cons d rest =>
      rw [hdrop] at hc hrest
      exact hrest c hc
  have hcons : ∀ c ∈ ' ' :: cs.takeWhile isSpace, isSpace c = true :=
    List.forall_mem_cons.mpr ⟨rfl, hspaces⟩
  have hsplit : cs.takeWhile isSpace ++ cs.dropWhile isSpace = cs := List.takeWhile_append_dropWhile
  generalize cs.takeWhile isSpace = spaces at hspaces hcons hsplit
  generalize cs.dropWhile isSpace = rest at hrest hrest' hsplit
  subst hsplit
  have hlex := lex_space hcons hrest
  have hlex' := lex_space hcons hrest'
  rw [if_neg (List.cons_ne_nil _ _)] at hlex hlex'
  refine ⟨?_, _, lex rest, hlex, ?_⟩
  · unfold IsClosed at h ⊢
    rw [List.append_assoc, lex_space hspaces hrest', lex_space hspaces hrest, List.append_assoc]
      at h
    rw [← List.cons_append, List.append_assoc, hlex', hlex, List.append_cancel_left h,
      List.append_assoc]
  · rw [lex_space hspaces hrest]
    split
    · exact .inl rfl
    · exact .inr ⟨spaces, rfl⟩

end Stylebook.Css
