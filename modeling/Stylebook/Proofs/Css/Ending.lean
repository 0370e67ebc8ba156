import Mathlib.Data.List.TakeWhile
import Stylebook.Proofs.Css.Lookahead
import Stylebook.Proofs.Css.Reading

/-!
# How scanners end

A scanner that reads a text with a curly bracket behind it either stops at
the bracket or before it, or takes it in, because a string, a comment, an
escape or an address is open. Here is what a scanner that does not take in
the bracket reads when a space comes between, with a curly bracket of either
kind behind the space (`AtCurly`).

* A string, a comment and an address have an end of their own, and are read
  as before (`quoted_append_of_closed`, `commentLength_append_of_closed`,
  `afterUrl_append_of_closed`).
* A name is read as before as well, or it ends with an escape of hexadecimal
  digits; and then the space is a part of the escape (`name_stops`).
-/

namespace Stylebook.Css

variable {α : Type} {w : List Char}

/-- A curly bracket comes next. This is all that is ever asked of the text
behind a closed one: it is put into a block, or in front of one. -/
def AtCurly (w : List Char) : Prop := ∃ b r, (b = '{' ∨ b = '}') ∧ w = b :: r

/-- There are two kinds of curly brackets. -/
theorem AtCurly.head?_eq (hw : AtCurly w) : w.head? = some '{' ∨ w.head? = some '}' := by
  obtain ⟨b, r, rfl | rfl, rfl⟩ := hw
  · exact .inl rfl
  · exact .inr rfl

/-- A space and a curly bracket are no part of a name. -/
theorem name_of_edge {d : Char} (hd : d = ' ' ∨ d = '{' ∨ d = '}') (cs : List Char) :
    name (d :: cs) = ([], 0) := by
  rcases hd with rfl | rfl | rfl <;> rw [name] <;> simp [isNameChar, isWide]

/-- No name starts at one. -/
theorem AtCurly.name_eq (hw : AtCurly w) : name w = ([], 0) := by
  obtain ⟨b, r, hb, rfl⟩ := hw
  exact name_of_edge (.inr hb) r

/-! ## Scanners that may take a space

There is one place where the space is not a lexeme of its own. An escape by
its number takes one white space along, to tell its digits from letters that
follow; at the end of a text there was none to take. `Stops` allows for
that, and for nothing else: the answer stays and the count is greater by
one. -/

/-- **A scanner stops** in a text of length `len`. It takes no more than the
text, with the answer `p`; when a space and a curly bracket come behind the
text, its answer `q` is the same, or it took all of the text and takes the
space too. -/
def Stops (len : Nat) (p : α × Nat) (q : List Char → α × Nat) : Prop :=
  p.2 ≤ len ∧ ((∀ w, AtCurly w → q w = p)
    ∨ p.2 = len ∧ ∀ w, AtCurly w → q w = (p.1, len + 1))

namespace Stops

variable {β : Type} {len : Nat} {p : α × Nat} {q q' : List Char → α × Nat}

/-- A scanner that does not look at what follows stops. -/
theorem refl (h : p.2 ≤ len) : Stops len p fun _ => p := ⟨h, .inl fun _ _ => rfl⟩

/-- Only what it reads in front of curly brackets counts. -/
theorem congr (h : Stops len p q) (heq : ∀ w, AtCurly w → q' w = q w) : Stops len p q' :=
  ⟨h.1, h.2.imp (fun h w hw => (heq w hw).trans (h w hw))
    fun h => ⟨h.1, fun w hw => (heq w hw).trans (h.2 w hw)⟩⟩

/-- A scanner that reads `k` characters in front stops as well. -/
theorem shift (h : Stops len p q) (f : α → β) (k : Nat) :
    Stops (len + k) (f p.1, p.2 + k) fun w => (f (q w).1, (q w).2 + k) := by
  obtain ⟨hle, heq | ⟨hlength, heq⟩⟩ := h
  · exact ⟨Nat.add_le_add_right hle k, .inl fun w hw => by simp only [heq w hw]⟩
  · exact ⟨Nat.add_le_add_right hle k, .inr ⟨congrArg (· + k) hlength, fun w hw => by
      simp only [heq w hw, Nat.add_right_comm]⟩⟩

end Stops

/-- An escape takes one white space along, and where the text ends with its
digits, this is the space behind the text. -/
theorem escape_stops {cs : List Char} (h : cs ≠ []) :
    Stops cs.length (escape (cs ++ ['}'])) fun w => escape (cs ++ ' ' :: w) := by
  obtain ⟨c, cs, rfl⟩ := List.exists_cons_of_ne_nil h
  unfold escape
  simp only [List.cons_append]
  by_cases hhex : (hexDigit? c).isSome = true
  · simp only [if_pos hhex]
    have hle := hexDigits_le (c :: cs) 6 0
    simp only [← List.cons_append, hexDigits_append (.inl rfl), hexDigits_append (.inr rfl),
      List.drop_append_of_le_length hle]
    cases hdrop : (c :: cs).drop (hexDigits 6 0 (c :: cs)).2 with
    | nil =>
      have hlength := List.drop_eq_nil_iff.mp hdrop
      refine ⟨hle, .inr ⟨Nat.le_antisymm hle hlength, fun w _ => ?_⟩⟩
      rw [← Nat.le_antisymm hle hlength]
      rfl
    | cons e rest =>
      have hrest := congrArg List.length hdrop
      have hbreak := lineBreakLength_le (e :: rest)
      simp only [List.length_drop, List.length_cons] at hrest hbreak hle
      simp only [List.cons_append]
      simp only [← List.cons_append, lineBreakLength_append (.inl rfl),
        lineBreakLength_append (.inr rfl)]
      refine Stops.refl ?_
      simp only [List.length_cons]
      split <;> omega
  · simp only [if_neg hhex]
    split <;> exact Stops.refl (by simp)

/-- An escape that leaves a part of the text is read as before. -/
theorem escape_append_of_lt {cs : List Char} (hw : AtCurly w)
    (h : (escape (cs ++ ['}'])).2 < cs.length) :
    escape (cs ++ ' ' :: w) = escape (cs ++ ['}']) := by
  have hcs : cs ≠ [] := List.ne_nil_of_length_pos (Nat.zero_lt_of_lt h)
  obtain ⟨-, heq | ⟨hlength, -⟩⟩ := escape_stops hcs
  · exact heq w hw
  · exact absurd hlength (Nat.ne_of_lt h)

/-- **A name stops.** -/
theorem name_stops (cs : List Char) (h : (name (cs ++ ['}'])).2 ≤ cs.length) :
    Stops cs.length (name (cs ++ ['}'])) fun w => name (cs ++ ' ' :: w) := by
  induction hlength : cs.length using Nat.strongRecOn generalizing cs with
  | ind n ih =>
  subst hlength
  cases cs with
  | nil =>
    simp only [List.nil_append, name_of_edge (.inr (.inr rfl)), name_of_edge (.inl rfl)]
    exact Stops.refl (Nat.le_refl _)
  | cons c cs =>
    rw [List.cons_append, name] at h
    simp only [List.cons_append, name, startsLineBreak_append (.inl rfl),
      startsLineBreak_append (.inr rfl)] at h ⊢
    by_cases hname : isNameChar c = true
    · simp only [if_pos hname] at h ⊢
      exact (ih _ (Nat.lt_succ_self _) cs (Nat.le_of_succ_le_succ h) rfl).shift (c :: ·) 1
    simp only [if_neg hname] at h ⊢
    by_cases hnul : c = '\x00'
    · simp only [if_pos hnul] at h ⊢
      exact (ih _ (Nat.lt_succ_self _) cs (Nat.le_of_succ_le_succ h) rfl).shift (replacement :: ·) 1
    simp only [if_neg hnul] at h ⊢
    by_cases hescape : (decide (c = '\\') && !startsLineBreak cs) = true
    · simp only [if_pos hescape] at h ⊢
      by_cases hcs : cs = []
      · -- an escape that is open takes the bracket
        subst hcs
        rw [List.nil_append, show escape ['}'] = ('}', 1) from rfl] at h
        simp [name] at h
      obtain ⟨hk, heq | ⟨hlength, heq⟩⟩ := escape_stops hcs
      · generalize escape (cs ++ ['}']) = e at hk heq h ⊢
        obtain ⟨d, k⟩ := e
        simp only [List.drop_append_of_le_length hk] at h ⊢
        have hrest : (cs.drop k).length + (k + 1) = (c :: cs).length := by
          simp only [List.length_drop, List.length_cons] at hk ⊢
          omega
        have hname : (name (cs.drop k ++ ['}'])).2 ≤ (cs.drop k).length := by omega
        rw [← hrest]
        refine ((ih _ (by omega) (cs.drop k) hname rfl).shift (d :: ·) (k + 1)).congr fun w hw => ?_
        simp only [heq w hw, List.drop_append_of_le_length hk]
        rfl
      · have hspace : ∀ w, (cs ++ ' ' :: w).drop (cs.length + 1) = w := by simp
        refine ⟨h, .inr ⟨?_, fun w hw => ?_⟩⟩
        · simp only [hlength, List.drop_left, name_of_edge (.inr (.inr rfl)), List.length_cons]
          omega
        · simp only [heq w hw, hlength, List.drop_left, hspace, hw.name_eq,
            name_of_edge (.inr (.inr rfl)), List.length_cons, Nat.zero_add]
    · simp only [if_neg hescape]
      exact Stops.refl (Nat.zero_le _)

/-! ## Scanners with an end of their own

Such a scanner takes in everything up to its end, a bracket too. So where it leaves the bracket,
it came to its end before. -/

/-- What is read first leaves a part of the text when the scanner behind it
takes in a bracket and does not come to the one behind the text. -/
theorem lt_length_of_closed {f : List Char → α × Nat} (hopen : (f ['}']).2 = 1) {cs : List Char}
    {k : Nat} (h : (f ((cs ++ ['}']).drop k)).2 + k ≤ cs.length) : k < cs.length := by
  refine Nat.lt_of_le_of_ne (Nat.le_trans (Nat.le_add_left _ _) h) fun hk => ?_
  subst hk
  rw [List.drop_left, hopen] at h
  omega

/-- What is left behind the first character is shorter than the text. -/
theorem length_drop_lt (c : Char) (cs : List Char) (k : Nat) :
    (cs.drop k).length < (c :: cs).length :=
  Nat.lt_succ_of_le (List.drop_sublist k cs).length_le

/-- A count that fits behind the first `k` characters of what follows `c`. -/
theorem le_length_drop {c : Char} {cs : List Char} {n k : Nat}
    (h : n + k + 1 ≤ (c :: cs).length) : n ≤ (cs.drop k).length := by
  rw [List.length_drop]
  exact Nat.le_sub_of_add_le (Nat.le_of_succ_le_succ h)

/-- **A string that has its quote is read as before.** The induction is on
the text, and an escape in it may take more than one character. So the text
that is left may start anywhere, and its length is what goes down. -/
theorem quoted_append_of_closed {q : Char} (hq : q ≠ '}') (hw : AtCurly w) (cs : List Char)
    (h : (quoted q (cs ++ ['}'])).2 ≤ cs.length) :
    quoted q (cs ++ ' ' :: w) = quoted q (cs ++ ['}']) := by
  have hopen : (quoted q ['}']).2 = 1 := by
    rw [quoted, if_neg hq.symm, if_neg (by decide), if_neg (by decide), quoted]
  -- on the length, as an escape is more than one character
  induction hlength : cs.length using Nat.strongRecOn generalizing cs with
  | ind n ih =>
  subst hlength
  cases cs with
  | nil =>
    rw [List.nil_append, hopen] at h
    exact absurd h (by decide)
  | cons c cs =>
    rw [List.cons_append, quoted] at h
    rw [List.cons_append, List.cons_append, quoted, quoted]
    by_cases hquote : c = q
    · rw [if_pos hquote, if_pos hquote]
    rw [if_neg hquote] at h ⊢
    rw [if_neg hquote]
    by_cases hbreak : isLineBreak c = true
    · rw [if_pos hbreak, if_pos hbreak]
    rw [if_neg hbreak] at h ⊢
    rw [if_neg hbreak]
    by_cases hslash : c = '\\'
    · have hsome : ∀ (e : Char) (t : List Char), (cs ++ e :: t).isEmpty = false := by simp
      simp only [if_pos hslash, hsome, Bool.false_eq_true, if_false,
        startsLineBreak_append (.inl rfl), startsLineBreak_append (.inr rfl)] at h ⊢
      by_cases hstarts : startsLineBreak cs = true
      · have hk := lineBreakLength_le cs
        simp only [if_pos hstarts, lineBreakLength_append (.inl rfl),
          lineBreakLength_append (.inr rfl), List.drop_append_of_le_length hk] at h ⊢
        rw [ih _ (length_drop_lt c cs _) (cs.drop (lineBreakLength cs)) (le_length_drop h) rfl]
      · rw [if_neg hstarts] at h ⊢
        rw [if_neg hstarts]
        have hk := lt_length_of_closed hopen (Nat.le_of_succ_le_succ h)
        simp only [escape_append_of_lt hw hk,
          List.drop_append_of_le_length (Nat.le_of_lt hk)] at h ⊢
        rw [ih _ (length_drop_lt c cs _) (cs.drop (escape (cs ++ ['}'])).2) (le_length_drop h) rfl]
    · rw [if_neg hslash] at h ⊢
      rw [if_neg hslash, ih _ (Nat.lt_succ_self _) cs (Nat.le_of_succ_le_succ h) rfl]

/-- A comment goes on where its mark does not come. -/
theorem commentLength_cons {c : Char} {cs : List Char} (h : ¬(c = '*' ∧ cs.head? = some '/')) :
    commentLength (c :: cs) = commentLength cs + 1 := by
  rw [commentLength]
  rintro cs' rfl
  rintro rfl
  exact h ⟨rfl, rfl⟩

/-- **A comment that has its mark is read as before.** -/
theorem commentLength_append_of_closed (cs r : List Char)
    (h : commentLength (cs ++ ['}']) ≤ cs.length) :
    commentLength (cs ++ ' ' :: r) = commentLength (cs ++ ['}']) := by
  induction cs with
  | nil => exact absurd h (by decide)
  | cons c cs ih =>
    by_cases hend : c = '*' ∧ cs.head? = some '/'
    · obtain ⟨rfl, hhead⟩ := hend
      obtain ⟨cs, rfl⟩ := List.head?_eq_some_iff.mp hhead
      rfl
    · have hedge : ∀ d t, d = ' ' ∨ d = '}' → ¬(c = '*' ∧ (cs ++ d :: t).head? = some '/') := by
        intro d t hd
        cases cs <;> rcases hd with rfl | rfl <;> simp_all
      rw [List.cons_append, commentLength_cons (hedge _ _ (.inr rfl))] at h
      rw [List.cons_append, List.cons_append, commentLength_cons (hedge _ _ (.inl rfl)),
        commentLength_cons (hedge _ _ (.inr rfl)), ih (Nat.le_of_succ_le_succ h)]

/-! ### Addresses -/

/-- A malformed address that has its parenthesis is read as before. -/
theorem badUrlLength_append_of_closed (cs r : List Char)
    (h : badUrlLength (cs ++ ['}']) ≤ cs.length) :
    badUrlLength (cs ++ ' ' :: r) = badUrlLength (cs ++ ['}']) := by
  have hopen : badUrlLength ['}'] = 1 := by simp [badUrlLength]
  fun_induction badUrlLength cs with
  | case1 => exact absurd h (by simp [hopen])
  | case2 => simp [badUrlLength]
  | case3 c cs hc ih =>
    simp only [List.cons_append, badUrlLength, hc, if_true] at h ⊢
    rw [ih (by simpa using h)]
  | case4 c cs hc ih =>
    simp only [List.cons_append, badUrlLength, hc] at h ⊢
    rw [← List.cons_append, ← List.cons_append, ih (by simpa using h)]
    rfl
  | case5 c cs hclose hslash ih =>
    by_cases hc : c = '\\'
    · -- an escape that is open takes the bracket
      subst hc
      cases cs with
      | nil => exact absurd h (by simp [badUrlLength])
      | cons d cs => exact absurd rfl (hslash d cs rfl)
    · have hstep : ∀ ds, badUrlLength (c :: ds) = badUrlLength ds + 1 := fun ds => by
        rw [badUrlLength] <;> simp_all
      rw [List.cons_append, hstep] at h
      rw [List.cons_append, List.cons_append, hstep, hstep, ih (Nat.le_of_succ_le_succ h)]

/-- White space that does not go up to the end of a text is read as before. -/
theorem spaces_append {d : Char} {cs rest : List Char} (h : cs.dropWhile isSpace = d :: rest)
    (w : List Char) : (cs ++ w).takeWhile isSpace = cs.takeWhile isSpace
      ∧ (cs ++ w).drop (cs.takeWhile isSpace).length = d :: (rest ++ w) := by
  have hspaces : cs = cs.takeWhile isSpace ++ d :: rest := by
    rw [← h, List.takeWhile_append_dropWhile]
  have hd : isSpace d = false := by
    have hhead := List.head?_dropWhile_not isSpace cs
    rw [h] at hhead
    simpa using hhead
  have hall : ∀ c ∈ cs.takeWhile isSpace, isSpace c = true := fun c hc => List.mem_takeWhile_imp hc
  generalize cs.takeWhile isSpace = spaces at hspaces hall ⊢
  subst hspaces
  rw [List.append_assoc, List.cons_append, List.drop_left]
  exact ⟨Text.takeWhile_append_eq hall (by simpa using hd), rfl⟩

/-- White space that goes up to the end of a text. -/
theorem spaces_append_of_nil {cs : List Char} (h : cs.dropWhile isSpace = []) :
    (cs ++ ['}']).takeWhile isSpace = cs ∧ (cs ++ ['}']).drop cs.length = ['}'] := by
  refine ⟨Text.takeWhile_append_eq (List.dropWhile_eq_nil_iff.mp h) (by simp [isSpace]), ?_⟩
  exact List.drop_left

/-- White space and what follows it make up the text. -/
theorem length_of_dropWhile {d : Char} {cs rest : List Char}
    (h : cs.dropWhile isSpace = d :: rest) :
    cs.length = (cs.takeWhile isSpace).length + (rest.length + 1) := by
  conv_lhs => rw [← List.takeWhile_append_dropWhile (p := isSpace) (l := cs), h]
  exact List.length_append

/-- The end of an address is read as before, if its parenthesis is in the
text. -/
theorem urlEnd_append_of_closed (cs r : List Char) (h : (urlEnd (cs ++ ['}'])).2 ≤ cs.length) :
    urlEnd (cs ++ ' ' :: r) = urlEnd (cs ++ ['}']) := by
  unfold urlEnd at h ⊢
  cases hdrop : cs.dropWhile isSpace with
  | nil =>
    obtain ⟨htake, hrest⟩ := spaces_append_of_nil hdrop
    simp only [htake, hrest] at h
    exact absurd h (Nat.not_le.mpr (Nat.lt_of_lt_of_le (Nat.lt_succ_self _) (Nat.le_add_right _ _)))
  | cons d rest =>
    have hlength := length_of_dropWhile hdrop
    simp only [spaces_append hdrop] at h ⊢
    by_cases hd : d = ')'
    · subst hd
      rfl
    · simp only at h ⊢
      rw [badUrlLength_append_of_closed rest _ (by omega)]

/-- The address is read as before, if its parenthesis is in the text. -/
theorem urlAddress_append_of_closed (hw : AtCurly w) (cs : List Char)
    (h : (urlAddress (cs ++ ['}'])).2 ≤ cs.length) :
    urlAddress (cs ++ ' ' :: w) = urlAddress (cs ++ ['}']) := by
  have hopen : (urlAddress ['}']).2 = 1 := by simp [urlAddress, isSpace, isUnfitForUrl]
  -- on the length, as an escape is more than one character
  induction hlength : cs.length using Nat.strongRecOn generalizing cs with
  | ind n ih =>
  subst hlength
  cases cs with
  | nil =>
    rw [List.nil_append, hopen] at h
    exact absurd h (by decide)
  | cons c cs =>
    rw [List.cons_append, urlAddress] at h
    rw [List.cons_append, List.cons_append, urlAddress, urlAddress]
    by_cases hspace : isSpace c = true
    · rw [if_pos hspace] at h ⊢
      rw [if_pos hspace]
      have hend : urlEnd (c :: (cs ++ ' ' :: w)) = urlEnd (c :: (cs ++ ['}'])) :=
        urlEnd_append_of_closed (c :: cs) _ h
      rw [hend]
    rw [if_neg hspace] at h ⊢
    rw [if_neg hspace]
    by_cases hclose : c = ')'
    · rw [if_pos hclose, if_pos hclose]
    rw [if_neg hclose] at h ⊢
    rw [if_neg hclose]
    by_cases hunfit : isUnfitForUrl c = true
    · rw [if_pos hunfit] at h ⊢
      rw [if_pos hunfit, badUrlLength_append_of_closed cs _ (Nat.le_of_succ_le_succ h)]
    rw [if_neg hunfit] at h ⊢
    rw [if_neg hunfit]
    by_cases hslash : c = '\\'
    · rw [if_pos hslash, startsLineBreak_append (.inr rfl)] at h
      rw [if_pos hslash, if_pos hslash, startsLineBreak_append (.inl rfl),
        startsLineBreak_append (.inr rfl)]
      by_cases hstarts : startsLineBreak cs = true
      · rw [if_pos hstarts] at h ⊢
        rw [if_pos hstarts, badUrlLength_append_of_closed cs _ (Nat.le_of_succ_le_succ h)]
      rw [if_neg hstarts] at h ⊢
      rw [if_neg hstarts]
      have hk := lt_length_of_closed hopen (Nat.le_of_succ_le_succ h)
      simp only [escape_append_of_lt hw hk,
        List.drop_append_of_le_length (Nat.le_of_lt hk)] at h ⊢
      rw [ih _ (length_drop_lt c cs _) (cs.drop (escape (cs ++ ['}'])).2) (le_length_drop h) rfl]
    · rw [if_neg hslash] at h ⊢
      rw [if_neg hslash, ih _ (Nat.lt_succ_self _) cs (Nat.le_of_succ_le_succ h) rfl]

/-- **An address that has its parenthesis is read as before.** -/
theorem afterUrl_append_of_closed (hw : AtCurly w) (function : String) (cs : List Char)
    (h : (afterUrl function (cs ++ ['}'])).2 ≤ cs.length) :
    afterUrl function (cs ++ ' ' :: w) = afterUrl function (cs ++ ['}']) := by
  unfold afterUrl at h ⊢
  cases hdrop : cs.dropWhile isSpace with
  | nil =>
    obtain ⟨htake, hrest⟩ := spaces_append_of_nil hdrop
    simp only [htake, hrest] at h
    exact absurd h (by simp [urlAddress, isSpace, isUnfitForUrl])
  | cons d rest =>
    have hlength := length_of_dropWhile hdrop
    simp only [spaces_append hdrop] at h ⊢
    by_cases hquote : (decide (d = '"') || decide (d = '\'')) = true
    · rw [if_pos hquote, if_pos hquote]
    · rw [if_neg hquote] at h ⊢
      rw [if_neg hquote]
      have haddress : (urlAddress (d :: (rest ++ ['}']))).2 ≤ (d :: rest).length := by
        generalize urlAddress (d :: (rest ++ ['}'])) = e at h ⊢
        obtain ⟨v, n⟩ := e
        cases v <;> (simp only [List.length_cons] at h ⊢; omega)
      have heq : urlAddress (d :: (rest ++ ' ' :: w)) = urlAddress (d :: (rest ++ ['}'])) :=
        urlAddress_append_of_closed hw (d :: rest) haddress
      rw [heq]

end Stylebook.Css
