import Stylebook.Proofs.Except
import Stylebook.Proofs.Text.Infix
import Stylebook.Toml.Reader

/-!
# What readers leave of a text

A reader takes characters off the front of a text, so that what it leaves is
an end of that text. This is why a place can be measured by the number of
characters that are left: an end of a text is known by its length. It is
shown here for every reader, from the characters of an escape up to the
statements, by one rule for readings that follow each other.

The reading of a statement leaves more to say. It goes up to the end of a
line, so the next statement starts directly behind a line break.
-/

namespace Stylebook.Toml

variable {α β : Type} {cs ds rest : List Char}

/-- **A reading that advances**: what it leaves is an end of the text. -/
def Advances (cs : List Char) (reading : Except Fault (Parsed α)) : Prop :=
  ∀ a rest, reading = .ok (a, rest) → rest <:+ cs

namespace Advances

variable {r : Except Fault (Parsed α)}

/-- A reading that succeeds advances if what it leaves is an end of the
text. -/
theorem ok {a : α} (h : rest <:+ cs) : Advances cs (.ok (a, rest)) := by
  intro b rest' heq
  cases heq
  exact h

/-- A parser that fails leaves nothing to read. -/
theorem error {e : Fault} : Advances (α := α) cs (.error e) := by
  intro a rest heq
  cases heq

/-- It may say that the fault is anywhere. -/
theorem faultAt {message : String} : Advances (α := α) cs (faultAt rest message) := error

/-- It may also allow another reading to be tried instead. -/
theorem missAt {message : String} : Advances (α := α) cs (missAt rest message) := error

/-- A reading of an end of a text is one of the text. -/
theorem of_suffix (h : Advances ds r) (hds : ds <:+ cs) : Advances cs r :=
  fun a rest heq => (h a rest heq).trans hds

/-- **Readings that follow each other**: the second one may rely on having
an end of the text in front of it. -/
theorem bind {next : Parsed α → Except Fault (Parsed β)} (h : Advances cs r)
    (hnext : ∀ a rest, rest <:+ cs → Advances cs (next (a, rest))) :
    Advances cs (r >>= next) := by
  intro b after heq
  obtain ⟨⟨a, rest⟩, hr, heq⟩ := Except.bind_eq_ok.mp heq
  exact hnext a rest (h a rest hr) b after heq

/-- What becomes of the value does not matter. -/
theorem map {f : Parsed α → Parsed β} (h : Advances cs r) (hf : ∀ p, (f p).2 = p.2) :
    Advances cs (r.map f) := by
  intro b after heq
  cases r with
  | error e => cases heq
  | ok p =>
    have heq : f p = (b, after) := by injection heq
    have hafter : p.2 = after := by rw [← hf p, heq]
    exact hafter ▸ h p.1 p.2 rfl

/-- Whether another reading may be tried does not matter. -/
theorem committed (h : Advances cs r) : Advances cs (committed r) := by
  intro a rest heq
  cases r with
  | error e => cases heq
  | ok p => exact h a rest heq

end Advances

/-- **A line starts here**: what is left stands behind a line break, or
nothing is left. -/
def StartsLine (cs rest : List Char) : Prop := rest = [] ∨ ∃ line, cs = line ++ '\n' :: rest

/-- A line of an end of a text is one of the text. -/
theorem StartsLine.of_suffix (h : StartsLine ds rest) (hds : ds <:+ cs) : StartsLine cs rest := by
  obtain ⟨front, rfl⟩ := hds
  refine h.imp_right fun ⟨line, hline⟩ => ⟨front ++ line, ?_⟩
  rw [hline, List.append_assoc]

/-! ### Characters that are passed over

Space, comments and line breaks. They have no value, so there is only a rest
to speak of. -/

/-- A line break ends with its line feed, whether a carriage return stands
before it or not. -/
theorem exists_of_afterLineBreak? (h : afterLineBreak? cs = some rest) :
    ∃ line, cs = line ++ '\n' :: rest := by
  unfold afterLineBreak? at h
  split at h
  · cases h
    exact ⟨[], rfl⟩
  · cases h
    exact ⟨['\r'], rfl⟩
  · cases h

theorem afterLineBreak?_suffix (h : afterLineBreak? cs = some rest) : rest <:+ cs := by
  obtain ⟨line, rfl⟩ := exists_of_afterLineBreak? h
  exact (List.suffix_cons _ _).trans (List.suffix_append _ _)

theorem skipComment_suffix (cs : List Char) : skipComment cs <:+ cs := by
  unfold skipComment
  split
  · exact (List.dropWhile_suffix _).trans (List.suffix_cons _ _)
  · exact List.suffix_refl _

theorem skipSpaceAndBreaks_suffix (cs : List Char) : skipSpaceAndBreaks cs <:+ cs := by
  fun_induction skipSpaceAndBreaks cs with
  | case1 cs ih => exact (ih.trans (List.suffix_cons _ _)).trans (List.suffix_cons _ _)
  | case2 c cs _ _ ih => exact ih.trans (List.suffix_cons _ _)
  | case3 => exact List.suffix_refl _
  | case4 => exact List.suffix_refl _

theorem afterHiddenBreak?_suffix (h : afterHiddenBreak? cs = some rest) : rest <:+ cs := by
  obtain ⟨after, hafter, rfl⟩ := Option.map_eq_some_iff.mp h
  exact (skipSpaceAndBreaks_suffix after).trans
    ((afterLineBreak?_suffix hafter).trans (List.dropWhile_suffix _))

theorem skipFirstBreak_suffix (cs : List Char) : skipFirstBreak cs <:+ cs := by
  unfold skipFirstBreak
  cases h : afterLineBreak? cs with
  | none => exact List.suffix_refl _
  | some rest => exact afterLineBreak?_suffix h

theorem skipFiller_suffix (fuel : Nat) (cs : List Char) : skipFiller fuel cs <:+ cs := by
  induction fuel generalizing cs with
  | zero => exact List.suffix_refl _
  | succ fuel ih =>
    have hskip := skipSpaceAndBreaks_suffix cs
    unfold skipFiller
    dsimp only
    split
    · split
      · next hafter =>
        exact (ih _).trans ((afterLineBreak?_suffix hafter).trans
          ((skipComment_suffix _).trans hskip))
      · exact hskip
    · exact hskip

/-! ### Strings and keys

From here on each lemma is made of those before it, with the rule for
readings that follow each other. A recursion has its fuel, and the induction
is on it; running out of fuel is a fault like others. -/

theorem advances_codePoint (count : Nat) (cs : List Char) : Advances cs (codePoint count cs) := by
  unfold codePoint
  dsimp only
  split
  · exact .faultAt
  split
  · exact .faultAt
  · exact .ok (List.drop_suffix _ _)

theorem advances_escape (cs : List Char) : Advances cs (escape cs) := by
  unfold escape
  split
  · exact (advances_codePoint 4 _).of_suffix (List.suffix_cons _ _)
  · exact (advances_codePoint 8 _).of_suffix (List.suffix_cons _ _)
  · split
    · exact .ok (List.suffix_cons _ _)
    · exact .faultAt
  · exact .faultAt

theorem advances_basicString (fuel : Nat) (read cs : List Char) :
    Advances cs (basicString fuel read cs) := by
  induction fuel generalizing read cs with
  | zero => exact .faultAt
  | succ fuel ih =>
    unfold basicString
    split
    · exact .ok (List.suffix_cons _ _)
    · exact .faultAt
    · exact ((advances_escape _).bind fun c rest hrest => (ih _ rest).of_suffix hrest).of_suffix
        (List.suffix_cons _ _)
    · split
      · exact (ih _ _).of_suffix (List.suffix_cons _ _)
      · exact .faultAt
    · exact .faultAt

theorem advances_literalString (cs : List Char) : Advances cs (literalString cs) := by
  have hdrop : (cs.dropWhile fun c => isPrintable c && c ≠ '\'') <:+ cs := List.dropWhile_suffix _
  unfold literalString
  dsimp only
  split
  · next hrest => exact .ok ((List.suffix_cons _ _).trans (hrest ▸ hdrop))
  · exact .faultAt

theorem advances_tripleString (quote : Char) (label : String) (fuel : Nat) (read cs : List Char) :
    Advances cs (tripleString quote label fuel read cs) := by
  induction fuel generalizing read cs with
  | zero => exact .faultAt
  | succ fuel ih =>
    unfold tripleString
    split
    · next hafter => exact (ih _ _).of_suffix (afterLineBreak?_suffix hafter)
    split
    · exact .faultAt
    split
    · split
      · exact .ok (List.drop_suffix _ _)
      · exact (ih _ _).of_suffix (List.suffix_cons _ _)
    split
    · split
      · next hafter =>
        exact (ih _ _).of_suffix ((afterHiddenBreak?_suffix hafter).trans (List.suffix_cons _ _))
      · exact ((advances_escape _).bind fun d rest hrest => (ih _ rest).of_suffix hrest).of_suffix
          (List.suffix_cons _ _)
    split
    · exact (ih _ _).of_suffix (List.suffix_cons _ _)
    · exact .faultAt

theorem suffix_drop_three (a b c : Char) (cs : List Char) : cs <:+ a :: b :: c :: cs :=
  List.suffix_append [a, b, c] cs

theorem advances_string (cs : List Char) : Advances cs (string cs) := by
  unfold string
  split
  · exact (advances_tripleString _ _ _ _ _).of_suffix
      ((skipFirstBreak_suffix _).trans (suffix_drop_three _ _ _ _))
  · exact (advances_tripleString _ _ _ _ _).of_suffix
      ((skipFirstBreak_suffix _).trans (suffix_drop_three _ _ _ _))
  · exact (advances_basicString _ _ _).of_suffix (List.suffix_cons _ _)
  · exact (advances_literalString _).of_suffix (List.suffix_cons _ _)
  · exact .missAt

theorem advances_keyPart (cs : List Char) : Advances cs (keyPart cs) := by
  unfold keyPart
  split
  · exact ((advances_basicString _ _ _).of_suffix (List.suffix_cons _ _)).bind
      fun _ _ hrest => .ok hrest
  · exact ((advances_literalString _).of_suffix (List.suffix_cons _ _)).bind
      fun _ _ hrest => .ok hrest
  · dsimp only
    split
    · exact .missAt
    · exact .ok (List.dropWhile_suffix _)

theorem advances_moreKeyParts (fuel : Nat) (cs : List Char) :
    Advances cs (moreKeyParts fuel cs) := by
  induction fuel generalizing cs with
  | zero =>
    unfold moreKeyParts
    exact .ok (List.suffix_refl _)
  | succ fuel ih =>
    unfold moreKeyParts
    split
    · next fuel' cs heq =>
      cases heq
      have hspace : cs.dropWhile isSpace <:+ '.' :: cs :=
        (List.dropWhile_suffix _).trans (List.suffix_cons _ _)
      split
      · next part rest hpart =>
        have hrest : rest.dropWhile isSpace <:+ '.' :: cs :=
          (List.dropWhile_suffix _).trans ((advances_keyPart _ _ _ hpart).trans hspace)
        exact ((ih _).of_suffix hrest).bind fun _ _ hafter => .ok hafter
      · split
        · exact .ok (List.suffix_refl _)
        · exact .error
    · exact .ok (List.suffix_refl _)

theorem advances_key (cs : List Char) : Advances cs (key cs) := by
  refine ((advances_keyPart _).of_suffix (List.dropWhile_suffix _)).bind fun part rest hrest => ?_
  refine ((advances_moreKeyParts _ _).of_suffix
    ((List.dropWhile_suffix _).trans hrest)).bind fun parts after hafter => ?_
  dsimp only
  split
  · exact .missAt
  · exact .ok hafter

/-! ### Numbers and dates

Numbers are tried in several ways, one after the other, each from the same
start. So the rest of a number is an end of the text that all the trials had
in front of them. -/

theorem advances_digitGroups_go (complaint : String) (isDigit : Char → Bool) (fuel : Nat)
    (read cs : List Char) : Advances cs (digitGroups.go complaint isDigit fuel read cs) := by
  induction fuel generalizing read cs with
  | zero =>
    unfold digitGroups.go
    exact .ok (List.suffix_refl _)
  | succ fuel ih =>
    cases cs with
    | nil =>
      unfold digitGroups.go
      exact .ok (List.suffix_refl _)
    | cons c cs =>
      unfold digitGroups.go
      split
      · exact (ih _ _).of_suffix (List.suffix_cons _ _)
      split
      · split
        · split
          · exact (ih _ _).of_suffix ((List.suffix_cons _ _).trans (List.suffix_cons _ _))
          · exact .faultAt
        · exact .faultAt
      · exact .ok (List.suffix_refl _)

theorem advances_digitGroups (complaint : String) (isDigit : Char → Bool) (cs : List Char) :
    Advances cs (digitGroups complaint isDigit cs) := advances_digitGroups_go _ _ _ _ _

theorem advances_digitField (complaint : String) (count least greatest : Nat) (cs : List Char) :
    Advances cs (digitField complaint count least greatest cs) := by
  unfold digitField
  dsimp only
  split
  · exact .missAt
  split
  · exact .ok (List.drop_suffix _ _)
  · exact .missAt

theorem advances_expectChar (complaint : String) (c : Char) (cs : List Char) :
    Advances cs (expectChar complaint c cs) := by
  unfold expectChar
  split
  · split
    · exact .ok (List.suffix_cons _ _)
    · exact .missAt
  · exact .missAt

theorem advances_hour (complaint : String) (cs : List Char) : Advances cs (hour complaint cs) :=
  (advances_digitField _ _ _ _ _).bind fun _ _ hrest =>
    (advances_expectChar _ _ _).of_suffix hrest

theorem advances_timeTail (complaint : String) (cs : List Char) :
    Advances cs (timeTail complaint cs) := by
  refine .committed ((advances_digitField _ _ _ _ _).bind fun _ minutes hminutes => ?_)
  refine ((advances_expectChar _ _ _).of_suffix hminutes).bind fun _ colon hcolon => ?_
  refine ((advances_digitField _ _ _ _ _).of_suffix hcolon).bind fun _ seconds hseconds => ?_
  dsimp only
  split
  · split
    · exact .ok ((List.dropWhile_suffix _).trans ((List.suffix_append ['.', _] _).trans hseconds))
    · exact .ok hseconds
  · exact .ok hseconds

theorem advances_offset (cs : List Char) : Advances cs (offset cs) := by
  unfold offset
  split
  · split
    · exact .ok (List.suffix_cons _ _)
    split
    · refine .of_suffix (.committed ?_) (List.suffix_cons _ _)
      refine (advances_hour _ _).bind fun _ minutes hminutes => ?_
      exact ((advances_digitField _ _ _ _ _).of_suffix hminutes).bind fun _ rest hrest => .ok hrest
    · exact .ok (List.suffix_refl _)
  · exact .ok (List.suffix_refl _)

theorem advances_afterDate (cs : List Char) : Advances cs (afterDate cs) := by
  unfold afterDate
  split
  · next c rest =>
    split
    · split
      · next minutes hhour =>
        have hminutes : minutes <:+ c :: rest :=
          (advances_hour _ _ _ _ hhour).trans (List.suffix_cons _ _)
        exact ((advances_timeTail _ _).of_suffix hminutes).bind fun _ rest hrest =>
          (advances_offset _).of_suffix hrest
      · exact .ok (List.suffix_refl _)
    · exact .ok (List.suffix_refl _)
  · exact .ok (List.suffix_refl _)

theorem advances_monthAndDay (year : Nat) (cs : List Char) :
    Advances cs (monthAndDay year cs) := by
  refine .committed ((advances_digitField _ _ _ _ _).bind fun month rest hrest => ?_)
  refine ((advances_expectChar _ _ _).of_suffix hrest).bind fun _ day hday => ?_
  exact ((advances_digitField _ _ _ _ _).of_suffix hday).bind fun _ rest hrest => .ok hrest

theorem advances_year (cs : List Char) : Advances cs (year cs) :=
  (advances_digitField _ _ _ _ _).bind fun _ _ hrest =>
    ((advances_expectChar _ _ _).of_suffix hrest).bind fun _ _ hafter => .ok hafter

theorem advances_date? {reading : Except Fault (Parsed Unit)} (h : date? cs = some reading) :
    Advances cs reading := by
  unfold date? at h
  split at h
  · next rest _ hyear =>
    cases h
    exact ((advances_monthAndDay _ _).of_suffix (advances_year _ _ _ hyear)).bind
      fun _ _ hafter => (advances_afterDate _).of_suffix hafter
  · next hhour _ =>
    cases h
    exact (advances_timeTail _ _).of_suffix (advances_hour _ _ _ _ hhour)
  · cases h

theorem advances_basedInteger (base : Nat) (label : String) (isDigit : Char → Bool)
    (start cs : List Char) : Advances cs (basedInteger base label isDigit start cs) := by
  refine (advances_digitGroups _ _ _).bind fun digits rest hrest => ?_
  dsimp only
  split
  · exact .faultAt
  split
  · exact .faultAt
  · exact .ok hrest

theorem advances_integerDigits (cs : List Char) : Advances cs (integerDigits cs) := by
  unfold integerDigits
  split
  · exact .ok (List.suffix_cons _ _)
  · refine (advances_digitGroups _ _ _).bind fun digits rest hrest => ?_
    dsimp only
    split
    · exact .missAt
    · exact .ok hrest

theorem advances_fractionDigits (cs : List Char) : Advances cs (fractionDigits cs) := by
  refine (advances_digitGroups _ _ _).bind fun digits rest hrest => ?_
  dsimp only
  split
  · exact .faultAt
  · exact .ok hrest

theorem advances_exponentDigits (cs : List Char) : Advances cs (exponentDigits cs) := by
  refine (advances_digitGroups _ _ _).bind fun digits rest hrest => ?_
  dsimp only
  split
  · exact .faultAt
  · exact .ok hrest

theorem advances_exponent? {reading : Except Fault (Parsed (List Char))}
    (h : exponent? cs = some reading) : Advances cs reading := by
  unfold exponent? at h
  split at h
  · next c rest =>
    split at h
    · cases h
      refine .map ((advances_exponentDigits _).of_suffix ?_) fun _ => rfl
      refine .trans ?_ (List.suffix_cons _ _)
      split
      · exact List.suffix_cons _ _
      · exact List.suffix_cons _ _
      · exact List.suffix_refl _
    · cases h
  · cases h

theorem advances_fraction? {reading : Except Fault (Parsed (List Char))}
    (h : fraction? cs = some reading) : Advances cs reading := by
  unfold fraction? at h
  split at h
  · cases h
    refine .of_suffix (.bind (advances_fractionDigits _) fun ds rest hrest => ?_)
      (List.suffix_cons _ _)
    dsimp only
    split
    · next hmore =>
      exact ((advances_exponent? hmore).of_suffix hrest).bind fun _ _ hafter => .ok hafter
    · exact .ok hrest
  · exact advances_exponent? h

theorem advances_decimal (start sign cs : List Char) : Advances cs (decimal start sign cs) := by
  refine (advances_integerDigits _).bind fun digits rest hrest => ?_
  dsimp only
  split
  · next hmore =>
    refine ((advances_fraction? hmore).of_suffix hrest).bind fun tail after hafter => ?_
    dsimp only
    split
    · exact .ok hafter
    split
    · exact .faultAt
    · exact .ok hafter
  split
  · exact .ok hrest
  · exact .faultAt

theorem advances_number (cs : List Char) : Advances cs (number cs) := by
  have hbased : ∀ {rest : List Char} {reading : Except Fault (Parsed Int)},
      rest <:+ cs → Advances rest reading → Advances cs (number.based cs reading) :=
    fun hrest h => (h.of_suffix hrest).bind fun _ _ hafter => .ok hafter
  have hsigned : ∀ {sign rest : List Char}, rest <:+ cs →
      Advances cs (number.signed cs sign rest) := by
    intro sign rest hrest
    unfold number.signed
    split
    · exact .ok ((suffix_drop_three _ _ _ _).trans hrest)
    · exact .ok ((suffix_drop_three _ _ _ _).trans hrest)
    · exact (advances_decimal _ _ _).of_suffix hrest
  unfold number
  split
  · exact hbased (List.suffix_append ['0', 'x'] _) (advances_basedInteger _ _ _ _ _)
  · exact hbased (List.suffix_append ['0', 'o'] _) (advances_basedInteger _ _ _ _ _)
  · exact hbased (List.suffix_append ['0', 'b'] _) (advances_basedInteger _ _ _ _ _)
  · exact hsigned (List.suffix_cons _ _)
  · exact hsigned (List.suffix_cons _ _)
  · exact advances_decimal _ _ _

/-! ### Values

Arrays and inline tables have values in them, and these have others. The
three readers call each other with less fuel, so the three statements are
proved together. -/

theorem word?_suffix {spelling : String} {make : Place → Item} {p : Parsed Item}
    (h : word? spelling make cs = some p) : p.2 <:+ cs := by
  obtain ⟨rest, hrest, rfl⟩ := Option.map_eq_some_iff.mp h
  exact ⟨spelling.toList, (Text.dropFront?_eq_some.mp hrest).symm⟩

theorem advances_scalar (cs : List Char) : Advances cs (scalar cs) := by
  unfold scalar
  split
  · split
    · exact (advances_string _).bind fun _ _ hrest => .ok hrest
    split
    · split
      · next hdate => exact (advances_date? hdate).bind fun _ _ hrest => .ok hrest
      · exact advances_number _
    split
    · exact .missAt
    split
    · exact .missAt
    split
    · next hword => exact .ok (word?_suffix hword)
    · next hword _ => exact .ok (word?_suffix hword)
    · next hword _ _ => exact .ok (word?_suffix hword)
    · next hword _ _ _ => exact .ok (word?_suffix hword)
    · split
      · exact .faultAt
      · exact .missAt
  · exact .missAt

theorem advances_arrayFault (rest : List Char) : Advances (α := α) cs (arrayFault rest) := by
  unfold arrayFault
  split <;> exact .faultAt

section Nested

variable {fuel : Nat}

/-- A value advances if what is inside of its brackets does. -/
theorem advances_value_succ (helements : ∀ depth cs, Advances cs (elements fuel depth cs))
    (hpairs : ∀ depth cs stop rest, stop <:+ cs → rest <:+ cs →
      Advances cs (pairs fuel depth stop rest)) (depth : Nat) (cs : List Char) :
    Advances cs (value (fuel + 1) depth cs) := by
  unfold value
  split
  · split
    · exact .faultAt
    · exact ((helements _ _).of_suffix (List.suffix_cons _ _)).bind fun _ _ hafter => .ok hafter
  · next rest =>
    split
    · exact .faultAt
    have hspace : rest.dropWhile isSpace <:+ '{' :: rest :=
      (List.dropWhile_suffix _).trans (List.suffix_cons _ _)
    split
    · next after hclose => exact .ok ((List.suffix_cons _ _).trans (hclose ▸ hspace))
    · refine (hpairs _ _ _ _ hspace (List.suffix_cons _ _)).bind fun _ after hafter => ?_
      dsimp only
      split
      · exact .faultAt
      · exact .ok ((List.suffix_cons _ _).trans hafter)
      · exact .faultAt
  · exact advances_scalar _

/-- Elements advance if the first one does, and those behind its comma. -/
theorem advances_elements_succ (hvalue : ∀ depth cs, Advances cs (value fuel depth cs))
    (helements : ∀ depth cs, Advances cs (elements fuel depth cs)) (depth : Nat)
    (cs : List Char) : Advances cs (elements (fuel + 1) depth cs) := by
  have hskip : skipFiller cs.length cs <:+ cs := skipFiller_suffix _ _
  unfold elements
  split
  · next after hclose => exact .ok ((List.suffix_cons _ _).trans (hclose ▸ hskip))
  · split
    · split
      · exact advances_arrayFault _
      · exact .error
    · next v rest hv =>
      have hrest : skipFiller rest.length rest <:+ cs :=
        (skipFiller_suffix _ _).trans ((hvalue _ _ _ _ hv).trans hskip)
      split
      · next after hclose => exact .ok ((List.suffix_cons _ _).trans (hclose ▸ hrest))
      · next more hcomma =>
        have hmore : more <:+ cs := (List.suffix_cons _ _).trans (hcomma ▸ hrest)
        exact ((helements _ _).of_suffix hmore).bind fun _ _ hafter => .ok hafter
      · exact advances_arrayFault _

/-- Pairs advance if the value of the first one does, and those behind its
comma. -/
theorem advances_pairs_succ (hvalue : ∀ depth cs, Advances cs (value fuel depth cs))
    (hpairs : ∀ depth cs stop rest, stop <:+ cs → rest <:+ cs →
      Advances cs (pairs fuel depth stop rest)) (depth : Nat) {stop : List Char}
    (hstop : stop <:+ cs) (hrest : rest <:+ cs) :
    Advances cs (pairs (fuel + 1) depth stop rest) := by
  unfold pairs
  split
  · split
    · exact .ok hstop
    · exact .error
  · next k after hk =>
    have hafter := (advances_key _ _ _ hk).trans hrest
    split
    · next start =>
      have hstart : start.dropWhile isSpace <:+ cs :=
        (List.dropWhile_suffix _).trans ((List.suffix_cons _ _).trans hafter)
      refine (Advances.committed ((hvalue _ _).of_suffix hstart)).bind fun v rest hrest => ?_
      have hspace : rest.dropWhile isSpace <:+ cs := (List.dropWhile_suffix _).trans hrest
      dsimp only
      split
      · next more hcomma =>
        have hmore : more <:+ cs := (List.suffix_cons _ _).trans (hcomma ▸ hspace)
        exact (hpairs _ _ _ _ hspace hmore).bind fun _ _ hafter => .ok hafter
      · exact .ok hspace
    · exact .faultAt

end Nested

/-- Values, elements and pairs are read by one recursion: whatever is inside
of a bracket is read with less fuel. -/
theorem advances_nested (fuel : Nat) :
    (∀ depth cs, Advances cs (value fuel depth cs)) ∧
      (∀ depth cs, Advances cs (elements fuel depth cs)) ∧
        ∀ depth cs stop rest, stop <:+ cs → rest <:+ cs →
          Advances cs (pairs fuel depth stop rest) := by
  induction fuel with
  | zero => exact ⟨fun _ _ => .faultAt, fun _ _ => .faultAt, fun _ _ _ _ _ _ => .faultAt⟩
  | succ fuel ih =>
    obtain ⟨hvalue, helements, hpairs⟩ := ih
    exact ⟨advances_value_succ helements hpairs, advances_elements_succ hvalue helements,
      fun depth _ _ _ => advances_pairs_succ hvalue hpairs depth⟩

/-- **What a value leaves is an end of the text.** -/
theorem advances_value (fuel depth : Nat) (cs : List Char) : Advances cs (value fuel depth cs) :=
  (advances_nested fuel).1 depth cs

/-! ### Statements

What is found behind the reading of a statement is the end of a line, or
the end of the text. That is more than that the reader advances, and it is
what makes the line of a key known. -/

theorem startsLine_of_lineEnd {complaint : String} {u : Unit}
    (h : lineEnd complaint cs = .ok (u, rest)) : StartsLine cs rest := by
  have hskip : skipComment (cs.dropWhile isSpace) <:+ cs :=
    (skipComment_suffix _).trans (List.dropWhile_suffix _)
  unfold lineEnd at h
  dsimp only at h
  split at h
  · cases h
    exact Or.inl rfl
  · next hbreak _ =>
    cases h
    exact StartsLine.of_suffix (Or.inr (exists_of_afterLineBreak? hbreak)) hskip
  · cases h

/-- What reading an assignment amounts to: a key, an equals sign, a value
and the end of the line. -/
theorem exists_of_assignment {s : Statement} (h : assignment cs = .ok (s, rest)) :
    ∃ k more v after, key cs = .ok (k, '=' :: more) ∧ s = .assignment (placeBetween cs after) k v ∧
      after <:+ cs ∧ lineEnd "expected newline, `#`" after = .ok ((), rest) := by
  obtain ⟨⟨k, rest'⟩, hkey, h⟩ := Except.bind_eq_ok.mp h
  dsimp only at h
  split at h
  · next more =>
    obtain ⟨⟨v, after⟩, hvalue, h⟩ := Except.bind_eq_ok.mp h
    obtain ⟨⟨u, rest'⟩, hend, h⟩ := Except.bind_eq_ok.mp h
    cases h
    have hmore : more.dropWhile isSpace <:+ cs :=
      (List.dropWhile_suffix _).trans ((List.suffix_cons _ _).trans (advances_key _ _ _ hkey))
    exact ⟨k, more, v, after, hkey, rfl, (advances_value _ _ _ _ _ hvalue).trans hmore, hend⟩
  · cases h

/-- Reading a header gives a header, and leaves what stands behind the end
of its line. -/
theorem exists_of_header {s : Statement} (h : header cs = .ok (s, rest)) :
    (∀ place k v, s ≠ .assignment place k v) ∧
      ∃ after, after <:+ cs ∧ headerEnd after = .ok ((), rest) := by
  unfold header at h
  split at h
  · obtain ⟨⟨path, after⟩, hkey, h⟩ := Except.bind_eq_ok.mp h
    have hafter := (advances_key _ _ _ hkey).trans (List.suffix_append ['[', '['] _)
    dsimp only at h
    split at h
    · obtain ⟨⟨u, rest'⟩, hend, h⟩ := Except.bind_eq_ok.mp h
      cases h
      exact ⟨fun _ _ _ => Statement.noConfusion, _,
        (List.suffix_append [']', ']'] _).trans hafter, hend⟩
    · cases h
  · obtain ⟨⟨path, after⟩, hkey, h⟩ := Except.bind_eq_ok.mp h
    have hafter := (advances_key _ _ _ hkey).trans (List.suffix_append ['['] _)
    dsimp only at h
    split at h
    · obtain ⟨⟨u, rest'⟩, hend, h⟩ := Except.bind_eq_ok.mp h
      cases h
      exact ⟨fun _ _ _ => Statement.noConfusion, _, (List.suffix_cons _ _).trans hafter, hend⟩
    · cases h
  · cases h

/-- **A statement goes up to the end of a line**: the next one starts on a
new line. -/
theorem startsLine_of_statement {s : Statement} (h : statement cs = .ok (s, rest)) :
    StartsLine cs rest := by
  unfold statement at h
  split at h
  · obtain ⟨-, after, hafter, hend⟩ := exists_of_header h
    exact (startsLine_of_lineEnd hend).of_suffix hafter
  · cases h
  · obtain ⟨k, more, v, after, -, -, hafter, hend⟩ := exists_of_assignment h
    exact (startsLine_of_lineEnd hend).of_suffix hafter

end Stylebook.Toml
