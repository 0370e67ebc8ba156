import Mathlib.Algebra.Order.BigOperators.Group.List
import Mathlib.Algebra.Order.Group.Nat
import Mathlib.Data.Finset.Prod
import Stylebook.Proofs.Import.Call
import Stylebook.Proofs.Import.Stripping
import Stylebook.Proofs.Path.Normal
import Stylebook.Proofs.Store.Memory

/-!
# The bound on nested statements

`inlineImports` stops when more statements stand inside of each other than
`FileStore.extent` allows. For files in memory that bound is never what
decides: a call that comes to an end with any bound at all comes to an end
with this one (`inlineImports_eq_of_result`).

The argument is about one chain of calls. The *rank* of a call is the least
bound with which it ends, and a call of positive rank makes one whose rank
is one less. What such a call does depends on its path and on what the
statements around it leave of the files. Going down the chain the files only
lose text. So if two calls of the chain stand at the same path and the same
amount of text is left, they do the same, and then they have the same rank,
which is absurd. There are no more different calls than paths, times amounts
of text.
-/

namespace Stylebook

open Import

namespace Memory

/-- How much text the statements of the targets leave of all files together. -/
def residue (m : Memory) (targets : List String) : Nat :=
  (m.files.map fun e => (stripAll targets e.2.toList).length).foldr (· + ·) 0

/-- No more is left than there was. -/
theorem residue_le (m : Memory) (targets : List String) : m.residue targets ≤ m.totalLength := by
  refine List.sum_le_sum fun e _ => ?_
  exact (stripAll_sublist targets e.2.toList).length_le

/-- **Files of which the same amount is left are left the same.** -/
theorem stripAll_eq_of_residue_eq {m : Memory} {targets more : List String}
    (h : m.residue targets = m.residue (targets ++ more)) {e : Path × String}
    (he : e ∈ m.files) : stripAll (targets ++ more) e.2.toList = stripAll targets e.2.toList := by
  refine stripAll_append_eq (le_of_not_gt fun hlt => ?_)
  refine absurd h (ne_of_gt ?_)
  exact List.sum_lt_sum _ _ (fun d _ => length_stripAll_append_le _ _ _) ⟨e, he, hlt⟩

end Memory

namespace Call

/-! ## Calls that do the same

A call has the names of all statements around it, and no two calls of a
chain have the same. But what it does with these names is to take statements
out of texts. If nothing more is taken out, a name more makes no difference. -/

/-- Two calls at one path do the same if the statements around them leave
the same of their source and of every file. -/
theorem result_congr_enclosing {m : Memory} {E E' : List String} {origin : Path} {source : String}
    (hsource : stripAll E source.toList = stripAll E' source.toList)
    (hfiles : ∀ e ∈ m.files, stripAll E e.2.toList = stripAll E' e.2.toList) (bound : Nat) :
    result m bound ⟨E, origin, source⟩ = result m bound ⟨E', origin, source⟩ := by
  have htext : (⟨E, origin, source⟩ : Call).text = (⟨E', origin, source⟩ : Call).text := hsource
  have htargets : (⟨E, origin, source⟩ : Call).targets = (⟨E', origin, source⟩ : Call).targets := by
    rw [targets, targets, htext]
  induction bound generalizing E E' origin source with
  | zero => rw [result_zero, result_zero, htext]
  | succ bound ih =>
    have hreplaced : (⟨E, origin, source⟩ : Call).replaced
        = (⟨E', origin, source⟩ : Call).replaced := by
      funext parts
      rw [replaced, replaced, htext, htargets]
    rw [result_succ, result_succ, hreplaced, htargets]
    refine congrArg _ (Except.mapM_congr fun t _ => ?_)
    have hpath : (⟨E, origin, source⟩ : Call).path t = (⟨E', origin, source⟩ : Call).path t := rfl
    cases hfetch : FileStore.fetch m ((⟨E, origin, source⟩ : Call).path t) with
    | error e => rw [part_eq_of_error hfetch, part_eq_of_error (hpath ▸ hfetch)]
    | ok imported =>
      rw [part_eq_of_fetch hfetch, part_eq_of_fetch (hpath ▸ hfetch)]
      -- one more target is taken out on both sides
      have hmore : ∀ e ∈ m.files,
          stripAll (E ++ [t]) e.2.toList = stripAll (E' ++ [t]) e.2.toList := by
        intro e he
        rw [stripAll_append, stripAll_append, hfiles e he]
      obtain ⟨e, he, -, rfl⟩ := Memory.exists_mem_of_fetch hfetch
      have hinner := hmore e he
      exact ih hinner hmore hinner (by rw [targets, targets]; exact congrArg _ (congrArg _
        (congrArg _ hinner)))

/-! ## Ranks

Ranks go down by one along a suitable chain, so a call of a great rank has a
long chain below it, with a call of every smaller rank in it. Their keys
must all be different. -/

/-- **The rank of a call**: one less than the least bound with which it
ends. -/
def HasRank (m : Memory) (c : Call) (n : Nat) : Prop :=
  Endless (result m n c) ∧ ¬Endless (result m (n + 1) c)

/-- A call has one rank. -/
theorem HasRank.eq {m : Memory} {c : Call} {n n' : Nat} (h : HasRank m c n) (h' : HasRank m c n') :
    n = n' := by
  refine le_antisymm (le_of_not_gt fun hlt => ?_) (le_of_not_gt fun hlt => ?_)
  · exact absurd h.1 (by rw [result_le h'.2 hlt]; exact h'.2)
  · exact absurd h'.1 (by rw [result_le h.2 hlt]; exact h.2)

/-- A call with a source from the files, as each call is that another one
makes. -/
structure IsInner (m : Memory) (c : Call) : Prop where
  normal : ∃ p : Path, c.origin = p.normalize
  fetched : FileStore.fetch m c.origin = .ok c.source

/-- Each call that is made has its source from the files. -/
theorem Makes.isInner {m : Memory} {c d : Call} (h : Makes m c d) : IsInner m d := by
  obtain ⟨t, -, imported, hfetch, rfl⟩ := h
  exact ⟨⟨_, rfl⟩, hfetch⟩

/-- The calls further down have their sources from the files as well. -/
theorem isInner_of_makes {m : Memory} {c d : Call} (hc : IsInner m c)
    (h : Relation.ReflTransGen (Makes m) c d) : IsInner m d := by
  induction h with
  | refl => exact hc
  | tail _ hmakes _ => exact hmakes.isInner

/-- The statements around a call stand around those that it makes. -/
theorem exists_enclosing_eq {m : Memory} {c d : Call} (h : Relation.ReflTransGen (Makes m) c d) :
    ∃ more, d.enclosing = c.enclosing ++ more := by
  induction h with
  | refl => exact ⟨[], (List.append_nil _).symm⟩
  | tail _ hmakes ih =>
    obtain ⟨more, hmore⟩ := ih
    obtain ⟨t, -, imported, -, rfl⟩ := hmakes
    exact ⟨more ++ [t], by rw [inner, hmore, List.append_assoc]⟩

/-- What a call does depends on this: how much is left of the files, and
where it stands. -/
def key (m : Memory) (c : Call) : Nat × List Component :=
  (m.residue c.enclosing, c.origin.components)

/-- **Calls of one chain with one key have one rank.** -/
theorem hasRank_of_key_eq {m : Memory} {c d : Call} {n : Nat} (hc : IsInner m c)
    (h : Relation.ReflTransGen (Makes m) c d) (hkey : key m c = key m d) (hrank : HasRank m d n) :
    HasRank m c n := by
  have hd := isInner_of_makes hc h
  obtain ⟨more, hmore⟩ := exists_enclosing_eq h
  -- one path has one text, and the statements in between take nothing more out of it
  obtain ⟨E, origin, source⟩ := c
  obtain ⟨E', origin', source'⟩ := d
  have horigin : origin' = origin := by
    obtain ⟨p, hp⟩ := hc.normal
    obtain ⟨q, hq⟩ := hd.normal
    have hsame : origin.same origin' = true := Path.same_iff.mpr (congrArg Prod.snd hkey)
    change origin = p.normalize at hp
    change origin' = q.normalize at hq
    rw [hp, hq] at hsame
    rw [hp, hq, Path.normalize_eq_of_same hsame]
  have hsource : source' = source := by
    have hfetched := hd.fetched
    rw [show Call.origin ⟨E', origin', source'⟩ = origin from horigin, hc.fetched] at hfetched
    exact (Except.ok.inj hfetched).symm
  change E' = E ++ more at hmore
  subst horigin hsource hmore
  have hleft := fun e he => (Memory.stripAll_eq_of_residue_eq (congrArg Prod.fst hkey) (e := e) he)
  obtain ⟨e, he, -, heq⟩ := Memory.exists_mem_of_fetch hc.fetched
  have hown := hleft e he
  rw [heq] at hown
  unfold HasRank
  rw [← result_congr_enclosing hown hleft, ← result_congr_enclosing hown hleft]
  exact hrank

/-- Below a call of a rank, there are as many keys as the rank says. -/
theorem exists_keys {m : Memory} {c : Call} {n : Nat} (hc : IsInner m c) (hrank : HasRank m c n) :
    ∃ keys : Finset (Nat × List Component), keys.card = n + 1 ∧
      ∀ k ∈ keys, ∃ d i, Relation.ReflTransGen (Makes m) c d ∧ i ≤ n ∧ HasRank m d i
        ∧ k = key m d := by
  induction n generalizing c with
  | zero =>
    refine ⟨{key m c}, rfl, fun k hk => ?_⟩
    exact ⟨c, 0, Relation.ReflTransGen.refl, le_refl _, hrank, Finset.mem_singleton.mp hk⟩
  | succ n ih =>
    obtain ⟨d, hmakes, hends, hends'⟩ := exists_makes hrank.1 hrank.2
    obtain ⟨keys, hcard, hkeys⟩ := ih hmakes.isInner ⟨hends, hends'⟩
    have hnew : key m c ∉ keys := by
      -- a call below with the key of this one would have its rank
      intro hmem
      obtain ⟨e, i, hreach, hi, hranke, hkey⟩ := hkeys _ hmem
      have := (hasRank_of_key_eq hc (hreach.head hmakes) hkey hranke).eq hrank
      omega
    refine ⟨insert (key m c) keys, by rw [Finset.card_insert_of_notMem hnew, hcard], ?_⟩
    intro k hk
    rcases Finset.mem_insert.mp hk with rfl | hk
    · exact ⟨c, n + 1, Relation.ReflTransGen.refl, le_refl _, hrank, rfl⟩
    · obtain ⟨e, i, hreach, hi, hranke, hkey⟩ := hkeys k hk
      exact ⟨e, i, hreach.head hmakes, Nat.le_succ_of_le hi, hranke, hkey⟩

/-- The keys that calls can have. -/
def possibleKeys (m : Memory) : Finset (Nat × List Component) :=
  Finset.range (m.totalLength + 1) ×ˢ (m.files.map fun e => e.1.components).toFinset

/-- The key of a call is one of these. -/
theorem key_mem_possibleKeys {m : Memory} {c : Call} (hc : IsInner m c) :
    key m c ∈ possibleKeys m := by
  obtain ⟨e, he, hsame, -⟩ := Memory.exists_mem_of_fetch hc.fetched
  refine Finset.mem_product.mpr ⟨Finset.mem_range.mpr ?_, List.mem_toFinset.mpr ?_⟩
  · exact Nat.lt_succ_of_le (m.residue_le _)
  · exact List.mem_map.mpr ⟨e, he, Path.same_iff.mp hsame⟩

/-- The number of possible keys, by the number of targets. A path of calls
with different keys is no longer than this, which bounds the depth. -/
theorem card_possibleKeys_le (m : Memory) :
    (possibleKeys m).card ≤ (m.totalLength + 1) * m.files.length := by
  rw [possibleKeys, Finset.card_product, Finset.card_range]
  refine Nat.mul_le_mul_left _ ((List.toFinset_card_le _).trans ?_)
  rw [List.length_map]

/-- **The rank of a call has a bound.** -/
theorem rank_lt {m : Memory} {c : Call} {n : Nat} (hc : IsInner m c) (hrank : HasRank m c n) :
    n < (m.totalLength + 1) * m.files.length := by
  obtain ⟨keys, hcard, hkeys⟩ := exists_keys hc hrank
  have hsub : keys ⊆ possibleKeys m := by
    intro k hk
    obtain ⟨d, i, hreach, -, -, rfl⟩ := hkeys k hk
    exact key_mem_possibleKeys (isInner_of_makes hc hreach)
  exact lt_of_lt_of_le (by rw [hcard]; exact Nat.lt_succ_self n)
    ((Finset.card_le_card hsub).trans (card_possibleKeys_le m))

/-- A call that ends has a rank, or ends at once. -/
theorem exists_hasRank {m : Memory} {c : Call} {bound : Nat} (h : ¬Endless (result m bound c)) :
    ¬Endless (result m 0 c) ∨ ∃ n, HasRank m c n := by
  induction bound with
  | zero => exact Or.inl h
  | succ bound ih =>
    by_cases hends : Endless (result m bound c)
    · exact Or.inr ⟨bound, hends, h⟩
    · exact ih hends

/-- **The extent of files in memory is a large enough bound.** -/
theorem result_extent_eq {m : Memory} {c : Call} {bound : Nat}
    (h : ¬Endless (result m bound c)) :
    result m (FileStore.extent m + 1) c = result m bound c := by
  have henough : ¬Endless (result m (FileStore.extent m + 1) c) := by
    rcases exists_hasRank h with hzero | ⟨n, hrank⟩
    · rw [result_le hzero (Nat.zero_le _)]
      exact hzero
    · have hn : n + 1 ≤ FileStore.extent m + 1 := by
        show n + 1 ≤ (m.totalLength + 1) * (m.files.length + 1) + 1 + 1
        rw [Nat.mul_succ]
        cases n with
        | zero => omega
        | succ n =>
          -- the call itself may have any source, but those that it makes have one of the files
          obtain ⟨d, hmakes, hends, hends'⟩ := exists_makes hrank.1 hrank.2
          have := rank_lt hmakes.isInner ⟨hends, hends'⟩
          omega
      rw [result_le hrank.2 hn]
      exact hrank.2
  rcases le_total bound (FileStore.extent m + 1) with hle | hle
  · exact result_le h hle
  · exact (result_le henough hle).symm

/-- **Inlining answers what any bound answers** that lets it come to an end. -/
theorem inlineImports_eq_of_result {m : Memory} {origin : Path} {source : String} {bound : Nat}
    {r : Except Stop String} (h : result m bound ⟨[], origin, source⟩ = r)
    (hends : ¬Endless r) : inlineImports m origin source = r := by
  rw [← h] at hends
  exact (result_extent_eq hends).trans h

end Call

end Stylebook
