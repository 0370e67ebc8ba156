import Stylebook.Dictionary.Trie
import Stylebook.Proofs.Style.Table

/-!
# The dictionary is a map from chains

A dictionary stores its chains in a trie, where chains share their fronts
and one chain may be the front of another one, and the nodes of the trie
stand in an arena. None of this shows: to a lookup the dictionary is a map
from chains to properties. An insertion writes under its own chain and
nowhere else (`Dictionary.lookup?_insert`), and the size counts the chains
that were written (`Dictionary.size_insert`).

An insertion does two things. It grafts the nodes of its chain that are
missing, and then it stores properties at the last one. Grafting adds nodes
without properties, so no lookup tells the difference
(`Dictionary.lookup?_descend`). Storing changes what is found at one place
of the arena, and only one chain leads to it (`Dictionary.place?_inj`).

What a run of insertions leaves is then told without the trie, from the list
of the insertions alone (`Dictionary.isMap_insertAll`): under each chain the
properties that were inserted there, in the order in which they came in,
each with its first value.
-/

namespace Stylebook

open Style (Properties)

namespace Dictionary

/-! ## Places

A chain leads from the root to a place in the arena, one child at a time.
That no two chains lead to one place is what keeps an insertion from showing
under another chain. -/

/-- There is nothing in the empty dictionary. -/
@[simp] theorem lookup?_empty (chain : List String) : empty.lookup? chain = none := by
  cases chain <;> rfl

section Place

variable {d : Dictionary} {i j : Nat} {token : String} {chain chain' : List String}

/-- A chain goes to a child first and on from there. -/
theorem place?_cons (d : Dictionary) (i : Nat) (token : String) (chain : List String) :
    d.place? i (token :: chain) = (d.child? i token).bind fun j => d.place? j chain := by
  rw [place?]
  cases d.child? i token <;> rfl

/-- A chain may be followed in two goes. -/
theorem place?_append (d : Dictionary) (i : Nat) (chain chain' : List String) :
    d.place? i (chain ++ chain') = (d.place? i chain).bind fun j => d.place? j chain' := by
  induction chain generalizing i with
  | nil => rfl
  | cons token chain ih =>
    rw [List.cons_append, place?_cons, place?_cons]
    cases d.child? i token with
    | none => rfl
    | some j => exact ih j

/-- A node has no children outside of the arena. -/
theorem lt_of_child? (h : d.child? i token = some j) : i < d.nodes.size := by
  cases hnode : d.nodes[i]? with
  | none =>
    rw [child?, DictionaryNode.child?, hnode] at h
    cases h
  | some n => exact (Array.getElem?_eq_some_iff.mp hnode).1

/-- A place is one of the arena. -/
theorem place?_lt (hi : i < d.nodes.size) (h : d.place? i chain = some j) : j < d.nodes.size := by
  induction chain generalizing i with
  | nil =>
    cases h
    exact hi
  | cons token chain ih =>
    rw [place?_cons] at h
    obtain ⟨k, hk, hrest⟩ := Option.bind_eq_some_iff.mp h
    exact ih (d.child_lt hk).2 hrest

/-- The last step of a chain. -/
theorem place?_concat : d.place? i (chain ++ [token]) = some j
    ↔ ∃ k, d.place? i chain = some k ∧ d.child? k token = some j := by
  have hone : ∀ k, d.place? k [token] = d.child? k token := by
    intro k
    rw [place?_cons]
    exact Option.bind_fun_some _
  rw [place?_append, Option.bind_eq_some_iff]
  simp only [hone]

/-- **One chain leads to a place.** -/
theorem place?_inj (h : d.place? root chain = some i) (h' : d.place? root chain' = some i) :
    chain = chain' := by
  -- from the last step backwards: a place has one parent, and the root has none
  induction chain using List.reverseRecOn generalizing chain' i with
  | nil =>
    obtain rfl : root = i := Option.some.inj h
    cases chain' using List.reverseRecOn with
    | nil => rfl
    | append_singleton chain' token =>
      obtain ⟨k, -, hchild⟩ := place?_concat.mp h'
      exact absurd (d.child_lt hchild).1 (Nat.not_lt_zero k)
  | append_singleton chain token ih =>
    obtain ⟨k, hk, hchild⟩ := place?_concat.mp h
    cases chain' using List.reverseRecOn with
    | nil =>
      obtain rfl : root = i := Option.some.inj h'
      exact absurd (d.child_lt hchild).1 (Nat.not_lt_zero k)
    | append_singleton chain' token' =>
      obtain ⟨k', hk', hchild'⟩ := place?_concat.mp h'
      obtain ⟨rfl, rfl⟩ := d.child_inj hchild hchild'
      rw [ih hk hk']

end Place

/-! ## Grafting

A node that is missing on the way is put at the end of the arena, without
properties and without children. Chains that led somewhere lead there as
before. The ones that come to the new node find nothing, as before. -/

section Graft

variable {d : Dictionary} {parent : Nat} {token : String}

/-- Grafting adds one child, at the end of the arena. -/
theorem child?_graft_eq (d : Dictionary) (parent i : Nat) (token t : String) :
    (d.graft parent token).child? i t
      = if i = parent ∧ t = token ∧ parent < d.nodes.size then some d.nodes.size
        else d.child? i t :=
  child?_graft d.nodes parent i token t

theorem lt_size_graft (d : Dictionary) (parent : Nat) (token : String) :
    d.nodes.size < (d.graft parent token).nodes.size := by
  simp [graft]

/-- The new node has no properties, and the others have theirs. -/
theorem propertiesAt_graft (d : Dictionary) (parent : Nat) (token : String) (i : Nat) :
    (d.graft parent token).propertiesAt i = d.propertiesAt i := by
  rw [propertiesAt, propertiesAt, graft, Array.getElem?_push, Array.size_modify,
    Array.getElem?_modify]
  by_cases hnew : i = d.nodes.size
  · rw [if_pos hnew, hnew, Array.getElem?_eq_none (Nat.le_refl _)]
    rfl
  · rw [if_neg hnew]
    split
    · cases d.nodes[i]? <;> rfl
    · rfl

/-- A child that was there stays, when the one that is grafted was not. -/
theorem child?_graft_of_some (hnone : d.child? parent token = none) {i j : Nat} {t : String}
    (h : d.child? i t = some j) : (d.graft parent token).child? i t = some j := by
  rw [child?_graft_eq, if_neg ?_, h]
  rintro ⟨rfl, rfl, -⟩
  rw [hnone] at h
  cases h

/-- What a chain led to it leads to. -/
theorem place?_graft_of_some (hnone : d.child? parent token = none) {i j : Nat}
    {chain : List String} (h : d.place? i chain = some j) :
    (d.graft parent token).place? i chain = some j := by
  induction chain generalizing i with
  | nil => exact h
  | cons t chain ih =>
    rw [place?_cons] at h ⊢
    obtain ⟨k, hk, hrest⟩ := Option.bind_eq_some_iff.mp h
    rw [child?_graft_of_some hnone hk]
    exact ih hrest

/-- A chain that led nowhere leads to the new node at most. -/
theorem place?_graft_of_none {i j : Nat} {chain : List String} (h : d.place? i chain = none)
    (hgraft : (d.graft parent token).place? i chain = some j) : j = d.nodes.size := by
  induction chain generalizing i with
  | nil => cases h
  | cons t chain ih =>
    rw [place?_cons] at h hgraft
    obtain ⟨k, hk, hrest⟩ := Option.bind_eq_some_iff.mp hgraft
    rw [child?_graft_eq] at hk
    split at hk
    · rename_i hnew
      cases hk
      -- the new node has no child
      cases chain with
      | nil => exact (Option.some.inj hrest).symm
      | cons u chain =>
        rw [place?_cons] at hrest
        obtain ⟨k', hk', -⟩ := Option.bind_eq_some_iff.mp hrest
        rw [child?_graft_eq, if_neg (by omega)] at hk'
        exact absurd (lt_of_child? hk') (Nat.lt_irrefl _)
    · rw [hk, Option.bind_some] at h
      exact ih h hrest

/-- **Grafting changes no lookup.** -/
theorem lookup?_graft (hnone : d.child? parent token = none) (chain : List String) :
    (d.graft parent token).lookup? chain = d.lookup? chain := by
  rw [lookup?, lookup?]
  cases h : d.place? root chain with
  | some i =>
    rw [place?_graft_of_some hnone h]
    exact propertiesAt_graft d parent token i
  | none =>
    cases hgraft : (d.graft parent token).place? root chain with
    | none => rfl
    | some j =>
      obtain rfl := place?_graft_of_none h hgraft
      show (d.graft parent token).propertiesAt d.nodes.size = none
      rw [propertiesAt_graft, propertiesAt, Array.getElem?_eq_none (Nat.le_refl _)]
      rfl

/-- A count when one element of an array is modified. -/
theorem countP_modify {α : Type} {p : α → Bool} {f : α → α} {as : Array α} {i : Nat} {a : α}
    (h : as[i]? = some a) :
    (as.modify i f).countP p + (if p a = true then 1 else 0)
      = as.countP p + if p (f a) = true then 1 else 0 := by
  obtain ⟨as⟩ := as
  rw [← Array.countP_toList, ← Array.countP_toList, Array.toList_modify]
  rw [List.getElem?_toArray] at h
  induction as generalizing i with
  | nil => simp at h
  | cons b as ih =>
    cases i with
    | zero =>
      cases h
      simp only [List.modify_zero_cons, List.countP_cons]
      omega
    | succ i =>
      have hrest := ih h
      simp only [List.modify_succ_cons, List.countP_cons] at hrest ⊢
      omega

/-- The size stays: it counts properties. -/
theorem size_graft (hparent : parent < d.nodes.size) : (d.graft parent token).size = d.size := by
  have hnode : d.nodes[parent]? = some d.nodes[parent] := Array.getElem?_eq_getElem hparent
  have hcount := countP_modify (p := fun n : DictionaryNode => n.properties.isSome)
    (f := fun n => { n with children := n.children.insert token d.nodes.size }) hnode
  rw [size, size, graft, Array.countP_push]
  simpa using hcount

end Graft

/-! ## Descending

Descending grafts as it goes, and as soon as one node is missing all that
follow are. Each graft was shown to be harmless, and the induction is along
the chain. -/

section Descend

variable (d : Dictionary) (i : Nat) (chain : List String)

/-- A child that was there stays. -/
theorem child?_descend_of_some {k j : Nat} {t : String} (h : d.child? k t = some j) :
    (d.descend i chain).1.child? k t = some j := by
  fun_induction descend d i chain with
  | case1 => exact h
  | case2 d i token chain j hchild ih => exact ih h
  | case3 d i token chain hchild ih => exact ih (child?_graft_of_some hchild h)

/-- **The nodes of the chain are there in the end.** -/
theorem place?_descend (hi : i < d.nodes.size) :
    (d.descend i chain).1.place? i chain = some (d.descend i chain).2 := by
  fun_induction descend d i chain with
  | case1 => rfl
  | case2 d i token chain j hchild ih =>
    rw [place?_cons, child?_descend_of_some d j chain hchild]
    exact ih (d.child_lt hchild).2
  | case3 d i token chain hchild ih =>
    have hgraft : (d.graft i token).child? i token = some d.nodes.size := by
      rw [child?_graft_eq, if_pos ⟨rfl, rfl, hi⟩]
    rw [place?_cons, child?_descend_of_some (d.graft i token) d.nodes.size chain hgraft]
    exact ih (lt_size_graft d i token)

/-- **Descending changes no lookup.** -/
theorem lookup?_descend (c : List String) : (d.descend i chain).1.lookup? c = d.lookup? c := by
  fun_induction descend d i chain with
  | case1 => rfl
  | case2 d i token chain j hchild ih => exact ih
  | case3 d i token chain hchild ih => rw [ih, lookup?_graft hchild]

/-- The size stays as well. -/
theorem size_descend (hi : i < d.nodes.size) : (d.descend i chain).1.size = d.size := by
  fun_induction descend d i chain with
  | case1 => rfl
  | case2 d i token chain j hchild ih => exact ih (d.child_lt hchild).2
  | case3 d i token chain hchild ih => rw [ih (lt_size_graft d i token), size_graft hi]

end Descend

/-! ## Storing

Storing changes one node. It is the place of one chain, so one lookup
changes. -/

section Store

variable {d : Dictionary} {i : Nat}

/-- Storing moves nothing. -/
theorem place?_store (d : Dictionary) (i : Nat) (properties : Properties) (k : Nat)
    (chain : List String) : (d.store i properties).place? k chain = d.place? k chain := by
  induction chain generalizing k with
  | nil => rfl
  | cons token chain ih =>
    have hchild : (d.store i properties).child? k token = d.child? k token :=
      child?_store d.nodes i k token properties
    rw [place?_cons, place?_cons, hchild]
    exact congrArg _ (funext ih)

/-- It adds to the properties of one node, -/
theorem propertiesAt_store (hi : i < d.nodes.size) (properties : Properties) (j : Nat) :
    (d.store i properties).propertiesAt j
      = if j = i then some (addNew (d.propertiesAt i) properties) else d.propertiesAt j := by
  rw [propertiesAt, propertiesAt, propertiesAt, store, Array.getElem?_modify]
  by_cases hj : i = j
  · subst hj
    rw [if_pos rfl, if_pos rfl, Array.getElem?_eq_getElem hi]
    rfl
  · rw [if_neg hj, if_neg (Ne.symm hj)]

/-- **Storing changes the lookup of the chain that leads to the node**, and
of no other. -/
theorem lookup?_store {chain : List String} (hplace : d.place? root chain = some i)
    (properties : Properties) (c : List String) :
    (d.store i properties).lookup? c
      = if c = chain then some (addNew (d.lookup? c) properties) else d.lookup? c := by
  have hi : i < d.nodes.size := place?_lt d.root_lt hplace
  rw [lookup?, lookup?, place?_store]
  by_cases hc : c = chain
  · subst hc
    rw [hplace, if_pos rfl]
    show (d.store i properties).propertiesAt i = _
    rw [propertiesAt_store hi, if_pos rfl]
    rfl
  · rw [if_neg hc]
    cases h : d.place? root c with
    | none => rfl
    | some j =>
      have hne : j ≠ i := fun heq => hc (place?_inj (heq ▸ h) hplace)
      show (d.store i properties).propertiesAt j = d.propertiesAt j
      rw [propertiesAt_store hi, if_neg hne]

/-- Storing makes the number of lookups greater by one if the node had no
properties, and leaves it as it is otherwise. -/
theorem size_store (hi : i < d.nodes.size) (properties : Properties) :
    (d.store i properties).size
      = d.size + if (d.propertiesAt i).isSome = true then 0 else 1 := by
  have hnode : d.nodes[i]? = some d.nodes[i] := Array.getElem?_eq_getElem hi
  have hcount := countP_modify (p := fun n : DictionaryNode => n.properties.isSome)
    (f := fun n => { n with properties := some (addNew n.properties properties) }) hnode
  have hat : d.propertiesAt i = d.nodes[i].properties := by
    rw [propertiesAt, hnode]
    rfl
  rw [size, size, store, hat]
  cases hold : d.nodes[i].properties with
  | none => simpa [hold] using hcount
  | some ps => simpa [hold] using hcount

end Store

/-! ## One insertion

An insertion is a descent and a store behind it. Properties are added to
those that are there, and those keep their values: so of two selectors with
one chain the first one wins. -/

/-- The names of properties that were added to: those that were there come
first. -/
theorem names_addNew (old : Option Properties) (new : Properties) :
    (addNew old new).names = ((old.getD ∅).names ++ new.names).eraseDups := by
  cases old with
  | none =>
    show new.names = ([] ++ new.names).eraseDups
    rw [List.nil_append, Table.eraseDups_names]
  | some ps => exact Table.names_foldl_insertNew ps new.entries

/-- A property that was there keeps its value. -/
theorem get?_addNew (old : Option Properties) (new : Properties) (name : String) :
    (addNew old new).get? name = ((old.getD ∅).get? name).or (new.get? name) := by
  cases old with
  | none => rfl
  | some ps => exact Table.get?_foldl_insertNew ps new.entries name

/-- The chain of a selector: its compounds, innermost first. -/
def chainOf (selector : String) : List String := (Chain.ofSelector selector).reverse

/-- Without compounds nothing is inserted. -/
theorem insert_of_nil {selector : String} (h : chainOf selector = []) (d : Dictionary)
    (properties : Properties) : d.insert selector properties = d := by
  rw [chainOf] at h
  rw [insert, h]

/-- Otherwise the chain is followed and the properties are stored where it
ends. -/
theorem insert_of_ne_nil {selector : String} (h : chainOf selector ≠ []) (d : Dictionary)
    (properties : Properties) : d.insert selector properties
      = (d.descend root (chainOf selector)).1.store (d.descend root (chainOf selector)).2
          properties := by
  rw [chainOf] at h ⊢
  rw [insert]
  cases hchain : (Chain.ofSelector selector).reverse with
  | nil => exact absurd hchain h
  | cons token chain => rfl

/-- **A lookup after one insertion.** Without compounds there is nothing to
insert. -/
theorem lookup?_insert (d : Dictionary) (selector : String) (properties : Properties)
    (chain : List String) :
    (d.insert selector properties).lookup? chain
      = if chain = chainOf selector ∧ chain ≠ []
        then some (addNew (d.lookup? chain) properties) else d.lookup? chain := by
  by_cases hnil : chainOf selector = []
  · rw [insert_of_nil hnil, hnil, if_neg (by simp)]
  · rw [insert_of_ne_nil hnil, lookup?_store (d.place?_descend root (chainOf selector) d.root_lt),
      lookup?_descend]
    by_cases h : chain = chainOf selector
    · rw [if_pos h, if_pos ⟨h, h ▸ hnil⟩]
    · rw [if_neg h, if_neg fun hand => h hand.1]

/-- **The size after one insertion.** -/
theorem size_insert (d : Dictionary) (selector : String) (properties : Properties) :
    (d.insert selector properties).size
      = d.size + if chainOf selector = [] ∨ (d.lookup? (chainOf selector)).isSome = true
          then 0 else 1 := by
  by_cases hnil : chainOf selector = []
  · rw [insert_of_nil hnil, if_pos (Or.inl hnil), Nat.add_zero]
  · have hplace := d.place?_descend root (chainOf selector) d.root_lt
    have hat : (d.descend root (chainOf selector)).1.propertiesAt
        (d.descend root (chainOf selector)).2 = d.lookup? (chainOf selector) := by
      rw [← lookup?_descend d root (chainOf selector), lookup?, hplace]
      rfl
    rw [insert_of_ne_nil hnil, size_store (place?_lt (Dictionary.root_lt _) hplace),
      size_descend d root (chainOf selector) d.root_lt, hat]
    simp [hnil]

/-! ## A run of insertions

The list of insertions says everything, since an insertion looks at its own
chain only. It is gone through from its end. -/

/-- Inserts the properties of selectors, one after the other. -/
def insertAll (d : Dictionary) (inserts : List (String × Properties)) : Dictionary :=
  inserts.foldl (fun d e => d.insert e.1 e.2) d

/-- The properties that are inserted under a chain, in order. -/
def under (inserts : List (String × Properties)) (chain : List String) : List Properties :=
  (inserts.filter fun e => chainOf e.1 = chain).map Prod.snd

/-- The last insertion comes last. -/
theorem insertAll_concat (d : Dictionary) (inserts : List (String × Properties))
    (e : String × Properties) :
    d.insertAll (inserts ++ [e]) = (d.insertAll inserts).insert e.1 e.2 := by
  rw [insertAll, List.foldl_append]
  rfl

section Run

variable (inserts : List (String × Properties))

/-- The last insertion counts for a chain if it is under that chain. -/
theorem under_concat (e : String × Properties) (chain : List String) :
    under (inserts ++ [e]) chain
      = under inserts chain ++ if chain = chainOf e.1 then [e.2] else [] := by
  rw [under, List.filter_append, List.map_append]
  by_cases h : chain = chainOf e.1
  · simp [under, h]
  · simp [under, h, Ne.symm h]

/-- **What a chain has**: it is there if something was inserted under it. -/
theorem isSome_lookup?_insertAll (chain : List String) :
    ((empty.insertAll inserts).lookup? chain).isSome = true
      ↔ chain ≠ [] ∧ ∃ e ∈ inserts, chainOf e.1 = chain := by
  induction inserts using List.reverseRecOn with
  | nil => simp [insertAll]
  | append_singleton inserts e ih =>
    rw [insertAll_concat, lookup?_insert]
    by_cases h : chain = chainOf e.1 ∧ chain ≠ []
    · simp [← h.1, h.2]
    · rw [if_neg h, ih]
      refine and_congr_right fun hne => ?_
      have hother : chainOf e.1 ≠ chain := fun heq => h ⟨heq.symm, hne⟩
      simp [or_and_right, exists_or, hother]

/-- **The names under a chain**, each where it came in first. -/
theorem names_lookup?_insertAll {chain : List String} (hne : chain ≠ []) :
    (((empty.insertAll inserts).lookup? chain).getD ∅).names
      = ((under inserts chain).flatMap Table.names).eraseDups := by
  induction inserts using List.reverseRecOn with
  | nil => simp [insertAll, under]
  | append_singleton inserts e ih =>
    rw [insertAll_concat, lookup?_insert, under_concat, List.flatMap_append]
    by_cases h : chain = chainOf e.1
    · rw [if_pos ⟨h, hne⟩, Option.getD_some, names_addNew, ih,
        Entries.eraseDups_eraseDups_append]
      simp [← h]
    · rw [if_neg fun hand => h hand.1, ih]
      simp [h]

/-- **The values under a chain**: the first one of each name. -/
theorem get?_lookup?_insertAll {chain : List String} (hne : chain ≠ []) (name : String) :
    (((empty.insertAll inserts).lookup? chain).getD ∅).get? name
      = (under inserts chain).findSome? fun ps => ps.get? name := by
  induction inserts using List.reverseRecOn with
  | nil => simp [insertAll, under]
  | append_singleton inserts e ih =>
    rw [insertAll_concat, lookup?_insert, under_concat, List.findSome?_append]
    by_cases h : chain = chainOf e.1
    · rw [if_pos ⟨h, hne⟩, Option.getD_some, get?_addNew, ih]
      simp [← h]
    · rw [if_neg fun hand => h hand.1, ih]
      simp [h]

/-- The chains of a list of insertions that have compounds. -/
def chains : List (List String) := (inserts.map fun e => chainOf e.1).filter fun c => c ≠ []

/-- **The size counts the chains**, each once. -/
theorem size_insertAll : (empty.insertAll inserts).size = (chains inserts).eraseDups.length := by
  induction inserts using List.reverseRecOn with
  | nil => rfl
  | append_singleton inserts e ih =>
    have hchains : chains (inserts ++ [e])
        = chains inserts ++ if chainOf e.1 = [] then [] else [chainOf e.1] := by
      by_cases h : chainOf e.1 = []
      · simp [chains, h]
      · simp [chains, h]
    have hmem : ((empty.insertAll inserts).lookup? (chainOf e.1)).isSome = true
        ↔ chainOf e.1 ∈ chains inserts := by
      rw [isSome_lookup?_insertAll]
      simp [chains, and_comm]
    rw [insertAll_concat, size_insert, hchains, ih]
    by_cases h : chainOf e.1 = []
    · simp [h]
    · rw [if_neg h, Entries.eraseDups_concat]
      by_cases hthere : chainOf e.1 ∈ chains inserts
      · rw [if_pos hthere, if_pos (Or.inr (hmem.mpr hthere)), Nat.add_zero]
      · rw [if_neg hthere, if_neg (not_or.mpr ⟨h, fun hsome => hthere (hmem.mp hsome)⟩),
          List.length_append, List.length_singleton]

/-- **The dictionary is a map from chains.** After any insertions into the
empty dictionary, a chain is there exactly when it has compounds and a
selector with this chain was inserted. Its names are those of all properties
inserted under it, in the order in which they first came in, and each has
the first value that came in under it. Looking up a selector is looking up
its chain, and the size is the number of the chains. And an insertion into
any dictionary changes nothing for another chain.

The last part carries the others: since one chain leads to a place, what is
stored there shows under that chain alone, and the rest is an induction on
the insertions from the last one. -/
theorem isMap_insertAll :
    (∀ chain, ((empty.insertAll inserts).lookup? chain).isSome = true
        ↔ chain ≠ [] ∧ ∃ e ∈ inserts, chainOf e.1 = chain)
      ∧ (∀ chain ps, (empty.insertAll inserts).lookup? chain = some ps →
          ps.names = ((under inserts chain).flatMap Table.names).eraseDups
            ∧ ∀ name, ps.get? name = (under inserts chain).findSome? fun qs => qs.get? name)
      ∧ (∀ selector, (empty.insertAll inserts).get? selector
          = (empty.insertAll inserts).lookup? (chainOf selector))
      ∧ (empty.insertAll inserts).size = (chains inserts).eraseDups.length
      ∧ ∀ (d : Dictionary) selector properties chain, chain ≠ chainOf selector →
          (d.insert selector properties).lookup? chain = d.lookup? chain := by
  refine ⟨isSome_lookup?_insertAll inserts, fun chain ps hps => ?_, fun _ => rfl,
    size_insertAll inserts, fun d selector properties chain hne => ?_⟩
  · have hchain : chain ≠ [] :=
      ((isSome_lookup?_insertAll inserts chain).mp (by rw [hps]; rfl)).1
    have hnames := names_lookup?_insertAll inserts hchain
    have hvalues := get?_lookup?_insertAll inserts hchain
    rw [hps] at hnames hvalues
    exact ⟨hnames, hvalues⟩
  · rw [lookup?_insert, if_neg fun hand => hne hand.1]

end Run

end Dictionary

end Stylebook
