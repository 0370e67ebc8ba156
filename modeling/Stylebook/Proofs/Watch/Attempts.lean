import Stylebook.Proofs.Recompile.Cascade
import Stylebook.Proofs.Watch.Run

/-!
# Dropped notifications and compiles

The watch compares what is at a path with what it saw there last. It
compares nothing with what was compiled, and is not told whether a compile
worked out. This module lists the attempts of a whole run, from the initial
batch on (`Session.history`), and says what a dropped notification implies
for the last attempt at the stylesheet.

As long as the stylesheet is found by each batch as the watch saw it last
(`Session.Undisturbed`), the last attempt was at the text that is there now
(`dropped_of_run`). The attempt may have failed all the same, and when the
text changes unnoticed between a look and the batch, the attempt may have
been at another text (`drops_stale`).
-/

namespace Stylebook

open FileStore

namespace Project

variable {σ : Type} [FileStore σ] {project : Project} {s s' : Progress σ} {c : Change}
  {cs : List Change}

/-! ## The attempts of a batch

The attempts are listed by going through the changes as a batch does. A
batch that crashes has those from before the crash. -/

/-- **The attempts that a change leads to**: at its own stylesheet, and at
those that are compiled again because of it. -/
def changeAttempts (project : Project) (s : Progress σ) (c : Change) : List (Attempt σ) :=
  if c.IsPresent then
    ⟨c.path, s.store⟩
      :: project.attempts (project.handleOwn s c.path).store (project.cascadeOf s c.path)
  else []

/-- **The attempts of changes**, one after the other, as far as they come to
their end. -/
def batchAttempts (project : Project) (s : Progress σ) : List Change → List (Attempt σ)
  | [] => []
  | c :: cs => match project.handleChange s c with
    | .ok s' => project.changeAttempts s c ++ batchAttempts project s' cs
    | .error _ => []

/-- Each change to a file that is there leads to an attempt at it. -/
theorem exists_mem_batchAttempts (hrun : cs.foldlM project.handleChange s = .ok s') (hc : c ∈ cs)
    (hpresent : c.IsPresent) : ∃ a ∈ project.batchAttempts s cs, a.path = c.path := by
  induction cs generalizing s with
  | nil => cases hc
  | cons d cs ih =>
    obtain ⟨turn, hstep, hrest⟩ := Except.foldlM_cons_eq_ok.mp hrun
    rw [batchAttempts, hstep]
    rcases List.mem_cons.mp hc with rfl | hc
    · refine ⟨⟨c.path, s.store⟩, List.mem_append_left _ ?_, rfl⟩
      rw [changeAttempts, if_pos hpresent]
      exact List.mem_cons_self
    · obtain ⟨a, ha, hpath⟩ := ih hrest hc
      exact ⟨a, List.mem_append_right _ ha, hpath⟩

end Project

/-- The last attempt at a stylesheet. -/
def lastAttempt? {σ : Type} (attempts : List (Attempt σ)) (p : Path) : Option (Attempt σ) :=
  attempts.reverse.find? fun a => a.path.same p

section LastAttempt

variable {σ : Type} {as bs : List (Attempt σ)} {a : Attempt σ} {p : Path}

/-- The last one of two lists is in the second, or else in the first. -/
theorem lastAttempt?_append (as bs : List (Attempt σ)) (p : Path) :
    lastAttempt? (as ++ bs) p = (lastAttempt? bs p).or (lastAttempt? as p) := by
  rw [lastAttempt?, List.reverse_append, List.find?_append]
  rfl

/-- It is one of the attempts, at this stylesheet. -/
theorem mem_of_lastAttempt? (h : lastAttempt? as p = some a) : a ∈ as ∧ a.path.same p = true :=
  ⟨List.mem_reverse.mp (List.mem_of_find?_eq_some h), by simpa using List.find?_some h⟩

/-- If there is an attempt there is a last one. -/
theorem exists_lastAttempt? (ha : a ∈ as) (hp : a.path.same p = true) :
    ∃ b, lastAttempt? as p = some b := by
  rw [← Option.isSome_iff_exists, lastAttempt?, List.find?_isSome]
  exact ⟨a, List.mem_reverse.mpr ha, hp⟩

end LastAttempt

namespace Session

variable {σ : Type} [FileStore σ] {s s' started : Session σ} {t : Turn σ} {ts : List (Turn σ)}
  {n : Notification} {p : Path} {as : List (Attempt σ)} {d : String} {events : List Event}
  {settings : Settings} {root : Path} {store : σ} {files : List Path}

/-! ## The attempts of a run

The whole history is looked at, since the last attempt may be long ago.
Between it and a notification there may be any number of turns, in which the
stylesheet is looked at and nothing is found to have changed. -/

/-- The attempts when changes are handled. -/
def attempts (s : Session σ) (changes : List Change) : List (Attempt σ) :=
  (s.settings.project s.root).batchAttempts { store := s.store, graph := s.graph }
    (Change.inOrder changes)

/-- The changes of the next batch. -/
def changes (s : Session σ) : List Change := s.batch.map (Change.ofStore s.store)

/-- The attempts of a turn. -/
def turnAttempts (s : Session σ) : Turn σ → List (Attempt σ)
  | .flush => s.attempts s.changes
  | .notify .. => []
  | .edit _ => []

/-- **The attempts of turns**, in order. -/
def runAttempts (s : Session σ) (ts : List (Turn σ)) : List (Attempt σ) := s.collect turnAttempts ts

/-- A watch before its initial batch. -/
def opened (settings : Settings) (root : Path) (store : σ) (files : List Path) : Session σ where
  settings := settings
  root := root
  store := store
  graph := .empty
  seen := LastSeen.ofFiles store files
  batcher := { window := settings.debounce }

/-- **The attempts of a run**: those of the initial batch, and those of the
turns. -/
def history (settings : Settings) (root : Path) (store : σ) (files : List Path)
    (ts : List (Turn σ)) : List (Attempt σ) :=
  (opened settings root store files).attempts (files.map Change.existing)
    ++ match start settings root store files with
      | .ok (started, _) => started.runAttempts ts
      | .error _ => []

/-- **Changes find a stylesheet as it was seen last**, if it was seen: where
it is reported it is a file that is there, and each attempt at it is at the
text that was seen. -/
def FindsAsSeen (s : Session σ) (changes : List Change) (p : Path) : Prop :=
  ∀ d ∈ PathMap.get? s.seen p, (∀ c ∈ changes, c.path.same p = true → c.IsPresent)
    ∧ ∀ a ∈ s.attempts changes, a.path.same p = true → LastSeen.digest? a.store a.path = some d

instance (s : Session σ) (changes : List Change) (p : Path) :
    Decidable (s.FindsAsSeen changes p) := inferInstanceAs (Decidable (∀ d ∈ _, _ ∧ _))

/-- A batch finds a stylesheet as it was seen last. -/
def TurnFinds (p : Path) (s : Session σ) : Turn σ → Prop
  | .flush => s.FindsAsSeen s.changes p
  | .notify .. => True
  | .edit _ => True

/-- **Each batch finds a stylesheet as it was seen last.** -/
def Undisturbed (s : Session σ) (p : Path) (ts : List (Turn σ)) : Prop := s.Always (TurnFinds p) ts

/-- **A watch is settled about a stylesheet**: it waits, or was not there
when it was seen last, or the last attempt at it was at the text that was
seen. -/
def Settled (s : Session σ) (as : List (Attempt σ)) (p : Path) : Prop :=
  p.isIn s.batcher.pending = false → ∀ d, PathMap.get? s.seen p = some d →
    ∃ a, lastAttempt? as p = some a ∧ LastSeen.digest? a.store a.path = some d

/-- One more file is looked at. -/
theorem get?_ofFiles_concat (store : σ) (files : List Path) (f p : Path) :
    PathMap.get? (LastSeen.ofFiles store (files ++ [f])) p
        = PathMap.get? (LastSeen.ofFiles store files) p
      ∨ f.same p = true := by
  unfold LastSeen.ofFiles
  rw [List.foldl_append, List.foldl_cons, List.foldl_nil]
  cases LastSeen.digest? store f with
  | none => exact Or.inl rfl
  | some e =>
    dsimp only
    rw [PathMap.get?_set]
    exact or_iff_not_imp_right.mpr fun hne => if_neg hne

/-- What was seen of files is seen of one of them. -/
theorem exists_mem_of_ofFiles
    (h : PathMap.get? (LastSeen.ofFiles store files) p = some d) : ∃ f ∈ files, f.same p = true := by
  induction files using List.reverseRecOn with
  | nil => cases h
  | append_singleton files f ih =>
    rcases get?_ofFiles_concat store files f p with heq | hsame
    · obtain ⟨g, hg, hsame⟩ := ih (heq ▸ h)
      exact ⟨g, List.mem_append_left _ hg, hsame⟩
    · exact ⟨f, List.mem_append_right _ (List.mem_singleton_self f), hsame⟩

/-- **Handling changes settles what they find as it was seen.** -/
theorem exists_lastAttempt?_of_findsAsSeen {cs : List Change} {done : Progress σ}
    (hbatch : (s.settings.project s.root).handleBatch s.store s.graph cs = .ok done)
    (hfinds : s.FindsAsSeen cs p)
    (hseen : PathMap.get? s.seen p = some d)
    (h : (∃ c ∈ cs, c.path.same p = true)
      ∨ ∃ a, lastAttempt? as p = some a ∧ LastSeen.digest? a.store a.path = some d) :
    ∃ a, lastAttempt? (as ++ s.attempts cs) p = some a
      ∧ LastSeen.digest? a.store a.path = some d := by
  obtain ⟨hpresent, hattempts⟩ := hfinds d hseen
  rw [lastAttempt?_append]
  cases hlast : lastAttempt? (s.attempts cs) p with
  | some a =>
    obtain ⟨ha, hsame⟩ := mem_of_lastAttempt? hlast
    exact ⟨a, rfl, hattempts a ha hsame⟩
  | none =>
    refine h.resolve_left fun ⟨c, hc, hsame⟩ => ?_
    -- a change that reports it leads to an attempt, and there is none
    obtain ⟨last, hrun, -⟩ := Project.handleBatch_eq_ok.mp hbatch
    obtain ⟨e, he, hec⟩ := Change.exists_mem_inOrder hc
    have hep : e.path.same p = true := Path.same_trans hec hsame
    obtain ⟨a, ha, hpath⟩ : ∃ a ∈ s.attempts cs, a.path = e.path :=
      Project.exists_mem_batchAttempts hrun he (hpresent e (Change.mem_of_mem_inOrder he) hep)
    obtain ⟨b, hb⟩ := exists_lastAttempt? ha (hpath ▸ hep)
    exact absurd (hlast.symm.trans hb) (by simp)

/-- **A watch that starts is settled**, when the initial batch finds what
was scanned. -/
theorem settled_start (hstart : start settings root store files = .ok (started, events))
    (hfinds : (opened settings root store files).FindsAsSeen (files.map Change.existing) p) :
    started.Settled ((opened settings root store files).attempts (files.map Change.existing)) p := by
  intro _ d hseen
  obtain ⟨done, hbatch, hstarted, -⟩ := handle_eq_ok.mp hstart
  rw [hstarted] at hseen
  obtain ⟨f, hf, hsame⟩ := exists_mem_of_ofFiles hseen
  exact @exists_lastAttempt?_of_findsAsSeen _ _ (opened settings root store files) p [] d _ done
    hbatch hfinds hseen (Or.inl ⟨.existing f, List.mem_map_of_mem hf, hsame⟩)

/-- After a notification there waits what waited, and what has passed. -/
theorem isIn_notify {now : Nat} : p.isIn (s.notify now n).batcher.pending = true
    ↔ p.isIn s.batcher.pending = true ∨ p.isIn (s.passed n) = true := by
  rw [notify_batcher]
  exact Batcher.isIn_foldl_record

/-- A turn leaves the watch settled if it finds what was seen. -/
theorem Settled.turn (h : s.Settled as p) (hfinds : s.TurnFinds p t)
    (hturn : s.turn t = .ok s') : s'.Settled (as ++ s.turnAttempts t) p := by
  cases t with
  | edit store =>
    obtain rfl := Except.ok.inj hturn
    rw [turnAttempts, List.append_nil]
    exact h
  | notify now n =>
    obtain rfl := Except.ok.inj hturn
    rw [turnAttempts, List.append_nil]
    intro hwaits d hseen
    rw [← Bool.not_eq_true, isIn_notify, not_or, Bool.not_eq_true, Bool.not_eq_true] at hwaits
    rw [notify_seen, LastSeen.get?_lookAll_of_not_passed hwaits.2] at hseen
    exact h hwaits.1 d hseen
  | flush =>
    intro _ d hseen
    rw [(turn_flush hturn).1] at hseen
    obtain ⟨events, hflush⟩ := exists_flush_of_turn hturn
    obtain ⟨done, hbatch, -⟩ := handle_eq_ok.mp hflush
    refine exists_lastAttempt?_of_findsAsSeen hbatch hfinds hseen ?_
    -- either the batch makes an attempt now, or the last one was at what is seen
    cases hwaits : p.isIn s.batcher.pending with
    | false => exact Or.inr (h hwaits d hseen)
    | true =>
      obtain ⟨q, hq, hsame⟩ := Path.isIn_iff.mp hwaits
      refine Or.inl ⟨.ofStore s.store q, List.mem_map_of_mem (Path.mem_sort.mpr hq), ?_⟩
      rw [Path.same_comm]
      exact hsame

/-- **It stays settled** as long as each batch finds what was seen. -/
theorem Settled.run (h : s.Settled as p) (hfinds : s.Undisturbed p ts)
    (hrun : s.run ts = .ok s') : s'.Settled (as ++ s.runAttempts ts) p := by
  induction ts generalizing s as with
  | nil =>
    rw [Except.foldlM_nil_eq_ok.mp hrun, runAttempts, collect, List.append_nil]
    exact h
  | cons t ts ih =>
    obtain ⟨next, hturn, hrest⟩ := Except.foldlM_cons_eq_ok.mp hrun
    rw [runAttempts, collect_cons hturn, ← List.append_assoc]
    exact ih (h.turn hfinds.1 hturn) (hfinds.2 next hturn) hrest

/-! ## Dropped notifications

What a user wants to know of a dropped notification is that nothing need be
done. What the watch knows is that nothing has changed since it looked. The
two are compared here. -/

/-- **A notification is dropped** though it names a stylesheet that is there
and does not wait. -/
structure Drops (s : Session σ) (n : Notification) (p : Path) : Prop where
  mem : p ∈ n.stylesheets s.settings s.root
  holds : FileStore.holds s.store p = true
  read : ∃ text, FileStore.read s.store p = .ok text
  waits : p.isIn s.batcher.pending = false
  passed : p.isIn (s.passed n) = false

/-- **What a dropped notification implies.** When a notification of a run is
dropped, the stylesheet has the text that the watch saw last. If moreover
each batch of the run found the stylesheet as the watch saw it last, then
the last attempt to compile it was at the text that it has now.

What carries the second part over a run is that the watch is settled about
the stylesheet: a notification that passes puts it among those that wait,
and a batch makes an attempt at each of these. So between batches the table
is never ahead of the attempts, as long as the stylesheet is not changed
between the look and the attempt. -/
theorem dropped_of_run (hstart : start settings root store files = .ok (started, events))
    (hrun : started.run ts = .ok s) (hdrops : s.Drops n p) :
    ∃ d, LastSeen.digest? s.store p = some d ∧ PathMap.get? s.seen p = some d
      ∧ ((opened settings root store files).FindsAsSeen (files.map Change.existing) p →
        started.Undisturbed p ts →
          ∃ a, lastAttempt? (history settings root store files ts) p = some a
            ∧ LastSeen.digest? a.store a.path = some d) := by
  obtain ⟨text, hread⟩ := hdrops.read
  have hdigest : LastSeen.digest? s.store p = some (Digest.ofText text) := by
    rw [LastSeen.digest?, hread]
  have hseen := LastSeen.digest?_of_not_passed hdrops.mem (fun _ => ⟨text, hread⟩) hdrops.passed
  rw [LastSeen.digest?_of_holds hdrops.holds hread] at hseen
  refine ⟨Digest.ofText text, hdigest, hseen.symm, fun hfinds hundisturbed => ?_⟩
  rw [history, hstart]
  exact (settled_start hstart hfinds).run hundisturbed hrun hdrops.waits _ hseen.symm

/-! A stylesheet that is watched alone. -/

/-- The stylesheet. -/
def sheet : Path := ⟨"/p/a.css"⟩

/-- A notification of the stylesheet. -/
def told : Notification := ⟨.modify, [sheet]⟩

/-- The turns when a text is saved. -/
def saves (text : String) : List (Turn Memory) := [.edit (.ofList [(sheet, text)]), .notify 0 told]

/-- What turns come to that begin with a stylesheet of a text. -/
def watched (text : String) (ts : List (Turn Memory)) : Except (Wreck Memory) (Session Memory) := do
  let (started, _) ← start {} ⟨"/p"⟩ (.ofList [(sheet, text)]) [sheet]
  started.run ts

/-- The last attempt in such turns. -/
def lastOf (text : String) (ts : List (Turn Memory)) : Option (Attempt Memory) :=
  lastAttempt? (history {} ⟨"/p"⟩ (.ofList [(sheet, text)]) [sheet] ts) sheet

/-- What makes the watch drop a notification of the stylesheet. -/
def dropsTold (text : String) (s : Session Memory) : Bool :=
  sheet ∈ told.stylesheets s.settings s.root && FileStore.holds s.store sheet
    && (FileStore.read s.store sheet).toOption == some text && s.batcher.pending == []
    && s.passed told == []

/-- That a notification is dropped can be evaluated. -/
theorem drops_of {s : Session Memory} {text : String} (h : dropsTold text s = true) :
    s.Drops told sheet := by
  simp only [dropsTold, Bool.and_eq_true, decide_eq_true_eq, beq_iff_eq] at h
  obtain ⟨⟨⟨⟨hmem, hholds⟩, hread⟩, hpending⟩, hpassed⟩ := h
  exact ⟨hmem, hholds, ⟨text, Except.eq_ok_of_toOption hread⟩, by rw [hpending]; rfl,
    by rw [hpassed]; rfl⟩

/-- A text that is handled and saved again has been compiled. -/
theorem dropped_of_run_of_resaved : ∃ s, watched ".a{}" (saves ".b{}" ++ [.flush]) = .ok s
    ∧ s.Drops told sheet
    ∧ ∃ a d, LastSeen.digest? s.store sheet = some d
      ∧ lastOf ".a{}" (saves ".b{}" ++ [.flush]) = some a
      ∧ LastSeen.digest? a.store a.path = some d := by
  have hcomes : (start {} ⟨"/p"⟩ (.ofList [(sheet, ".a{}")]) [sheet]).toOption.any (fun r =>
      (r.1.run (saves ".b{}")).toOption.all (fun s => s.FindsAsSeen s.changes sheet)
        && (r.1.run (saves ".b{}" ++ [.flush])).toOption.any (dropsTold ".b{}")) = true := by
    decide +kernel
  have hfinds : (opened {} ⟨"/p"⟩ (Memory.ofList [(sheet, ".a{}")]) [sheet]).FindsAsSeen
      [.existing sheet] sheet := by decide +kernel
  obtain ⟨⟨started, events⟩, hstart, hturns⟩ := Except.exists_of_any hcomes
  obtain ⟨hall, hany⟩ := Bool.and_eq_true_iff.mp hturns
  obtain ⟨s, hrun, hs⟩ := Except.exists_of_any hany
  have hundisturbed : started.Undisturbed sheet (saves ".b{}" ++ [.flush]) := by
    refine ⟨trivial, fun s₁ h₁ => ⟨trivial, fun s₂ h₂ => ⟨?_, fun _ _ => trivial⟩⟩⟩
    obtain rfl := Except.ok.inj h₁
    obtain rfl := Except.ok.inj h₂
    exact of_decide_eq_true (p := FindsAsSeen _ _ sheet) hall
  obtain ⟨d, hd, -, hlast⟩ := dropped_of_run hstart hrun (drops_of hs)
  obtain ⟨a, ha, hdigest⟩ := hlast hfinds hundisturbed
  refine ⟨s, ?_, drops_of hs, a, d, hd, ha, hdigest⟩
  rw [watched, hstart]
  exact hrun

/-- A stylesheet with its import, which comes later. -/
def imported : List (Turn Memory) :=
  [.edit (.ofList [(sheet, "@import \"b.css\";"), (⟨"/p/b.css"⟩, ".b{}")])]

/-- A text that is saved and replaced, handled, and saved again. -/
def overtaken : List (Turn Memory) :=
  saves ".b{}" ++ [.edit (.ofList [(sheet, ".c{}")]), .flush, .edit (.ofList [(sheet, ".b{}")])]

/-- **A dropped notification does not mean that the stylesheet is
compiled.** The last attempt fails while an import is missing, and when
the import is there the stylesheet may be saved again in vain. And a text
that was replaced after it was seen, before it was handled, is dropped when
it comes back, though the last attempt was at another text. -/
theorem drops_stale :
    (∃ s, watched "@import \"b.css\";" imported = .ok s ∧ s.Drops told sheet
        ∧ (lastOf "@import \"b.css\";" imported).map
          (fun a => (Project.outcome (({} : Settings).project ⟨"/p"⟩) a).isOk) = some false)
      ∧ ∃ s, watched ".a{}" overtaken = .ok s ∧ s.Drops told sheet
        ∧ (lastOf ".a{}" overtaken).map (fun a => LastSeen.digest? a.store a.path)
          ≠ some (LastSeen.digest? s.store sheet) := by
  have himported : (watched "@import \"b.css\";" imported).toOption.any
      (dropsTold "@import \"b.css\";") = true := by
    decide +kernel
  have hovertaken : (watched ".a{}" overtaken).toOption.any (fun s => dropsTold ".b{}" s
      && (lastOf ".a{}" overtaken).map (fun a => LastSeen.digest? a.store a.path)
        != some (LastSeen.digest? s.store sheet)) = true := by
    decide +kernel
  obtain ⟨s, hs, hdrops⟩ := Except.exists_of_any himported
  obtain ⟨s', hs', hboth⟩ := Except.exists_of_any hovertaken
  rw [Bool.and_eq_true, bne_iff_ne] at hboth
  exact ⟨⟨s, hs, drops_of hdrops, by decide +kernel⟩, s', hs', drops_of hboth.1, hboth.2⟩

end Session

end Stylebook
