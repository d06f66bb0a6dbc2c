import Shader.Command.Script

/-!
# Scripts that leave nothing behind when they fail

What a script does to a system is settled in two steps.  Conditions on scripts say which effects may
follow which, whatever the system answers: a `Quiet` script only reads and tells, a routine that
`Completes` does not end early, and one that `Commits` does not end early once it has printed
something or written a file.  They are closed under sequencing, so they are proved along the text of
a script, and no system has to be looked at.

What one effect does to a world (`Effect.perform_of_isQuiet`) then gives what a run does to it, by
induction on the script: `Script.Quiet.keeps` and `Script.Commits.keeps`.
-/

namespace Shader

variable {σ ε α β : Type}

/-- `w.Keeps w'`: from `w` to `w'` nothing was printed to the standard output, and all files are as
they were. -/
structure World.Keeps (w w' : World σ) : Prop where
  out : w'.out = w.out
  files : w'.files = w.files

theorem World.Keeps.refl (w : World σ) : w.Keeps w := ⟨rfl, rfl⟩

theorem World.Keeps.trans {w w' w'' : World σ} (h : w.Keeps w') (h' : w'.Keeps w'') :
    w.Keeps w'' :=
  ⟨h'.out.trans h.out, h'.files.trans h.files⟩

/-- Whether an effect leaves nothing behind but on the standard error stream. -/
def Effect.isQuiet : Effect → Bool
  | .read _ | .tell _ => true
  | .write _ _ | .print _ => false

/-- A quiet effect keeps the standard output and the files. -/
theorem Effect.perform_of_isQuiet {effect : Effect} (h : effect.isQuiet = true)
    (fs : FileSystem σ) (w : World σ) : w.Keeps (effect.perform fs w).2 := by
  cases effect with
  | read path => exact .refl w
  | tell text => exact ⟨rfl, rfl⟩
  | write path text => cases h
  | print text => cases h

/-- A failed write changes nothing. -/
def FileSystem.FailsCleanly (fs : FileSystem σ) : Prop :=
  ∀ s path text reason s', fs.write s path text = (.error reason, s') → s' = s

/-- A write that fails keeps the standard output and the files. -/
theorem Effect.perform_write_of_error {fs : FileSystem σ} (hfs : fs.FailsCleanly)
    {path text reason : String} {w : World σ}
    (h : (fs.write w.files path text).1 = .error reason) :
    w.Keeps ((Effect.write path text).perform fs w).2 :=
  ⟨rfl, hfs _ path text reason _ (Prod.ext h rfl)⟩

namespace Script

/-! ## Conditions on scripts -/

/-- A script that only reads and tells. -/
inductive Quiet : Script α → Prop where
  | done (a : α) : Quiet (.done a)
  | perform {effect : Effect} {next : effect.Answer → Script α} : effect.isQuiet = true →
      (∀ answer, Quiet (next answer)) → Quiet (.perform effect next)

/-- A script that does not end early, whatever is answered. -/
inductive Completes : Script (Except Abort α) → Prop where
  | done (a : α) : Completes (.done (.ok a))
  | perform {effect : Effect} {next : effect.Answer → Script (Except Abort α)} :
      (∀ answer, Completes (next answer)) → Completes (.perform effect next)

/-- A script that does not end early once it has left something behind, whatever is answered. -/
inductive Commits : Script (Except Abort α) → Prop where
  | done (result : Except Abort α) : Commits (.done result)
  | quiet {effect : Effect} {next : effect.Answer → Script (Except Abort α)} :
      effect.isQuiet = true → (∀ answer, Commits (next answer)) → Commits (.perform effect next)
  | print {text : String} {next : Unit → Script (Except Abort α)} :
      Completes (next ()) → Commits (.perform (.print text) next)
  | write {path text : String} {next : Except String Unit → Script (Except Abort α)} :
      Completes (next (.ok ())) → (∀ reason, Commits (next (.error reason))) →
      Commits (.perform (.write path text) next)

/-- A script that never ends early commits. -/
theorem Completes.commits {x : Script (Except Abort α)} (h : x.Completes) : x.Commits := by
  induction h with
  | done a => exact .done _
  | @perform effect next hnext ih =>
    cases effect with
    | read path => exact .quiet rfl ih
    | tell text => exact .quiet rfl ih
    | print text => exact .print (hnext ())
    | write path text => exact .write (hnext _) fun reason => ih (.error reason)

/-! ## Sequences -/

theorem Quiet.bind {x : Script α} {f : α → Script β} (hx : x.Quiet) (hf : ∀ a, (f a).Quiet) :
    (x >>= f).Quiet := by
  induction hx with
  | done a => exact hf a
  | perform heffect _ ih => exact .perform heffect ih

/-- A script commits when it is quiet until one that commits. -/
theorem Quiet.bind_commits {x : Script α} {f : α → Script (Except Abort β)} (hx : x.Quiet)
    (hf : ∀ a, (f a).Commits) : (x >>= f).Commits := by
  induction hx with
  | done a => exact hf a
  | perform heffect _ ih => exact .quiet heffect ih

theorem Completes.bind {x : Script (Except Abort α)} {f : Except Abort α → Script (Except Abort β)}
    (hx : x.Completes) (hf : ∀ a, (f (.ok a)).Completes) : (x >>= f).Completes := by
  induction hx with
  | done a => exact hf a
  | perform _ ih => exact .perform ih

/-! ## Runs -/

/-- A run of two scripts is a run of the first and then one of the second. -/
theorem run_bind (fs : FileSystem σ) (x : Script α) (f : α → Script β) (w : World σ) :
    (x >>= f).run fs w = (f (x.run fs w).1).run fs (x.run fs w).2 := by
  induction x generalizing w with
  | done a => rfl
  | perform effect next ih => exact ih _ _

/-- A run of a quiet script keeps the standard output and the files. -/
theorem Quiet.keeps {x : Script α} (h : x.Quiet) (fs : FileSystem σ) (w : World σ) :
    w.Keeps (x.run fs w).2 := by
  induction h generalizing w with
  | done a => exact .refl w
  | perform heffect _ ih => exact (Effect.perform_of_isQuiet heffect fs w).trans (ih _ _)

/-- A run of a script that completes has a result. -/
theorem Completes.exists_eq_ok {x : Script (Except Abort α)} (h : x.Completes)
    (fs : FileSystem σ) (w : World σ) : ∃ a, (x.run fs w).1 = .ok a := by
  induction h generalizing w with
  | done a => exact ⟨a, rfl⟩
  | perform _ ih => exact ih _ _

/-- When a script that commits ends early, the standard output and the files are as they were. -/
theorem Commits.keeps {x : Script (Except Abort α)} (h : x.Commits) {fs : FileSystem σ}
    (hfs : fs.FailsCleanly) {w : World σ} {abort : Abort} (hend : (x.run fs w).1 = .error abort) :
    w.Keeps (x.run fs w).2 := by
  induction h generalizing w with
  | done result => exact .refl w
  | quiet heffect _ ih => exact (Effect.perform_of_isQuiet heffect fs w).trans (ih _ hend)
  | @print text next hnext =>
    -- What has been printed stays, but then there is no early end.
    obtain ⟨a, ha⟩ := hnext.exists_eq_ok fs ((Effect.print text).perform fs w).2
    cases ha.symm.trans hend
  | @write path text next hnext _ ih =>
    change ((next (fs.write w.files path text).1).run fs _).1 = _ at hend
    change w.Keeps ((next (fs.write w.files path text).1).run fs _).2
    cases hwrite : (fs.write w.files path text).1 with
    | ok done =>
      rw [hwrite] at hend
      obtain ⟨a, ha⟩ := hnext.exists_eq_ok fs ((Effect.write path text).perform fs w).2
      cases ha.symm.trans hend
    | error reason =>
      rw [hwrite] at hend
      exact (Effect.perform_write_of_error hfs hwrite).trans (ih reason hend)

end Script

/-! ## Routines -/

namespace Routine

open Script

variable {x : Routine α} {f : α → Routine β}

/-- What follows a routine, unless it ended early. -/
def follow (f : α → Routine β) : Except Abort α → Script (Except Abort β)
  | .ok a => (f a).run
  | .error abort => .done (.error abort)

theorem run_bind_eq (x : Routine α) (f : α → Routine β) : (x >>= f).run = x.run >>= follow f := by
  change x.run >>= ExceptT.bindCont f = _
  congr 1
  funext result
  cases result with
  | ok a => rfl
  | error abort => rfl

theorem quiet_pure (a : α) : (pure a : Routine α).run.Quiet := .done _

theorem quiet_throw (abort : Abort) : (throw abort : Routine α).run.Quiet := .done _

theorem quiet_ofExcept (message : ε → String) (result : Except ε α) :
    (ofExcept message result).run.Quiet := by
  cases result with
  | ok a => exact quiet_pure a
  | error e => exact quiet_throw _

theorem quiet_perform {effect : Effect} (h : effect.isQuiet = true) :
    (perform effect).run.Quiet :=
  .perform h fun _ => .done _

theorem quiet_bind (hx : x.run.Quiet) (hf : ∀ a, (f a).run.Quiet) : (x >>= f).run.Quiet := by
  rw [run_bind_eq]
  refine hx.bind fun result => ?_
  cases result with
  | ok a => exact hf a
  | error abort => exact .done _

theorem quiet_forM {f : α → Routine Unit} (hf : ∀ a, (f a).run.Quiet) :
    ∀ as : List α, (as.forM f).run.Quiet
  | [] => quiet_pure ()
  | a :: as => quiet_bind (hf a) fun _ => quiet_forM hf as

theorem commits_bind (hx : x.run.Quiet) (hf : ∀ a, (f a).run.Commits) : (x >>= f).run.Commits := by
  rw [run_bind_eq]
  refine hx.bind_commits fun result => ?_
  cases result with
  | ok a => exact hf a
  | error abort => exact .done _

theorem completes_perform (effect : Effect) : (perform effect).run.Completes :=
  .perform fun _ => .done _

theorem completes_bind (hx : x.run.Completes) (hf : ∀ a, (f a).run.Completes) :
    (x >>= f).run.Completes := by
  rw [run_bind_eq]
  exact hx.bind hf

theorem completes_forM {f : α → Routine Unit} (hf : ∀ a, (f a).run.Completes) :
    ∀ as : List α, (as.forM f).run.Completes
  | [] => .done ()
  | a :: as => completes_bind (hf a) fun _ => completes_forM hf as

/-! ## Results of routines -/

/-- `x.Yields fs w a w'`: on the system the routine does not end early, and has a result. -/
def Yields (fs : FileSystem σ) (x : Routine α) (w : World σ) (a : α) (w' : World σ) : Prop :=
  x.run.run fs w = (.ok a, w')

variable {fs : FileSystem σ} {w w' : World σ}

theorem yields_bind_iff {b : β} :
    (x >>= f).Yields fs w b w' ↔
      ∃ a between, x.Yields fs w a between ∧ (f a).Yields fs between b w' := by
  unfold Yields
  rw [run_bind_eq, run_bind]
  cases hx : (x.run.run fs w).1 with
  | error abort =>
    constructor
    · intro h
      cases h
    · rintro ⟨a, between, ha, -⟩
      rw [ha] at hx
      cases hx
  | ok a =>
    have hrun : x.run.run fs w = (.ok a, (x.run.run fs w).2) := Prod.ext hx rfl
    constructor
    · intro h
      exact ⟨a, _, hrun, h⟩
    · rintro ⟨a', between, ha', hb⟩
      rw [ha'] at hrun ⊢
      cases hrun
      exact hb

theorem yields_pure_iff {a b : α} :
    (pure a : Routine α).Yields fs w b w' ↔ a = b ∧ w = w' := by
  change ((.ok a, w) : Except Abort α × World σ) = (.ok b, w') ↔ _
  rw [Prod.mk.injEq, Except.ok.injEq]

theorem not_yields_fail {message : String} {a : α} :
    ¬ (fail message : Routine α).Yields fs w a w' := by
  intro h
  cases h

theorem yields_ofExcept_iff {message : ε → String} {result : Except ε α} {a : α} :
    (ofExcept message result).Yields fs w a w' ↔ result = .ok a ∧ w = w' := by
  cases result with
  | ok b => rw [Except.ok.injEq, ofExcept, yields_pure_iff]
  | error e => simp [ofExcept, not_yields_fail]

theorem yields_perform_iff {effect : Effect} {answer : effect.Answer} :
    (perform effect).Yields fs w answer w' ↔ effect.perform fs w = (answer, w') := by
  change ((.ok (effect.perform fs w).1, (effect.perform fs w).2) :
    Except Abort effect.Answer × World σ) = (.ok answer, w') ↔ _
  rw [Prod.mk.injEq, Except.ok.injEq, ← Prod.mk.injEq]

/-- A quiet routine with a result keeps the standard output and the files. -/
theorem Yields.keeps {a : α} (h : x.Yields fs w a w') (hx : x.run.Quiet) : w.Keeps w' := by
  have hkeeps := hx.keeps fs w
  rwa [h] at hkeeps

/-- A routine that completes has a result. -/
theorem exists_yields (hx : x.run.Completes) (fs : FileSystem σ) (w : World σ) :
    ∃ a w', x.Yields fs w a w' := by
  obtain ⟨a, ha⟩ := hx.exists_eq_ok fs w
  exact ⟨a, _, Prod.ext ha rfl⟩

end Routine

end Shader
