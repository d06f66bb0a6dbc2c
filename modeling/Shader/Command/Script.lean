import Shader.Source.Span

/-!
# Scripts

A command acts on the system around it by *effects*: it reads and writes files, prints to the
standard output, and tells things on the standard error stream.  A `Script` is a program of effects,
in which each effect is chosen by the answers to those before it.

A script fixes no meaning for its effects.  The files are those of any `FileSystem`, and
`Script.run` carries a script out on a `World`, one effect after the other.  A `Routine` is a script
that may end early; what it has done until then stays done.
-/

namespace Shader

/-- One thing that a command does. -/
inductive Effect where
  | read (path : String)
  | write (path text : String)
  /-- Print to the standard output. -/
  | print (text : String)
  /-- Print to the standard error stream. -/
  | tell (text : String)
deriving DecidableEq, Repr

/-- The answer to an effect: the text of a file or the reason why it cannot be read, whether a file
was written or the reason why not, and nothing for what is printed. -/
abbrev Effect.Answer : Effect → Type
  | .read _ => Except String String
  | .write _ _ => Except String Unit
  | .print _ => Unit
  | .tell _ => Unit

/-- A program of effects. -/
inductive Script (α : Type) where
  | done (result : α)
  | perform (effect : Effect) (next : effect.Answer → Script α)

namespace Script

/-- One script after the other. -/
def bind {α β : Type} : Script α → (α → Script β) → Script β
  | .done a, f => f a
  | .perform effect next, f => .perform effect fun answer => (next answer).bind f

instance : Monad Script where
  pure := .done
  bind := bind

end Script

/-! ## Systems -/

/-- Files with a state `σ`.  A path leads to a text or to the reason why there is none, and a text
is written to a path or not, with a new state either way. -/
structure FileSystem (σ : Type) where
  read : σ → String → Except String String
  write : σ → String → String → Except String Unit × σ

/-- What a command acts on: files, and what has been printed to the two streams. -/
structure World (σ : Type) where
  files : σ
  out : String
  err : String

section

variable {σ α : Type}

/-- Carry out one effect. -/
def Effect.perform (fs : FileSystem σ) (w : World σ) : (effect : Effect) → effect.Answer × World σ
  | .read path => (fs.read w.files path, w)
  | .write path text =>
    ((fs.write w.files path text).1, { w with files := (fs.write w.files path text).2 })
  | .print text => ((), { w with out := w.out ++ text })
  | .tell text => ((), { w with err := w.err ++ text })

/-- Carry out a script. -/
def Script.run (fs : FileSystem σ) : Script α → World σ → α × World σ
  | .done a, w => (a, w)
  | .perform effect next, w => (next (effect.perform fs w).1).run fs (effect.perform fs w).2

end

/-! ## Routines -/

/-- Why a routine ends early. -/
inductive Abort where
  /-- It has failed, with a message. -/
  | failure (message : String)
  /-- A number did not fit into a word, which ends the whole program. -/
  | crash (overflow : Overflow)
deriving DecidableEq, Repr

/-- A script that may end early. -/
abbrev Routine := ExceptT Abort Script

namespace Routine

/-- Perform one effect. -/
def perform (effect : Effect) : Routine effect.Answer :=
  ExceptT.lift (.perform effect .done)

/-- End with a message. -/
def fail {α : Type} (message : String) : Routine α := throw (.failure message)

/-- The result of a computation that may fail; its failure ends the routine with a message. -/
def ofExcept {ε α : Type} (message : ε → String) : Except ε α → Routine α
  | .ok a => return a
  | .error e => fail (message e)

end Routine

end Shader
