import Shader.Command.Routine
import Shader.Command.Files
import Shader.Proofs.Loading
import Shader.Proofs.Relevance
import Shader.Proofs.Scripts

/-!
# Commands are all or nothing

A command that fails leaves nothing behind, and a compilation that succeeds puts its code in exactly
one place.  This holds on any file system in which a failed write changes nothing and a write
changes no other file than the one it leads to (`FileView.Describes`), and whatever the texts of
the program and of the configuration are taken apart into.

The first part is a property of the text of the commands: all that comes before the delivery only
reads and tells, and after the delivery nothing fails (`Command.routine_commits`).  For the second
part, `Inputs.Analyses` and `CompileOptions.Compiles` say what has to go well, without the order in
which it is tried; a compilation is done when they hold and the file can be written, and only then
(`Command.yields_compile`, `Command.exists_yields_compile`).
-/

namespace Shader

open Routine

variable {σ : Type}

/-! ## Early ends

Each step before the delivery only reads and tells. -/

theorem quiet_fetch (path label : String) : (fetch path label).run.Quiet :=
  quiet_bind (quiet_perform rfl) fun answer => quiet_ofExcept _ answer

namespace Inputs

variable (i : Inputs) (parsers : Parsers)

theorem quiet_loadConfig : (i.loadConfig parsers).run.Quiet := by
  unfold loadConfig
  cases i.config with
  | none => exact quiet_pure _
  | some path =>
    exact quiet_bind (quiet_fetch path path) fun _ => quiet_ofExcept _ _

theorem quiet_loadProgram : (i.loadProgram parsers).run.Quiet :=
  quiet_bind (quiet_fetch _ _) fun _ => quiet_ofExcept _ _

theorem quiet_loadSource : i.loadSource.run.Quiet := by
  unfold loadSource
  cases i.source with
  | none => exact quiet_pure none
  | some path => exact quiet_bind (quiet_fetch _ _) fun text => quiet_pure (some text)

theorem quiet_tellError (e : TypeError) (source : Option String) :
    (i.tellError e source).run.Quiet := by
  unfold tellError
  split
  · cases e.toJson source i.fileName with
    | ok v => exact quiet_perform rfl
    | error overflow => exact quiet_throw _
  · cases source with
    | none => exact quiet_perform rfl
    | some source => exact quiet_perform rfl

theorem quiet_analyse (config : Config) : (i.analyse parsers config).run.Quiet := by
  refine quiet_bind (i.quiet_loadProgram parsers) fun program => ?_
  refine quiet_bind (quiet_ofExcept _ config.injections) fun injections => ?_
  refine quiet_bind i.quiet_loadSource fun source => ?_
  cases program.infer injections .builtin with
  | ok typed => exact quiet_pure typed
  | error e => exact quiet_bind (i.quiet_tellError e source) fun _ => quiet_throw _

end Inputs

namespace CompileOptions

variable (o : CompileOptions)

theorem quiet_emit (config : Config) (p : TypedProgram) : (o.emit config p).run.Quiet :=
  quiet_ofExcept _ _

theorem quiet_tellWarnings (output : Output) : (o.tellWarnings output).run.Quiet := by
  refine quiet_bind (quiet_forM (fun w => quiet_perform rfl) output.warnings) fun _ => ?_
  split
  · exact quiet_pure ()
  · exact quiet_throw _

/-- After the delivery nothing fails. -/
theorem deliver_commits (text : String) : (o.deliver text).run.Commits := by
  unfold deliver
  cases o.output with
  | none => exact (completes_perform _).commits
  | some path =>
    rw [run_bind_eq]
    exact .write (completes_perform _) fun reason => .done _

end CompileOptions

/-- A command does not end early once it has left something behind. -/
theorem Command.routine_commits (parsers : Parsers) (c : Command) :
    (c.routine parsers).run.Commits := by
  cases c with
  | compile i o =>
    refine commits_bind (i.quiet_loadConfig parsers) fun config => ?_
    refine commits_bind (i.quiet_analyse parsers config) fun typed => ?_
    refine commits_bind (o.quiet_emit config typed) fun output => ?_
    exact commits_bind (o.quiet_tellWarnings output) fun _ => o.deliver_commits _
  | check i =>
    refine commits_bind (i.quiet_loadConfig parsers) fun config => ?_
    refine commits_bind (i.quiet_analyse parsers config) fun typed => ?_
    exact (completes_forM (fun f => completes_perform _) typed.functions).commits

/-! ## What has to go well -/

section Success

variable (fs : FileSystem σ) (parsers : Parsers)

/-- `i.Configures fs parsers s config`: with the files `s` the command has that configuration. -/
def Inputs.Configures (i : Inputs) (s : σ) (config : Config) : Prop :=
  match i.config with
  | none => config = {}
  | some path => ∃ text, fs.read s path = .ok text ∧ parsers.config text = .ok config

/-- `i.Infers fs parsers s config typed`: the file of the program holds one that inference turns
into `typed`, with the types that the configuration injects. -/
def Inputs.Infers (i : Inputs) (s : σ) (config : Config) (typed : TypedProgram) : Prop :=
  ∃ text program injections, fs.read s i.input = .ok text ∧
    Program.ofParsed (parsers.document text) = .ok program ∧
    config.injections = .ok injections ∧ program.infer injections .builtin = .ok typed

/-- `i.Analyses fs parsers s config typed`: everything that both commands need goes well. -/
structure Inputs.Analyses (i : Inputs) (s : σ) (config : Config) (typed : TypedProgram) : Prop where
  configured : i.Configures fs parsers s config
  inferred : i.Infers fs parsers s config typed
  /-- The shader source can be read, if its file is given. -/
  sourced : ∀ path, i.source = some path → ∃ text, fs.read s path = .ok text

/-- `o.Compiles config typed output`: code is generated, and it is accepted. -/
structure CompileOptions.Compiles (o : CompileOptions) (config : Config) (typed : TypedProgram)
    (output : Output) : Prop where
  generated : o.generate config typed = .ok output
  accepted : output.warnings = [] ∨ o.allowPlaceholders = true

variable {fs parsers}

/-- The files decide the configuration and the typed program. -/
theorem Inputs.Analyses.unique {i : Inputs} {s : σ} {config config' : Config}
    {typed typed' : TypedProgram} (h : i.Analyses fs parsers s config typed)
    (h' : i.Analyses fs parsers s config' typed') : config = config' ∧ typed = typed' := by
  have hconfig : config = config' := by
    have hconfigured := h.configured
    have hconfigured' := h'.configured
    unfold Configures at hconfigured hconfigured'
    cases hpath : i.config with
    | none =>
      rw [hpath] at hconfigured hconfigured'
      exact hconfigured.trans hconfigured'.symm
    | some path =>
      rw [hpath] at hconfigured hconfigured'
      obtain ⟨text, hread, hparse⟩ := hconfigured
      obtain ⟨text', hread', hparse'⟩ := hconfigured'
      obtain rfl := Except.ok.inj (hread.symm.trans hread')
      exact Except.ok.inj (hparse.symm.trans hparse')
  subst hconfig
  obtain ⟨text, program, injections, hread, hload, hinjections, hinfer⟩ := h.inferred
  obtain ⟨text', program', injections', hread', hload', hinjections', hinfer'⟩ := h'.inferred
  obtain rfl := Except.ok.inj (hread.symm.trans hread')
  obtain rfl := Except.ok.inj (hload.symm.trans hload')
  obtain rfl := Except.ok.inj (hinjections.symm.trans hinjections')
  exact ⟨rfl, Except.ok.inj (hinfer.symm.trans hinfer')⟩

variable {w w' : World σ}

/-! Each step has a result exactly when what it needs goes well, and then it has changed nothing. -/

theorem yields_fetch_iff {path label text : String} :
    (fetch path label).Yields fs w text w' ↔ fs.read w.files path = .ok text ∧ w = w' := by
  unfold fetch
  constructor
  · intro h
    obtain ⟨answer, between, hanswer, h⟩ := yields_bind_iff.1 h
    obtain ⟨hread, rfl⟩ : fs.read w.files path = answer ∧ w = between :=
      Prod.mk.inj (yields_perform_iff.1 hanswer)
    obtain ⟨rfl, rfl⟩ := yields_ofExcept_iff.1 h
    exact ⟨hread, rfl⟩
  · rintro ⟨hread, rfl⟩
    have hanswer : (Effect.read path).perform fs w = (.ok text, w) := Prod.ext hread rfl
    refine yields_bind_iff.2 ⟨.ok text, w, yields_perform_iff.2 hanswer, ?_⟩
    exact yields_ofExcept_iff.2 ⟨rfl, rfl⟩

namespace Inputs

variable {i : Inputs} {config : Config} {typed : TypedProgram}

theorem yields_loadConfig_iff :
    (i.loadConfig parsers).Yields fs w config w' ↔
      i.Configures fs parsers w.files config ∧ w = w' := by
  unfold loadConfig Configures
  cases i.config with
  | none =>
    rw [eq_comm (a := config)]
    exact yields_pure_iff
  | some path =>
    simp only [yields_bind_iff, yields_fetch_iff, yields_ofExcept_iff]
    constructor
    · rintro ⟨text, _, ⟨hread, rfl⟩, hparse, rfl⟩
      exact ⟨⟨text, hread, hparse⟩, rfl⟩
    · rintro ⟨⟨text, hread, hparse⟩, rfl⟩
      exact ⟨text, w, ⟨hread, rfl⟩, hparse, rfl⟩

theorem yields_loadProgram_iff {program : Program} :
    (i.loadProgram parsers).Yields fs w program w' ↔
      (∃ text, fs.read w.files i.input = .ok text ∧
        Program.ofParsed (parsers.document text) = .ok program) ∧ w = w' := by
  unfold loadProgram
  simp only [yields_bind_iff, yields_fetch_iff, yields_ofExcept_iff]
  constructor
  · rintro ⟨text, _, ⟨hread, rfl⟩, hload, rfl⟩
    exact ⟨⟨text, hread, hload⟩, rfl⟩
  · rintro ⟨⟨text, hread, hload⟩, rfl⟩
    exact ⟨text, w, ⟨hread, rfl⟩, hload, rfl⟩

theorem exists_yields_loadSource_iff :
    (∃ source, i.loadSource.Yields fs w source w') ↔
      (∀ path, i.source = some path → ∃ text, fs.read w.files path = .ok text) ∧ w = w' := by
  unfold loadSource
  cases i.source with
  | none =>
    simp only [yields_pure_iff]
    simp
  | some path =>
    simp only [yields_bind_iff, yields_fetch_iff, yields_pure_iff, Option.some.injEq, forall_eq']
    constructor
    · rintro ⟨_, text, _, ⟨hread, rfl⟩, -, rfl⟩
      exact ⟨⟨text, hread⟩, rfl⟩
    · rintro ⟨⟨text, hread⟩, rfl⟩
      exact ⟨_, text, w, ⟨hread, rfl⟩, rfl, rfl⟩

theorem yields_analyse_iff :
    (i.analyse parsers config).Yields fs w typed w' ↔
      (i.Infers fs parsers w.files config typed ∧
        ∀ path, i.source = some path → ∃ text, fs.read w.files path = .ok text) ∧ w = w' := by
  unfold analyse
  simp only [yields_bind_iff, yields_loadProgram_iff, yields_ofExcept_iff]
  constructor
  · rintro ⟨program, _, ⟨⟨text, hread, hload⟩, rfl⟩, injections, _, ⟨hinjections, rfl⟩,
      source, _, hsource, h⟩
    obtain ⟨hsourced, rfl⟩ := exists_yields_loadSource_iff.1 ⟨source, hsource⟩
    cases hinfer : program.infer injections .builtin with
    | error e =>
      rw [hinfer] at h
      obtain ⟨_, _, -, hfail⟩ := yields_bind_iff.1 h
      exact absurd hfail not_yields_fail
    | ok typed' =>
      rw [hinfer] at h
      obtain ⟨rfl, rfl⟩ := yields_pure_iff.1 h
      exact ⟨⟨⟨text, program, injections, hread, hload, hinjections, hinfer⟩, hsourced⟩, rfl⟩
  · rintro ⟨⟨⟨text, program, injections, hread, hload, hinjections, hinfer⟩, hsourced⟩, rfl⟩
    obtain ⟨source, hsource⟩ := exists_yields_loadSource_iff.2 ⟨hsourced, rfl⟩
    refine ⟨program, w, ⟨⟨text, hread, hload⟩, rfl⟩, injections, w, ⟨hinjections, rfl⟩,
      source, w, hsource, ?_⟩
    rw [hinfer]
    exact yields_pure_iff.2 ⟨rfl, rfl⟩

end Inputs

namespace CompileOptions

variable {o : CompileOptions} {config : Config} {typed : TypedProgram} {output : Output}

theorem yields_emit_iff :
    (o.emit config typed).Yields fs w output w' ↔
      o.generate config typed = .ok output ∧ w = w' :=
  yields_ofExcept_iff

/-- Warnings are told, and then the code is accepted or not. -/
theorem exists_yields_tellWarnings_iff :
    (∃ w', (o.tellWarnings output).Yields fs w () w') ↔
      output.warnings = [] ∨ o.allowPlaceholders = true := by
  have haccepted : (output.isClean || o.allowPlaceholders) = true ↔
      output.warnings = [] ∨ o.allowPlaceholders = true := by
    rw [Bool.or_eq_true, Output.isClean, List.isEmpty_iff]
  rw [← haccepted]
  unfold tellWarnings
  simp only [yields_bind_iff]
  constructor
  · rintro ⟨w', _, between, -, h⟩
    split at h
    · assumption
    · exact absurd h not_yields_fail
  · intro haccepts
    have hcompletes : (output.warnings.forM fun w =>
        perform (.tell ("warning: " ++ w.message ++ "\n"))).run.Completes :=
      completes_forM (fun w => completes_perform _) output.warnings
    obtain ⟨_, between, htold⟩ := exists_yields hcompletes fs w
    refine ⟨between, (), between, htold, ?_⟩
    rw [if_pos haccepts]
    exact yields_pure_iff.2 ⟨rfl, rfl⟩

end CompileOptions

end Success

/-! ## Files -/

/-- What is behind the paths of files with a state `σ`: the file that a path leads to, and the text
in a file. -/
structure FileView (σ φ : Type) where
  locate? : σ → String → Option φ
  contents? : σ → φ → Option String

/-- `view.Describes fs`: a write that fails changes nothing; after one that succeeds the path leads
to a file with the text, and all other files are as they were. -/
structure FileView.Describes {φ : Type} (view : FileView σ φ) (fs : FileSystem σ) : Prop where
  failsCleanly : fs.FailsCleanly
  written : ∀ {s s' : σ} {path text : String}, fs.write s path text = (.ok (), s') →
    ∃ file, view.locate? s' path = some file ∧ view.contents? s' file = some text ∧
      ∀ other, other ≠ file → view.contents? s' other = view.contents? s other

namespace FileStore

variable {s s' : FileStore} {key path text : String}

/-- The files of a store, by their keys. -/
def view : FileView FileStore String where
  locate? s path := (s.locate? path).map join
  contents? s key := s.files.get? key

/-- A written file adds no way to lose a directory. -/
theorem hasDirectory_insert {segments : List String} (h : s.hasDirectory segments = true) :
    (FileStore.mk s.home (s.files.insert key text)).hasDirectory segments = true := by
  unfold hasDirectory at h ⊢
  rw [Bool.or_eq_true] at h ⊢
  refine h.imp_right fun h => ?_
  obtain ⟨name, hname, hbelow⟩ := List.any_eq_true.1 h
  refine List.any_eq_true.2 ⟨name, ?_, hbelow⟩
  rw [Table.mem_names_iff] at hname ⊢
  by_cases hkey : name = key
  · rw [hkey, Table.get?_insert_self]
    rfl
  · rwa [Table.get?_insert_of_ne _ hkey]

theorem walk?_insert {here segments found : List String} (h : s.walk? here segments = some found) :
    (FileStore.mk s.home (s.files.insert key text)).walk? here segments = some found := by
  fun_induction walk? s here segments with
  | case1 => cases h
  | case2 => cases h
  | case3 here last hlast => rw [walk?, if_neg hlast, h]
  | case4 here segment rest hrest hstay ih =>
    rw [walk?, if_pos hstay, ih h]
    exact hrest
  | case5 here rest hrest hup ih =>
    rw [walk?, if_neg hup, if_pos rfl, ih h]
    exact hrest
  | case6 here segment rest hrest hstay hup hdirectory ih =>
    rw [walk?, if_neg hstay, if_neg hup, if_pos (hasDirectory_insert hdirectory), ih h]
    exact hrest
  | case7 => cases h

theorem locate?_insert {segments : List String} (h : s.locate? path = some segments) :
    (FileStore.mk s.home (s.files.insert key text)).locate? path = some segments := by
  unfold locate? at h ⊢
  exact walk?_insert h

/-- A store is a file system that its files describe. -/
theorem view_describes : view.Describes system where
  failsCleanly := by
    intro s path text reason s' h
    change s.write path text = _ at h
    unfold write at h
    split at h
    · split at h
      · exact (Prod.mk.inj h).2.symm
      · cases h
    · exact (Prod.mk.inj h).2.symm
  written := by
    intro s s' path text h
    change s.write path text = _ at h
    unfold write at h
    split at h
    · rename_i segments hpath
      split at h
      · cases h
      · obtain rfl := (Prod.mk.inj h).2
        refine ⟨join segments, ?_, Table.get?_insert_self _ _ _, fun other hother => ?_⟩
        · change Option.map join _ = _
          rw [locate?_insert hpath, Option.map_some]
        · exact Table.get?_insert_of_ne _ hother _
    · cases h

end FileStore

/-! ## Runs -/

/-- `Delivered view text w output w'`: the text went to exactly one place.  It was printed, with all
files as they were, or it was written to the file `output`, with nothing printed and all other files
as they were. -/
inductive Delivered {φ : Type} (view : FileView σ φ) (text : String) (w : World σ) :
    Option String → World σ → Prop where
  | printed {w' : World σ} : w'.out = w.out ++ text → w'.files = w.files →
      Delivered view text w none w'
  | saved {path : String} {file : φ} {w' : World σ} : w'.out = w.out →
      view.locate? w'.files path = some file → view.contents? w'.files file = some text →
      (∀ other, other ≠ file → view.contents? w'.files other = view.contents? w.files other) →
      Delivered view text w (some path) w'

/-- What was kept before a delivery does not matter for it. -/
theorem Delivered.of_keeps {φ : Type} {view : FileView σ φ} {text : String} {w between w' : World σ}
    {output : Option String} (h : Delivered view text between output w') (hw : w.Keeps between) :
    Delivered view text w output w' := by
  cases h with
  | printed hout hfiles =>
    rw [hw.out] at hout
    exact .printed hout (hfiles.trans hw.files)
  | saved hout hpath htext hothers =>
    rw [hw.files] at hothers
    exact .saved (hout.trans hw.out) hpath htext hothers

section Runs

variable {φ : Type} {view : FileView σ φ} {fs : FileSystem σ} {parsers : Parsers} {w w' : World σ}

theorem CompileOptions.yields_deliver {o : CompileOptions} {text : String}
    (hview : view.Describes fs) (h : (o.deliver text).Yields fs w () w') :
    Delivered view text w o.output w' := by
  unfold deliver at h
  cases houtput : o.output with
  | none =>
    rw [houtput] at h
    obtain ⟨-, rfl⟩ := Prod.mk.inj (yields_perform_iff.1 h)
    exact .printed rfl rfl
  | some path =>
    rw [houtput] at h
    obtain ⟨answer, between, hanswer, h⟩ := yields_bind_iff.1 h
    obtain ⟨hwrite, hbetween⟩ : (fs.write w.files path text).1 = answer ∧
        { w with files := (fs.write w.files path text).2 } = between :=
      Prod.mk.inj (yields_perform_iff.1 hanswer)
    obtain ⟨_, _, hresult, h⟩ := yields_bind_iff.1 h
    obtain ⟨rfl, rfl⟩ := yields_ofExcept_iff.1 hresult
    have hkeeps : between.Keeps w' := h.keeps (quiet_perform rfl)
    have hout : w'.out = w.out := by rw [hkeeps.out, ← hbetween]
    have hfiles : (fs.write w.files path text).2 = w'.files := by rw [hkeeps.files, ← hbetween]
    obtain ⟨file, hpath, htext, hothers⟩ := hview.written (Prod.ext hwrite hfiles)
    exact .saved hout hpath htext hothers

/-- A text is delivered when its file can be written. -/
theorem CompileOptions.exists_yields_deliver {o : CompileOptions} {text : String}
    (h : ∀ path, o.output = some path → (fs.write w.files path text).1 = .ok ()) :
    ∃ w', (o.deliver text).Yields fs w () w' := by
  unfold deliver
  cases houtput : o.output with
  | none => exact ⟨_, yields_perform_iff.2 rfl⟩
  | some path =>
    have hanswer : (Effect.write path text).perform fs w =
        (.ok (), { w with files := (fs.write w.files path text).2 }) :=
      Prod.ext (h path houtput) rfl
    exact ⟨_, yields_bind_iff.2 ⟨.ok (), _, yields_perform_iff.2 hanswer,
      yields_bind_iff.2 ⟨(), _, yields_ofExcept_iff.2 ⟨rfl, rfl⟩, yields_perform_iff.2 rfl⟩⟩⟩

namespace Command

variable {i : Inputs} {o : CompileOptions}

/-- A compilation that is done has analysed the program, generated code that is accepted, and
delivered it. -/
theorem yields_compile (hview : view.Describes fs)
    (h : ((Command.compile i o).routine parsers).Yields fs w () w') :
    ∃ config typed output, i.Analyses fs parsers w.files config typed ∧
      o.Compiles config typed output ∧ Delivered view (output.code ++ "\n") w o.output w' := by
  obtain ⟨config, _, hconfig, h⟩ := yields_bind_iff.1 h
  obtain ⟨hconfigured, rfl⟩ := Inputs.yields_loadConfig_iff.1 hconfig
  obtain ⟨typed, _, htyped, h⟩ := yields_bind_iff.1 h
  obtain ⟨⟨hinferred, hsourced⟩, rfl⟩ := Inputs.yields_analyse_iff.1 htyped
  obtain ⟨output, _, houtput, h⟩ := yields_bind_iff.1 h
  obtain ⟨hgenerated, rfl⟩ := CompileOptions.yields_emit_iff.1 houtput
  obtain ⟨_, between, htold, h⟩ := yields_bind_iff.1 h
  have haccepted := CompileOptions.exists_yields_tellWarnings_iff.1 ⟨between, htold⟩
  have hkeeps := htold.keeps (o.quiet_tellWarnings output)
  have hdelivered := (CompileOptions.yields_deliver hview h).of_keeps hkeeps
  exact ⟨config, typed, output, ⟨hconfigured, hinferred, hsourced⟩, ⟨hgenerated, haccepted⟩,
    hdelivered⟩

/-- A compilation is done when everything goes well. -/
theorem exists_yields_compile {config : Config} {typed : TypedProgram} {output : Output}
    (hanalyses : i.Analyses fs parsers w.files config typed)
    (hcompiles : o.Compiles config typed output)
    (hwritable : ∀ path, o.output = some path →
      (fs.write w.files path (output.code ++ "\n")).1 = .ok ()) :
    ∃ w', ((Command.compile i o).routine parsers).Yields fs w () w' := by
  obtain ⟨hconfigured, hinferred, hsourced⟩ := hanalyses
  obtain ⟨hgenerated, haccepted⟩ := hcompiles
  obtain ⟨between, htold⟩ : ∃ w', (o.tellWarnings output).Yields fs w () w' :=
    CompileOptions.exists_yields_tellWarnings_iff.2 haccepted
  have hkeeps := htold.keeps (o.quiet_tellWarnings output)
  rw [← hkeeps.files] at hwritable
  obtain ⟨w', hdelivered⟩ := CompileOptions.exists_yields_deliver hwritable
  refine ⟨w', ?_⟩
  refine yields_bind_iff.2 ⟨config, w, Inputs.yields_loadConfig_iff.2 ⟨hconfigured, rfl⟩, ?_⟩
  refine yields_bind_iff.2
    ⟨typed, w, Inputs.yields_analyse_iff.2 ⟨⟨hinferred, hsourced⟩, rfl⟩, ?_⟩
  refine yields_bind_iff.2 ⟨output, w, CompileOptions.yields_emit_iff.2 ⟨hgenerated, rfl⟩, ?_⟩
  exact yields_bind_iff.2 ⟨(), between, htold, hdelivered⟩

/-- A command exits with zero when it is done, and with another code when it ended early; then what
is told at the end is all that comes after. -/
theorem run_script (parsers : Parsers) (c : Command) (fs : FileSystem σ) (w : World σ) :
    (((c.script parsers).run fs w).1 = 0 ∧
      (c.routine parsers).Yields fs w () ((c.script parsers).run fs w).2) ∨
    ((c.script parsers).run fs w).1 ≠ 0 ∧
      (∃ abort, ((c.routine parsers).run.run fs w).1 = .error abort) ∧
      ((c.routine parsers).run.run fs w).2.Keeps ((c.script parsers).run fs w).2 := by
  unfold script
  rw [Script.run_bind]
  cases hend : ((c.routine parsers).run.run fs w).1 with
  | ok done => exact .inl ⟨rfl, Prod.ext hend rfl⟩
  | error abort =>
    refine .inr ?_
    cases abort with
    | failure message =>
      have hcode : (1 : UInt32) ≠ 0 := by decide
      exact ⟨hcode, ⟨_, rfl⟩, ⟨rfl, rfl⟩⟩
    | crash overflow =>
      have hcode : (101 : UInt32) ≠ 0 := by decide
      exact ⟨hcode, ⟨_, rfl⟩, ⟨rfl, rfl⟩⟩

end Command

end Runs

namespace Sample

/-- `function dark() { return !true; }` -/
def dark : Program :=
  ⟨[Bare.function "dark" []
    [Bare.ret (some (Bare.unary .not (Bare.literal (some (.bool true)) none)))]], none⟩

/-- Parsers that know the text of one document, and no configurations. -/
def darkParsers : Parsers where
  document text := if text = "dark" then .ok (dark.toJson ⟨true, false⟩) else .error "unknown"
  config _ := .error "unknown"

/-- A directory with that document. -/
def darkFiles : FileStore := ⟨["work"], ⟨[("work/a", "dark")]⟩⟩

/-- The options of `compile /work/a -o b`, with placeholders allowed or not. -/
def saving (allowPlaceholders : Bool) : CompileOptions where
  target := .glsl
  output := some "b"
  omitHeader := false
  floatPrecision := none
  allowPlaceholders := allowPlaceholders

/-- A run of `compile /work/a -o b`. -/
def darkRun (allowPlaceholders : Bool) : UInt32 × World FileStore :=
  ((Command.compile ⟨"/work/a", none, none, false⟩ (saving allowPlaceholders)).script
    darkParsers).run FileStore.system ⟨darkFiles, "", ""⟩

theorem dark_loaded : Program.ofJson (dark.toJson ⟨true, false⟩) = .ok dark := by
  refine (dark.writtenAs_toJson ⟨true, false⟩ ?_).ofJson (by decide) (by decide)
  intro l hl x hx
  obtain rfl : l = ⟨some (.bool true), none⟩ := List.mem_singleton.1 hl
  cases hx

theorem darkFiles_read : darkFiles.read "/work/a" = .ok "dark" := by decide +kernel

theorem darkFiles_write (text : String) : (darkFiles.write "b" text).1 = .ok () := by
  have hpath : darkFiles.locate? "b" = some ["work", "b"] := by decide +kernel
  have hfree : ¬ darkFiles.hasDirectory ["work", "b"] = true := by decide +kernel
  rw [FileStore.write, hpath]
  simp only
  rw [if_neg hfree]

/-- The code of the program has one placeholder. -/
theorem dark_analysed : ∃ typed output,
    Inputs.Analyses FileStore.system darkParsers ⟨"/work/a", none, none, false⟩ darkFiles {} typed ∧
    (∀ allowed, (saving allowed).generate {} typed = .ok output) ∧ output.warnings.length = 1 := by
  obtain ⟨typed, output, hinfer, hgenerate, hwarnings⟩ : ∃ typed output,
      dark.infer .empty .builtin = .ok typed ∧ (saving true).generate {} typed = .ok output ∧
      output.warnings.length = 1 :=
    ⟨_, _, rfl, rfl, rfl⟩
  have hinjections : ({} : Config).injections = .ok .empty := by cbv
  have hload : Program.ofParsed (darkParsers.document "dark") = .ok dark := dark_loaded
  refine ⟨typed, output, ⟨rfl, ?_, ?_⟩, fun _ => hgenerate, hwarnings⟩
  · exact ⟨"dark", dark, .empty, darkFiles_read, hload, hinjections, hinfer⟩
  · intro path hpath
    cases hpath

end Sample

end Shader
