import Shader.Command.Basic

/-!
# The command line

`compile` generates code for a program and `check` prints the signatures of its functions.  Each
takes one operand, the file of the program, and the options and flags of its grammar, in any order.
An option has its value in the next word, after an equals sign, or, when it is a short one, right
behind its letter.  A word that starts with a dash is never the value of the option in front of it,
and after `--` all words are operands.  Nothing may be given twice.

`help` stands in place of a command and may be followed by the name of one, or by its own.
-/

namespace Shader

/-- The target of a name. -/
def Target.ofName? : String → Option Target
  | "glsl" => some .glsl
  | "embree" => some .embree
  | _ => none

/-- What a command line asks for. -/
inductive Invocation where
  | version
  | help
  | command (c : Command)
  /-- The command line is malformed. -/
  | misuse
deriving DecidableEq, Repr

/-! ## Options and flags -/

/-- An option: it has a value. -/
inductive OptionName where
  | config
  | target
  | output
  | floatPrecision
  | source
deriving DecidableEq, Repr

/-- A flag: it has none. -/
inductive FlagName where
  | omitHeader
  | json
  | allowPlaceholders
deriving DecidableEq, Repr

/-- The spelling of an option after two dashes. -/
def OptionName.long : OptionName → String
  | .config => "config"
  | .target => "target"
  | .output => "output"
  | .floatPrecision => "float-precision"
  | .source => "source"

/-- The letter of an option after one dash. -/
def OptionName.short? : OptionName → Option Char
  | .config => some 'c'
  | .target => some 't'
  | .output => some 'o'
  | _ => none

/-- Whether an option takes a value: a file has a name, and a target is one of the two. -/
def OptionName.accepts (o : OptionName) (value : String) : Bool :=
  match o with
  | .floatPrecision => true
  | .target => (Target.ofName? value).isSome
  | _ => !value.isEmpty

/-- The spelling of a flag after two dashes. -/
def FlagName.long : FlagName → String
  | .omitHeader => "omit-header"
  | .json => "json"
  | .allowPlaceholders => "allow-placeholders"

/-- The options and flags of a command. -/
structure Grammar where
  options : List OptionName
  flags : List FlagName

/-- The grammar of `compile`. -/
def Grammar.compile : Grammar :=
  ⟨[.config, .target, .output, .floatPrecision, .source], [.omitHeader, .json, .allowPlaceholders]⟩

/-- The grammar of `check`. -/
def Grammar.check : Grammar := ⟨[.config, .source], [.json]⟩

/-! ## Reading words -/

/-- The words of a command read so far. -/
structure Scan where
  values : List (OptionName × String) := []
  flags : List FlagName := []
  operand : Option String := none
  /-- The option whose value is due. -/
  pending : Option OptionName := none
  /-- Whether `--` has been read. -/
  closed : Bool := false

/-- Why reading stops early. -/
inductive Stop where
  | help
  | misuse

namespace Scan

/-- Give an option a value. -/
def setValue (s : Scan) (o : OptionName) (value : String) : Except Stop Scan :=
  if s.values.any (·.1 == o) || !o.accepts value then .error .misuse
  else .ok { s with values := s.values ++ [(o, value)], pending := none }

/-- Raise a flag. -/
def setFlag (s : Scan) (f : FlagName) : Except Stop Scan :=
  if s.flags.contains f then .error .misuse else .ok { s with flags := s.flags ++ [f] }

/-- Take an operand. -/
def setOperand (s : Scan) (word : String) : Except Stop Scan :=
  if s.operand.isSome || word.isEmpty then .error .misuse
  else .ok { s with operand := some word }

/-- Take an option with the value that is written into its word, or else leave it pending. -/
def takeOption (s : Scan) (o : OptionName) : Option String → Except Stop Scan
  | some value => s.setValue o value
  | none => .ok { s with pending := some o }

/-- The value of an option. -/
def value? (s : Scan) (o : OptionName) : Option String :=
  (s.values.find? (·.1 == o)).map (·.2)

end Scan

namespace Grammar

/-- The text after two dashes: a name and, after an equals sign, a value. -/
def splitLong (cs : List Char) : String × Option String :=
  let (name, rest) := cs.span (· != '=')
  (String.ofList name, match rest with
    | [] => none
    | _ :: value => some (String.ofList value))

/-- A word with two dashes. -/
def long (g : Grammar) (s : Scan) (cs : List Char) : Except Stop Scan :=
  let (name, value) := splitLong cs
  match g.options.find? (·.long == name), g.flags.find? (·.long == name) with
  | some o, _ => s.takeOption o value
  | none, some f => if value.isSome then .error .misuse else s.setFlag f
  | none, none => .error (if name == "help" && value.isNone then .help else .misuse)

/-- A word with one dash, of which `c` is the letter and `rest` is what follows it. -/
def short (g : Grammar) (s : Scan) (c : Char) (rest : List Char) : Except Stop Scan :=
  match g.options.find? (·.short? == some c) with
  | some o =>
    s.takeOption o (match rest with
      | [] => none
      | '=' :: value => some (String.ofList value)
      | value => some (String.ofList value))
  | none => .error (if c == 'h' then .help else .misuse)

/-- One word. -/
def step (g : Grammar) (s : Scan) (word : String) : Except Stop Scan :=
  if s.closed then s.setOperand word
  else
    match word.toList with
    | ['-', '-'] => .ok { s with closed := true }
    | '-' :: '-' :: cs => if s.pending.isSome then .error .misuse else g.long s cs
    | '-' :: c :: cs => if s.pending.isSome then .error .misuse else g.short s c cs
    | _ =>
      match s.pending with
      | some o => s.setValue o word
      | none => s.setOperand word

/-- The words of a command.  There must be an operand, and no option without its value. -/
def scan (g : Grammar) (words : List String) : Except Stop (String × Scan) := do
  let s ← words.foldlM g.step {}
  match s.operand, s.pending with
  | some operand, none => .ok (operand, s)
  | _, _ => .error .misuse

end Grammar

/-- The inputs among the words of a command. -/
def Scan.inputs (s : Scan) (input : String) : Inputs :=
  { input, config := s.value? .config, source := s.value? .source, json := s.flags.contains .json }

/-- The options of `compile` among its words. -/
def Scan.compileOptions (s : Scan) : CompileOptions where
  target := ((s.value? .target).bind Target.ofName?).getD .glsl
  output := s.value? .output
  omitHeader := s.flags.contains .omitHeader
  floatPrecision := s.value? .floatPrecision
  allowPlaceholders := s.flags.contains .allowPlaceholders

/-- The invocation of a command whose words have been read. -/
def Invocation.ofScan (build : String → Scan → Command) :
    Except Stop (String × Scan) → Invocation
  | .ok (operand, s) => .command (build operand s)
  | .error .help => .help
  | .error .misuse => .misuse

/-- What a word in place of a command asks for. -/
def Invocation.ofWord (word : String) : Invocation :=
  match word.toList with
  | '-' :: 'V' :: _ => .version
  | '-' :: 'h' :: _ => .help
  | _ => if word == "--version" then .version
    else if word == "--help" then .help
    else .misuse

/-- What `help` can be asked about. -/
def helpTopics : List String := ["compile", "check", "help"]

/-- What the words after `help` ask for.  No topic has topics of its own. -/
def Invocation.ofTopics : List String → Invocation
  | [] => .help
  | [topic] => if helpTopics.contains topic then .help else .misuse
  | _ => .misuse

/-- What a command line asks for. -/
def Invocation.ofWords : List String → Invocation
  | [] => .misuse
  | "compile" :: words => ofScan (fun input s => .compile (s.inputs input) s.compileOptions)
      (Grammar.compile.scan words)
  | "check" :: words => ofScan (fun input s => .check (s.inputs input)) (Grammar.check.scan words)
  | "help" :: words => ofTopics words
  | word :: _ => ofWord word

end Shader
