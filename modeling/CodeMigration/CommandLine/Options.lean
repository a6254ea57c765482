/-!
# Command line options

Options with a value are written `--name value`, `--name=value`, `-n value`, `-nvalue` or
`-n=value`. A value in an argument of its own does not begin with a dash, unless it is a single
dash. Only inputs and rules may be given more than once, and there has to be an input.
-/

namespace CodeMigration

namespace CommandLine

/-- What the command line asks for. -/
structure Options where
  inputs : List String := []
  classIndex : Option String := none
  config : Option String := none
  outputDir : Option String := none
  maxPasses : Option Nat := none
  revisitBound : Option UInt32 := none
  rules : List String := []
  print : Bool := false
  noColor : Bool := false
  logLevel : Option String := none
  fileLogging : Bool := false

namespace Options

/-- A decimal number of 32 bits, possibly with a sign; the only number with a minus sign is zero. -/
def number? (text : String) : Option Nat :=
  let (limit, digits) := match text.toList with
    | '+' :: rest => (UInt32.size, rest)
    | '-' :: rest => (1, rest)
    | cs => (UInt32.size, cs)
  if digits.isEmpty || !digits.all Char.isDigit then none
  else
    let n := digits.foldl (fun acc c => acc * 10 + (c.toNat - '0'.toNat)) 0
    if n < limit then some n else none

/-- A value that may be set once. -/
def once {α : Type} (old : Option α) (value : Option α) : Option (Option α) :=
  if old.isSome then none else value.map some

/-- A path is not empty. -/
def path? (value : String) : Option String := if value = "" then none else some value

/-- Whether an option of the given name takes a value. -/
def takesValue (name : String) : Bool :=
  ["input", "class-index", "config", "output-dir", "max-passes", "revisit-bound", "rule",
    "log-level"].contains name

/-- Sets an option with a value. -/
def setValue (o : Options) (name value : String) : Option Options :=
  match name with
  | "input" => do return { o with inputs := o.inputs ++ [← path? value] }
  | "class-index" => do return { o with classIndex := ← once o.classIndex (path? value) }
  | "config" => do return { o with config := ← once o.config (path? value) }
  | "output-dir" => do return { o with outputDir := ← once o.outputDir (path? value) }
  | "max-passes" => do return { o with maxPasses := ← once o.maxPasses (number? value) }
  | "revisit-bound" => do return { o with
      revisitBound := ← once o.revisitBound ((number? value).map UInt32.ofNat) }
  | "rule" => some { o with rules := o.rules ++ [value] }
  | "log-level" => do return { o with logLevel := ← once o.logLevel (some value) }
  | _ => none

/-- Sets an option without a value. -/
def setFlag (o : Options) (name : String) : Option Options :=
  match name with
  | "print" => if o.print then none else some { o with print := true }
  | "no-color" => if o.noColor then none else some { o with noColor := true }
  | "file-logging" => if o.fileLogging then none else some { o with fileLogging := true }
  | _ => none

/-- The long name of a one-letter option. -/
def longName? (letter : Char) : Option String :=
  if letter = 'i' then some "input"
  else if letter = 'c' then some "config"
  else if letter = 'o' then some "output-dir"
  else none

/-- An argument taken apart. -/
inductive Argument where
  | option (name : String) (value : Option String)
  | finish
  | stray

/-- Takes an argument apart. -/
def Argument.ofText (text : String) : Argument :=
  match text.toList with
  | ['-', '-'] => .finish
  | '-' :: '-' :: cs =>
    let name := String.ofList (cs.takeWhile (· != '='))
    match cs.dropWhile (· != '=') with
    | _ :: value => .option name (some (String.ofList value))
    | [] => .option name none
  | '-' :: letter :: cs =>
    match longName? letter with
    | none => .stray
    | some name =>
      match cs with
      | [] => .option name none
      | '=' :: value => .option name (some (String.ofList value))
      | value => .option name (some (String.ofList value))
  | _ => .stray

/-- Whether a text can be the value of the option before it. -/
def isValue (text : String) : Bool := text = "-" || text.toList.head? != some '-'

/-- What has been read: the options so far, and the name of one that waits for its value. -/
structure Progress where
  options : Options
  waiting : Option String := none
  finished : Bool := false

/-- Takes the next argument. -/
def Progress.step (p : Progress) (text : String) : Option Progress :=
  match p.waiting with
  | some name =>
    if isValue text then do
      return { p with options := ← p.options.setValue name text, waiting := none }
    else none
  | none =>
    if p.finished then none
    else
      match Argument.ofText text with
      | .finish => some { p with finished := true }
      | .stray => none
      | .option name value =>
        if takesValue name then
          match value with
          | some v => do return { p with options := ← p.options.setValue name v }
          | none => some { p with waiting := some name }
        else if value.isSome then none
        else do return { p with options := ← p.options.setFlag name }

/-- Reads the arguments. -/
def parse? (arguments : List String) : Option Options := do
  let done ← arguments.foldlM Progress.step { options := {} }
  if done.waiting.isSome || done.options.inputs.isEmpty then none else some done.options

end Options

end CommandLine

end CodeMigration
