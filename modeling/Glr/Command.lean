import Glr.Parser
import Glr.Query.Match
import Glr.Tree.Display

/-!
# Glr.Command

The command line.  A command reads some files, writes to both outputs, and may
write one file; here it is a function of what its files hold, and the only
effect that is left is the writing.

```
validate GRAMMAR
generate GRAMMAR [-o FILE]
parse [-q] [-t] GRAMMAR FILE
query GRAMMAR QUERY FILE
```
-/

namespace Glr

/-- What is to be done. -/
inductive Command where
  | validate (grammar : String)
  | generate (grammar : String) (output : Option String)
  | parse (grammar file : String) (quiet time : Bool)
  | query (grammar patterns file : String)
  deriving DecidableEq, Repr

/-- Why a file cannot be used. -/
inductive FileError where
  | notFound
  | notDirectory
  | isDirectory
  | nameTooLong
  | permissionDenied
  | notText
  | other (message : String)
  deriving DecidableEq, Repr

/-- The words for an error of a file. -/
def FileError.message : FileError → String
  | .notFound => "No such file or directory (os error 2)"
  | .notDirectory => "Not a directory (os error 20)"
  | .isDirectory => "Is a directory (os error 21)"
  | .nameTooLong => "File name too long (os error 36)"
  | .permissionDenied => "Permission denied (os error 13)"
  | .notText => "stream did not contain valid UTF-8"
  | .other message => message

/-- What a command answers. -/
structure Reply where
  stdout : String := ""
  stderr : String := ""
  /-- Whether all was well. -/
  success : Bool := true
  /-- The file whose parsing is to be timed. -/
  timed : Option String := none
  deriving DecidableEq, Repr, Inhabited

/-- What is left to do: to answer, or to write a file and then answer. -/
inductive Plan where
  | answer (r : Reply)
  | write (path contents : String) (next : Option FileError → Reply)

/-- An error with what caused it. -/
structure Failure where
  message : String
  cause : Option String := none
  deriving DecidableEq, Repr

/-- An error in writing; the cause is indented. -/
def Failure.render (f : Failure) : String :=
  "error: " ++ f.message ++
    (match f.cause with
      | some cause => "\n\nCaused by:\n    " ++ cause.replace "\n" "\n    "
      | none => "") ++ "\n"

/-- The answer of a command that failed. -/
def Failure.reply (f : Failure) : Reply := { stderr := f.render, success := false }

namespace Command

/-! ## Arguments -/

/-- The arguments after a command, sorted: options with and without a value, and
the rest. -/
structure Arguments where
  flags : List String := []
  values : List (String × String) := []
  operands : List String := []
  deriving Repr

/-- What the options of a command are called, short and long. -/
structure OptionName where
  short : Char
  long : String
  takesValue : Bool

/-- The options that a command has. -/
def optionsOf : String → List OptionName
  | "generate" => [⟨'o', "output", true⟩]
  | "parse" => [⟨'q', "quiet", false⟩, ⟨'t', "time", false⟩]
  | _ => []

/-- The option for more reports, which all commands have. -/
def verbose : OptionName := ⟨'v', "verbose", false⟩

namespace Arguments

/-- Adds an option; only reports can be asked for more than once. -/
def addFlag? (a : Arguments) (o : OptionName) : Option Arguments :=
  if o.long == verbose.long then some a
  else if a.flags.contains o.long then none
  else some { a with flags := o.long :: a.flags }

/-- Adds an option with a value, once. -/
def addValue? (a : Arguments) (o : OptionName) (value : String) : Option Arguments :=
  if a.values.any fun v => v.1 == o.long then none
  else some { a with values := (o.long, value) :: a.values }

/-- Adds an operand. -/
def addOperand (a : Arguments) (s : String) : Arguments :=
  { a with operands := a.operands ++ [s] }

/-- The value of an option. -/
def value? (a : Arguments) (long : String) : Option String :=
  (a.values.find? fun v => v.1 == long).map Prod.snd

/-- Whether an operand or a value is empty; all of them are paths, and no path is. -/
def hasEmptyPath (a : Arguments) : Bool :=
  a.operands.any String.isEmpty || a.values.any fun v => v.2.isEmpty

end Arguments

/-- The value that follows a short option in the same argument, without an equals
sign in front. -/
def attached (rest : List Char) : String :=
  match rest with
  | '=' :: rest => String.ofList rest
  | rest => String.ofList rest

/-- Reads short options that stand in one argument; an option that still needs a
value is answered, too. -/
def readShort (options : List OptionName) :
    List Char → Arguments → Option (Arguments × Option OptionName)
  | [], a => some (a, none)
  | c :: rest, a => do
    let o ← options.find? fun o => o.short == c
    if !o.takesValue then readShort options rest (← a.addFlag? o)
    else if rest.isEmpty then some (a, some o)
    else some (← a.addValue? o (attached rest), none)

/-- Reads one long option, with its value if that stands behind an equals sign. -/
def readLong (options : List OptionName) (text : String) (a : Arguments) :
    Option (Arguments × Option OptionName) := do
  let chars := text.toList
  let name := String.ofList (chars.takeWhile (· != '='))
  let rest := chars.dropWhile (· != '=')
  let o ← options.find? fun o => o.long == name
  if !o.takesValue then
    if rest.isEmpty then some (← a.addFlag? o, none) else none
  else if rest.isEmpty then some (a, some o)
  else some (← a.addValue? o (attached rest), none)

/-- Whether an argument is an option. -/
def isOption (s : String) : Bool := s.startsWith "-" && s != "-"

/-- Sorts the arguments of a command.  After two dashes all of them are operands. -/
def readArguments (options : List OptionName) : List String → Arguments → Option Arguments
  | [], a => some a
  | s :: rest, a =>
    if s == "--" then some (rest.foldl Arguments.addOperand a)
    else if isOption s then
      let read :=
        if s.startsWith "--" then readLong options (s.drop 2).toString a
        else readShort options (s.drop 1).toString.toList a
      match read, rest with
      | none, _ => none
      | some (a, none), rest => readArguments options rest a
      | some (_, some _), [] => none
      | some (a, some o), value :: rest =>
        if isOption value then none
        else
          match a.addValue? o value with
          | some a => readArguments options rest a
          | none => none
    else readArguments options rest (a.addOperand s)

/-- The command of a name and its arguments. -/
def ofArguments? (name : String) (a : Arguments) : Option Command :=
  match name, a.operands with
  | "validate", [grammar] => some (.validate grammar)
  | "generate", [grammar] => some (.generate grammar (a.value? "output"))
  | "parse", [grammar, file] =>
    some (.parse grammar file (a.flags.contains "quiet") (a.flags.contains "time"))
  | "query", [grammar, patterns, file] => some (.query grammar patterns file)
  | _, _ => none

/-- The command that arguments ask for, if they ask for one. -/
def ofArgs? (args : List String) : Option Command :=
  let isVerbose (s : String) : Bool :=
    s == "--verbose" || (s.startsWith "-v" && s.toList.tail.all (· == 'v'))
  match args.dropWhile isVerbose with
  | [] => none
  | name :: rest =>
    let read := (readArguments (verbose :: optionsOf name) rest {}).filter (!·.hasEmptyPath)
    read.bind (ofArguments? name)

/-- What is said about wrong arguments. -/
def usage : String :=
  "usage: validate GRAMMAR | generate GRAMMAR [-o FILE] | parse [-q] [-t] GRAMMAR FILE"
    ++ " | query GRAMMAR QUERY FILE\n"

/-- The files that a command reads. -/
def inputs : Command → List String
  | .validate grammar => [grammar]
  | .generate grammar _ => [grammar]
  | .parse grammar file _ _ => [grammar, file]
  | .query grammar patterns file => [grammar, patterns, file]

/-! ## Doing it -/

section

variable (read : String → Except FileError String)

/-- What a file holds. -/
def load (path : String) : Except Failure String :=
  match read path with
  | .ok text => .ok text
  | .error e => .error ⟨s!"failed to read {path}", some e.message⟩

/-- The grammar in a file. -/
def loadGrammar (path : String) : Except Failure Grammar := do
  let text ← load read path
  match Grammar.parse? text with
  | some g => return g
  | none => throw ⟨s!"invalid grammar in {path}", some "JSON parse error"⟩

/-- The language of the grammar in a file. -/
def loadLanguage (path : String) : Except Failure Language := do
  let g ← loadGrammar read path
  match Language.ofGrammar 0 g none with
  | .ok l => return l
  | .error e =>
    let cause := match e with
      | .generation e => e.message
      | .loading e => e.message
    throw ⟨s!"failed to generate {path}", some cause⟩

/-- The tree of a file, and the text. -/
def parseFile (l : Language) (path : String) : Except Failure (Tree × Bytes) := do
  let text := Bytes.ofString (← load read path)
  return ((l.parse {} text none).1, text)

/-- The line on a captured node. -/
def captureLine (q : Query) (source : Bytes) (pattern : Nat) (c : Query.Capture) : String :=
  let name := q.captureNames[c.index]?.getD ""
  let text := (c.node.text? source).getD ""
  s!"pattern: {pattern} capture: {name} {c.node.range.display} \x60{text}\x60\n"

/-- Carries out a command, up to the writing. -/
def plan : Command → Except Failure Plan
  | .validate grammar => do
    let g ← loadGrammar read grammar
    match g.validate with
    | .ok _ => return .answer { stdout := grammar ++ ": ok\n" }
    | .error e => throw ⟨e.message, none⟩
  | .generate grammar output => do
    let g ← loadGrammar read grammar
    match g.generate.1, output with
    | .error e, _ => throw ⟨e.message, none⟩
    | .ok table, none => return .answer { stdout := table.toPrettyJson ++ "\n" }
    | .ok table, some path =>
      return .write path table.toPrettyJson fun
        | none => {}
        | some e => Failure.reply ⟨s!"failed to write {path}", some e.message⟩
  | .parse grammar file quiet time => do
    let l ← loadLanguage read grammar
    let (tree, _) ← parseFile read l file
    return .answer {
      stdout := if quiet then "" else tree.display ++ "\n"
      stderr := String.join (tree.errors.map fun e => s!"{file}: {e.message}\n")
      success := !tree.hasError
      timed := if time then some file else none }
  | .query grammar patterns file => do
    let l ← loadLanguage read grammar
    let source ← load read patterns
    match Query.compile l source with
    | .error e => throw ⟨s!"invalid query in {patterns}", some e.message⟩
    | .ok q =>
      let (tree, text) ← parseFile read l file
      let found := q.run tree.rootNode text none
      let lines := found.flatMap fun m => m.captures.map (captureLine q text m.pattern)
      return .answer { stdout := String.join lines }

/-- Carries out a command, up to the writing; an error is an answer, too. -/
def run (c : Command) : Plan :=
  match plan read c with
  | .ok p => p
  | .error f => .answer f.reply

end

end Command

end Glr
