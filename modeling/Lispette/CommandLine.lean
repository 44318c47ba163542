import Lispette.Compiler
import Lispette.Json.Encoding
import Lispette.Outline

/-!
# The command line

What a run of the compiler prints, as a function of its options and of the source it was given.
-/

namespace Lispette.CommandLine

structure Options where
  /-- Without an input file the source is standard input. -/
  input : Option String := none
  tree : Bool := false
  state : Bool := false
  json : Bool := false
  trace : Bool := false
  version : Bool := false
deriving DecidableEq, Repr

def Options.withArgument (options : Options) (argument : String) : Options :=
  match argument with
  | "--ast" => { options with tree := true }
  | "--state" => { options with state := true }
  | "--json" => { options with json := true }
  | "--trace" => { options with trace := true }
  | "--version" => { options with version := true }
  | file => { options with input := some file }

def Options.ofArguments (arguments : List String) : Options :=
  arguments.foldl withArgument {}

/-- Why there is no source to compile. -/
inductive ReadError where
  | noSuchFile
  | notUnicode
deriving DecidableEq, Repr

def ReadError.message : ReadError → String
  | noSuchFile => "No such file or directory (os error 2)"
  | notUnicode => "stream did not contain valid UTF-8"

structure Outcome where
  exitCode : Nat
  output : String := ""
  errorOutput : String := ""
deriving DecidableEq, Repr

def versionText : String := "mtc 0.1.0\n"

def lines (texts : List String) : String := String.join (texts.map (· ++ "\n"))

def unreadable (input : Option String) (error : ReadError) : Outcome where
  exitCode := 1
  errorOutput :=
    "Error: failed to read " ++ input.getD "standard input" ++ "\n\nCaused by:\n    " ++
      error.message ++ "\n"

def jsonReport (parsed : Parse) : String :=
  let report := Json.object
    [("program", Program.optionToJson parsed.program),
      ("errors", .array (parsed.final.errors.map SyntaxError.toJson))]
  report.pretty 0 ++ "\n"

/-- What is printed for a source that was read, without its trace. -/
def report (options : Options) (parsed : Parse) : Outcome :=
  let errors := parsed.final.errors
  if options.json then
    { exitCode := if errors.isEmpty then 0 else 1, output := jsonReport parsed }
  else
    let state := if options.state then parsed.final.report else ""
    if errors.isEmpty then
      match parsed.program with
      | none => { exitCode := 1, errorOutput := state ++ "Nothing to compile\n" }
      | some program =>
        { exitCode := 0
          output := (if options.tree then program.tree else "") ++ generate program ++ "\n"
          errorOutput := state }
    else
      let tree := (parsed.program.map Program.tree).getD ""
      { exitCode := 1
        errorOutput :=
          state ++ "Failed to parse source\n" ++ tree ++ lines (errors.map SyntaxError.text) }

/-- With tracing on, the events come before everything else on the error output. -/
def run (options : Options) (source : Except ReadError String) : Outcome :=
  if options.version then { exitCode := 0, output := versionText }
  else
    match source with
    | .error e => unreadable options.input e
    | .ok source =>
      let parsed := ({ traced := options.trace } : Grammar).parse source
      let outcome := report options parsed
      { outcome with errorOutput := lines (parsed.events.map Event.text) ++ outcome.errorOutput }

end Lispette.CommandLine
