import SvgEdit.Files.Path
import SvgEdit.Wording

/-!
# Inputs and where their results go

The paths of a command line become inputs, and each input a job that knows where its result is
written. One input is written to the output as a file; several keep their names in the output as a
directory, so no two of them may have the same name.
-/
namespace SvgEdit

/-- Where a document comes from. -/
inductive Input
  | stdin
  | file (path : FilePath)
deriving DecidableEq, Repr

namespace Input

/-- The input as it is told. -/
def text : Input → Text
  | stdin => ['<', 's', 't', 'd', 'i', 'n', '>']
  | file path => path

/-- The name of the input in an output directory; a path that ends in no name is one as a whole. -/
def fileName : Input → FilePath
  | stdin => ['s', 't', 'd', 'i', 'n', '.', 's', 'v', 'g']
  | file path => path.fileName?.getD path

/-- A single hyphen stands for standard input. -/
def ofPath (path : FilePath) : Input := if path = ['-'] then stdin else file path

end Input

/-- An input and where its result is written; no output is standard output or nowhere. -/
structure Job where
  input : Input
  output : Option FilePath
deriving DecidableEq, Repr

/-- Why inputs cannot be worked on. -/
inductive PlanFault
  | stdinTwice
  | sameName (name directory : FilePath)
  /-- Several results would all go to standard output. -/
  | noDirectory (command : String)
deriving DecidableEq, Repr

def PlanFault.message : PlanFault → String
  | stdinTwice => "stdin (`-`) can only be read once"
  | sameName name directory =>
    "several inputs are named `" ++ name.string ++ "`; they would overwrite each other in `"
      ++ directory.string ++ "`"
  | noDirectory command => s!"{command} with several inputs needs --output <DIR>"

/-- The inputs that paths stand for; no path is standard input. -/
def collectInputs (paths : List FilePath) : Except PlanFault (List Input) :=
  if paths = [] then .ok [.stdin]
  else
    let inputs := paths.map Input.ofPath
    if 1 < inputs.count .stdin then .error .stdinTwice else .ok inputs

/-- Jobs for inputs in a directory, other than those whose names are taken. -/
def planInto (directory : FilePath) (taken : List FilePath) :
    List Input → Except PlanFault (List Job)
  | [] => .ok []
  | input :: inputs =>
    let name := input.fileName
    if name ∈ taken then .error (.sameName name directory)
    else
      (planInto directory (name :: taken) inputs).map
        (⟨input, some (directory.join name)⟩ :: ·)

/-- A job for each input. -/
def planJobs (inputs : List Input) (output : Option FilePath) : Except PlanFault (List Job) :=
  match inputs, output with
  | [input], output => .ok [⟨input, output⟩]
  | inputs, none => .ok (inputs.map (⟨·, none⟩))
  | inputs, some directory => planInto directory [] inputs

/-- Refuses several jobs of a command if any would write to standard output. -/
def requireOutputs (command : String) (jobs : List Job) : Except PlanFault Unit :=
  if 1 < jobs.length ∧ jobs.any (·.output.isNone) then .error (.noDirectory command) else .ok ()

/-- What is said at the end if inputs failed. -/
def failureMessage (failed total : Nat) : String := counted failed "input" ++ s!" of {total} failed"

end SvgEdit
