import SvgEdit.Command.Arguments
import SvgEdit.Command.Fault
import SvgEdit.Command.Host
import SvgEdit.Settings
import SvgEdit.Transform

/-!
# Running commands

A command loads the settings, plans its jobs and does them in order. A job that fails is told and
does not keep the others from being done; at the end the command fails if any job did.
-/
namespace SvgEdit

variable {m : Type → Type} [Monad m] [Host m]

/-- How a command runs: with or without colours, and with which settings. -/
structure Run where
  colored : Bool
  settings : Settings
deriving DecidableEq, Repr

namespace Run

def tell (run : Run) (line : LogLine) : m Unit := Host.tell (line.text run.colored)

/-- Tells details, if they are wanted. -/
def tellDetails (run : Run) (lines : List LogLine) : m Unit :=
  if run.settings.verbose then lines.forM run.tell else pure ()

/-- Prints JSON and ends the line. -/
def printJson (run : Run) (j : Json) : m Unit :=
  Host.print ((if run.settings.pretty then j.pretty else j.compact) ++ ['\n'])

end Run

/-! ## Reading and writing documents -/

/-- Something asked of the host that may fail. -/
def attempt {α ε : Type} (fault : FileFault → ε) (action : m (Except FileFault α)) :
    ExceptT ε m α :=
  ExceptT.mk (do return (← action).mapError fault)

def Input.read : Input → ExceptT JobFault m Text
  | .stdin => attempt .takeInput Host.takeInput
  | .file path => attempt (.readFile path) (Host.readFile path)

/-- Writes a document to a file, with the directories above it, or prints it. -/
def writeDocument (output : Option FilePath) (s : Text) : ExceptT JobFault m Unit :=
  match output with
  | none => ExceptT.lift (Host.print s)
  | some path => do
    match path.parent? with
    | some (c :: above) =>
      attempt (.makeDirectories (c :: above)) (Host.makeDirectories (c :: above))
    | _ => pure ()
    attempt (.writeFile path) (Host.writeFile path s)

/-! ## Jobs -/

/-- Selects in the input of a job. The document is written only where an output is given. -/
def selectJob (run : Run) (q : Query) (job : Job) : ExceptT JobFault m (List Match) := do
  let s ← job.input.read
  let d ← ExceptT.mk (pure ((Document.parse s).mapError .document))
  let (d', found) := d.select q
  ExceptT.lift (run.tellDetails (d.selectLog q))
  if job.output.isSome then writeDocument job.output d'.source
  pure found

/--
Transforms the input of a job. The document is written only if that succeeded; without an output it
is printed, unless a report is.
-/
def transformJob (run : Run) (selector : Text) (r : Request) (report : Bool) (job : Job) :
    ExceptT JobFault m Outcome := do
  let s ← job.input.read
  let outcome := transformMatching s selector r
  ExceptT.lift (run.tellDetails (transformMatchingLog s selector r))
  if outcome.success ∧ (job.output.isSome ∨ ¬ report) then
    writeDocument job.output outcome.modified
  pure outcome

/-- Shrinks the input of a job and writes or prints it. -/
def optimizeJob (run : Run) (job : Job) : ExceptT JobFault m Shrink.Report := do
  let s ← job.input.read
  let report := Shrink.optimize run.settings.shrinking s
  ExceptT.lift (run.tellDetails (Shrink.optimizeLog run.settings.shrinking s))
  writeDocument job.output report.document
  pure report

/-- Does jobs in order; each gives its result or why it failed. -/
def runJobs {α : Type} (work : Job → ExceptT JobFault m α) (jobs : List Job) :
    m (List (Job × Except JobFault α)) :=
  jobs.mapM fun job => do return (job, ← (work job).run)

/-- Tells that an input failed. -/
def Run.tellFailed (run : Run) (input : Input) (reason : String) : m Unit :=
  run.tell ⟨"error", input.text.string ++ ": " ++ reason⟩

/-- Tells the jobs that failed and gives the results of the others. -/
def Run.succeeded {α : Type} (run : Run) :
    List (Job × Except JobFault α) → m (List (Job × α))
  | [] => pure []
  | (job, .ok result) :: rest => do return (job, result) :: (← run.succeeded rest)
  | (job, .error fault) :: rest => do
    run.tellFailed job.input fault.line
    run.succeeded rest

/-! ## Commands -/

/-- The jobs that a command line asks for. -/
def Arguments.jobs (args : Arguments) : Except PlanFault (List Job) := do
  planJobs (← collectInputs args.paths) args.output

/-- A step of a plan. -/
def planned {α : Type} (result : Except PlanFault α) : ExceptT CommandFault m α :=
  ExceptT.mk (pure (result.mapError .plan))

/-- Fails if inputs did. -/
def finish (failed total : Nat) : ExceptT CommandFault m Unit :=
  if failed = 0 then pure () else throw (.inputs failed total)

/-- The result of a single input, or of each input with its path. -/
def printResults {α : Type} (run : Run) (single : α → Json) (member : α → List (Text × Json))
    (jobs : List Job) (results : List (Job × α)) : m Unit :=
  if jobs.length = 1 then
    match results with
    | (_, result) :: _ => run.printJson (single result)
    | [] => pure ()
  else
    run.printJson (.array (results.map fun (job, result) =>
      .object (("path".toList, .string job.input.text) :: member result)))

def runSelect (run : Run) (args : Arguments) (selector : Text) : ExceptT CommandFault m Unit := do
  let jobs ← planned args.jobs
  let results ← runJobs (m := m) (selectJob run (Query.parse selector)) jobs
  let done ← run.succeeded (m := m) results
  let count := done.foldl (fun n (_, found) => n + found.length) 0
  ExceptT.lift (run.tell ⟨"select", "`" ++ selector.string ++ "` matched "
    ++ counted count "element" ++ " in " ++ counted done.length "document"⟩)
  let json (found : List Match) : Json := .array (found.map Match.json)
  ExceptT.lift (printResults run json (fun found => [("elements".toList, json found)]) jobs done)
  finish (jobs.length - done.length) jobs.length

/-- The text of a request. -/
def RequestSource.read : RequestSource → ExceptT CommandFault m Text
  | .text s => pure s
  | .file path => attempt (.readRequest path) (Host.readFile path)

def runTransform (run : Run) (args : Arguments) (selector : Text) (source : RequestSource)
    (report : Bool) : ExceptT CommandFault m Unit := do
  let r ← ExceptT.mk (pure ((Request.parse (← source.read)).mapError .request))
  ExceptT.lift ((r.ignoredLog "warning").forM run.tell)
  let jobs ← planned args.jobs
  if ¬ report then planned (requireOutputs "transform" jobs)
  let results ← runJobs (m := m) (transformJob run selector r report) jobs
  let done ← run.succeeded (m := m) results
  ExceptT.lift (done.forM fun (job, outcome) =>
    match outcome.failure with
    | some reason => run.tellFailed job.input reason
    | none => pure ())
  let transformed := done.filter (·.2.success)
  let count := transformed.foldl (fun n (_, outcome) => n + outcome.matched) 0
  ExceptT.lift (run.tell ⟨"transform", "transformed " ++ counted count "element" ++ " in "
    ++ counted transformed.length "document"⟩)
  if report then ExceptT.lift (printResults run Outcome.json Outcome.members jobs done)
  finish (jobs.length - transformed.length) jobs.length

/-- What is told about a shrunken input. -/
def shrunkenLine (input : Input) (report : Shrink.Report) : LogLine :=
  ⟨"optimize", input.text.string ++ ": " ++ byteSize report.sizeBefore ++ " -> "
    ++ byteSize report.sizeAfter ++ " (" ++ report.percentage.plain.string ++ "% smaller, "
    ++ report.level.name ++ ")"⟩

def runOptimize (run : Run) (args : Arguments) : ExceptT CommandFault m Unit := do
  let jobs ← planned args.jobs
  planned (requireOutputs "optimize" jobs)
  let results ← runJobs (m := m) (optimizeJob run) jobs
  let done ← run.succeeded (m := m) results
  ExceptT.lift (done.forM fun (job, report) => run.tell (shrunkenLine job.input report))
  if 1 < done.length then
    let saved := done.foldl (fun n (_, report) => n + report.saved) 0
    ExceptT.lift (run.tell ⟨"optimize", s!"saved {saved} bytes in total"⟩)
  finish (jobs.length - done.length) jobs.length

/-! ## Settings -/

/--
Where the settings are read from: an absolute path if something is there, else the file at that path
from the working directory or from the nearest directory above it.
-/
def findConfig (config : FilePath) : m (Option FilePath) := do
  if config.isAbsolute then return if ← Host.isThere config then some config else none
  let places := (← Host.workingDirectory).ancestors
  (places.map (FilePath.join · config)).findM? Host.isFile

/-- The settings in a file; keys without meaning are told. -/
def readSettings (colored : Bool) (path : FilePath) : ExceptT CommandFault m Settings := do
  let s ← attempt (fun fault => .settings path (.unreadable path fault)) (Host.readFile path)
  match Toml.read? s with
  | none => throw (.settings path .malformed)
  | some file =>
    match Settings.ofEntries? file with
    | none => throw (.settings path .malformed)
    | some settings =>
      let unknown := Settings.unknownKeys file
      if unknown ≠ [] then ExceptT.lift do
        let line : LogLine := ⟨"warning", "unknown fields in " ++ path.string ++ ", ignoring:"⟩
        Host.tell (m := m) (line.text colored)
        unknown.forM fun key => Host.tell ("- " ++ key.string)
      pure settings

/-- Settings with what a command line asks for instead. -/
def Settings.withArguments (s : Settings) (args : Arguments) : Settings :=
  let shrinking : Shrink.Options :=
    match args.command with
    | .optimize level precision =>
      ⟨level.getD s.shrinking.level, precision.or s.shrinking.precision⟩
    | _ => s.shrinking
  ⟨s.verbose || args.verbose, shrinking, s.pretty || args.pretty⟩

/-- Whether lines have colours. -/
def ColorChoice.isOn : ColorChoice → m Bool
  | .always => pure true
  | .never => pure false
  | .auto => Host.showsColor

/-- Does what a command line asks for. -/
def runArguments (args : Arguments) : ExceptT CommandFault m Unit := do
  let colored ← ExceptT.lift args.color.isOn
  let place ← ExceptT.lift (findConfig args.config)
  let settings : Settings ←
    match place with
    | some path => readSettings colored path
    | none => pure {}
  let run : Run := ⟨colored, settings.withArguments args⟩
  ExceptT.lift (run.tellDetails (place.toList.map fun path => ⟨"config", "loaded " ++ path.string⟩))
  match args.command with
  | .select selector => runSelect run args selector
  | .transform selector request report => runTransform run args selector request report
  | .optimize .. => runOptimize run args

end SvgEdit
