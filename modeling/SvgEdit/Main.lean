import SvgEdit.Command.Run

/-!
# The program

The surroundings of a process are a host, and the words after the program's name are its command
line. The exit code is 0 if all was done, 1 if something failed, and 2 if the command line was
refused.
-/
namespace SvgEdit

/-- What kept an operation on files from being done. -/
def faultOf : IO.Error → FileFault
  | .noFileOrDirectory .. => .notFound
  | .alreadyExists .. => .exists_
  | .inappropriateType _ 20 _ => .notDirectory
  | .inappropriateType _ 21 _ => .isDirectory
  | e => .other (toString e)

/-- The result of an operation on files, or why it could not be done. -/
def caught {α : Type} (action : IO α) : IO (Except FileFault α) := do
  try
    return .ok (← action)
  catch e => return .error (faultOf e)

/-- The text that bytes encode. -/
def decoded (result : Except FileFault ByteArray) : Except FileFault Text := do
  match String.fromUTF8? (← result) with
  | some s => .ok s.toList
  | none => .error .notText

instance : Host IO where
  takeInput := do return decoded (← caught (do (← IO.getStdin).readBinToEnd))
  readFile p := do return decoded (← caught (IO.FS.readBinFile p.string))
  writeFile p s := caught (IO.FS.writeFile p.string s.string)
  makeDirectories p := caught (IO.FS.createDirAll p.string)
  isFile p := do
    match ← caught ((← IO.currentDir) / p.string).metadata with
    | .ok data => return data.type == .file
    | .error _ => return false
  isThere p := do return (← caught ((← IO.currentDir) / p.string).metadata).toBool
  workingDirectory := do return (← IO.currentDir).toString.toList
  showsColor := do (← IO.getStderr).isTty
  print s := do
    IO.print s.string
    (← IO.getStdout).flush
  tell line := IO.eprintln line

/-- How the program is used. -/
def usage : String :=
  "Usage: svgsel [OPTIONS] <select|transform|optimize> [OPTIONS] [ARGS]"

/-- What is said about a command line that was refused. -/
def Refusal.message : Refusal → String
  | helpWanted | versionWanted | nothingGiven => ""
  | noCommand => "a command is missing"
  | unknownCommand => "there is no such command"
  | missingArgument => "a required argument is missing"
  | conflict => "arguments cannot be used together"
  | badValue => "a value is missing or not allowed"
  | badNumber => "a value is no number in range"
  | unknownOption => "there is no such option"
  | unwantedValue => "an option takes no value"

/-- Tells why a command line was refused; gives the exit code. -/
def refuse : Refusal → IO UInt32
  | .helpWanted => do IO.println usage; return 0
  | .versionWanted => do IO.println "svgsel 0.1.0"; return 0
  | .nothingGiven => do IO.eprintln usage; return 2
  | refusal => do IO.eprintln ("error: " ++ refusal.message ++ "\n\n" ++ usage); return 2

/-- Tells why a command failed. -/
def tellFault (fault : CommandFault) : IO Unit :=
  match fault.causes.map Cause.text with
  | [] => pure ()
  | first :: rest => do
    IO.eprintln ("Error: " ++ first)
    unless rest.isEmpty do IO.eprintln "\nCaused by:"
    for cause in rest do IO.eprintln ("    " ++ cause)

/-- Runs the program with the words after its name. -/
def runProgram (words : List String) : IO UInt32 := do
  match Arguments.parse (words.map String.toList) with
  | .error refusal => refuse refusal
  | .ok args =>
    match ← (runArguments (m := IO) args).run with
    | .ok () => return 0
    | .error fault =>
      tellFault fault
      return 1

end SvgEdit

def main (words : List String) : IO UInt32 := SvgEdit.runProgram words
