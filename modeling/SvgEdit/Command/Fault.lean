import SvgEdit.Files.System
import SvgEdit.Jobs
import SvgEdit.Json.Reading
import SvgEdit.Markup.Fault

/-!
# Why commands fail

A job fails when its document cannot be read, understood or written; a command fails when it cannot
begin, or when jobs failed. What is said about a fault begins with the fault itself and goes on to
the causes behind it.
-/
namespace SvgEdit

/-- Why a job failed. -/
inductive JobFault
  | takeInput (fault : FileFault)
  | readFile (path : FilePath) (fault : FileFault)
  | makeDirectories (path : FilePath) (fault : FileFault)
  | writeFile (path : FilePath) (fault : FileFault)
  | document (fault : DocumentFault)
deriving DecidableEq, Repr

/-- What is said about a path. -/
def aboutPath (what : String) (path : FilePath) : String := what ++ " `" ++ path.string ++ "`"

/-- What is said about a fault and the causes behind it. -/
def JobFault.messages : JobFault → List String
  | takeInput fault => ["Failed to read stdin", fault.message]
  | readFile path fault => [aboutPath "Failed to read" path, fault.message]
  | makeDirectories path fault => [aboutPath "Failed to create" path, fault.message]
  | writeFile path fault => [aboutPath "Failed to write" path, fault.message]
  | document fault => "Failed to parse document" :: fault.message :: fault.causes

/-- What is said about a fault in one line. -/
def JobFault.line (fault : JobFault) : String := ": ".intercalate fault.messages

/-- Why settings cannot be read from a file. -/
inductive SettingsFault
  | unreadable (path : FilePath) (fault : FileFault)
  | malformed
deriving DecidableEq, Repr

/-- Why a command failed. -/
inductive CommandFault
  | plan (fault : PlanFault)
  | settings (path : FilePath) (fault : SettingsFault)
  | readRequest (path : FilePath) (fault : FileFault)
  | request (fault : Json.Fault)
  | inputs (failed total : Nat)
deriving DecidableEq, Repr

/-- A cause behind a fault: something said, or a text that cannot be read. -/
inductive Cause
  | message (s : String)
  | json (fault : Json.Fault)
  | toml
deriving DecidableEq, Repr

def Cause.text : Cause → String
  | message s => s
  | json (.text .malformed) => "malformed JSON"
  | json (.text .unfinished) => "unfinished JSON"
  | json (.shape fault) => fault.message
  | toml => "malformed TOML"

/-- What is said about a fault and the causes behind it. -/
def CommandFault.causes : CommandFault → List Cause
  | plan fault => [.message fault.message]
  | settings path (.unreadable file fault) =>
    [.message (aboutPath "Failed to load config" path),
      .message (aboutPath "IO error when reading" file), .message fault.message]
  | settings path .malformed =>
    [.message (aboutPath "Failed to load config" path), .message "Config file parsing error", .toml]
  | readRequest path fault =>
    [.message (aboutPath "Failed to read" path), .message fault.message]
  | request fault => [.message "Invalid transform request", .json fault]
  | inputs failed total => [.message (failureMessage failed total)]

end SvgEdit
