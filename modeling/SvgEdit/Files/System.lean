import SvgEdit.Files.Path

/-!
# File systems

A file system says what stands at each location, a location being the names that lead there from the
root. There are no links. A path is walked part by part; every part before the last has to lead to a
directory. The operations tell why they cannot be done.
-/
namespace SvgEdit

/-- Why an operation on files cannot be done. -/
inductive FileFault
  | notFound
  | exists_
  | notDirectory
  | isDirectory
  /-- The bytes are no text. -/
  | notText
  | other (message : String)
deriving DecidableEq, Repr

def FileFault.message : FileFault → String
  | notFound => "No such file or directory (os error 2)"
  | exists_ => "File exists (os error 17)"
  | notDirectory => "Not a directory (os error 20)"
  | isDirectory => "Is a directory (os error 21)"
  | notText => "stream did not contain valid UTF-8"
  | other message => message

/-- The names that lead from the root to a place. -/
abbrev Location := List Text

/-- What stands at a location. -/
inductive FileNode
  | directory
  /-- A file with its text; there is none if its bytes are no text. -/
  | file (content : Option Text)
deriving DecidableEq, Repr

/-- What stands where, the last change first. The root is always a directory. -/
structure FileSystem where
  nodes : List (Location × FileNode) := []
deriving DecidableEq, Repr

namespace FileSystem

def get? (fs : FileSystem) (l : Location) : Option FileNode :=
  if l = [] then some .directory else fs.nodes.lookup l

/-- The file system with a node at a location. -/
def put (fs : FileSystem) (l : Location) (node : FileNode) : FileSystem := ⟨(l, node) :: fs.nodes⟩

theorem get?_put (fs : FileSystem) (l m : Location) (node : FileNode) (below : l ≠ []) :
    (fs.put l node).get? m = if m = l then some node else fs.get? m := by
  by_cases same : m = l
  · subst same
    simp [get?, put, below]
  · simp [get?, put, same, List.lookup_cons, beq_false_of_ne same]

/-! ## Walking -/

/-- Takes one step of a path. -/
def step (fs : FileSystem) (here : Location) (part : Text) : Except FileFault Location :=
  match fs.get? here with
  | none => .error .notFound
  | some (.file _) => .error .notDirectory
  | some .directory =>
    if FilePath.isIdle part then .ok here
    else if part = FilePath.above then .ok here.dropLast
    else .ok (here ++ [part])

/-- Where a path starts: at the root, or in the working directory. -/
def start (working : Location) (p : FilePath) : Location := if p.isAbsolute then [] else working

/-- The location that a path leads to; nothing need stand there. -/
def locate (fs : FileSystem) (working : Location) (p : FilePath) : Except FileFault Location :=
  if p = [] then .error .notFound else p.parts.foldlM fs.step (start working p)

/-- What stands where a path leads. -/
def node (fs : FileSystem) (working : Location) (p : FilePath) : Except FileFault FileNode := do
  match fs.get? (← fs.locate working p) with
  | some node => .ok node
  | none => .error .notFound

/-- Whether a part is the name of something below the directory where it is looked for. -/
def isName (part : Text) : Bool := !FilePath.isIdle part && part ≠ FilePath.above

/-- The directory that a path without its last part leads to, and that part without its slashes. -/
def locateLast (fs : FileSystem) (working : Location) (p : FilePath) :
    Except FileFault (Location × Text) := do
  if p = [] then .error .notFound
  let parts := FilePath.parts (Text.dropWhileEnd (· = '/') p)
  let directory ← parts.dropLast.foldlM fs.step (start working p)
  match fs.get? directory with
  | none => .error .notFound
  | some (.file _) => .error .notDirectory
  | some .directory => .ok (directory, parts.getLastD [])

/-! ## Operations -/

def isFile (fs : FileSystem) (working : Location) (p : FilePath) : Bool :=
  match fs.node working p with
  | .ok (.file _) => true
  | _ => false

def isDirectory (fs : FileSystem) (working : Location) (p : FilePath) : Bool :=
  match fs.node working p with
  | .ok .directory => true
  | _ => false

def isThere (fs : FileSystem) (working : Location) (p : FilePath) : Bool :=
  (fs.node working p).toBool

/-- The text of a file. -/
def read (fs : FileSystem) (working : Location) (p : FilePath) : Except FileFault Text := do
  match ← fs.node working p with
  | .directory => .error .isDirectory
  | .file none => .error .notText
  | .file (some content) => .ok content

/-- Writes a file, which is made if it is not there. A path with a slash at its end is no file's. -/
def write (fs : FileSystem) (working : Location) (p : FilePath) (content : Text) :
    Except FileFault FileSystem := do
  let (directory, last) ← fs.locateLast working p
  if p.getLast? = some '/' ∨ ¬ isName last then .error .isDirectory
  let location := directory ++ [last]
  if fs.get? location = some .directory then .error .isDirectory
  .ok (fs.put location (.file (some content)))

/-- Makes a directory. -/
def makeDirectory (fs : FileSystem) (working : Location) (p : FilePath) :
    Except FileFault FileSystem := do
  let (directory, last) ← fs.locateLast working p
  let location := directory ++ [last]
  if ¬ isName last ∨ (fs.get? location).isSome then .error .exists_
  .ok (fs.put location .directory)

/--
Makes a directory and those above it that are not there. The ones above are made first when they are
found missing; a directory that is there already is as good as one made.
-/
def makeDirectories (fs : FileSystem) (working : Location) (p : FilePath) :
    FileSystem × Except FileFault Unit :=
  if p = [] then (fs, .ok ())
  else
    match fs.makeDirectory working p with
    | .ok fs => (fs, .ok ())
    | .error .notFound =>
      match FilePath.parent? p with
      | none => (fs, .error (.other "failed to create whole tree"))
      | some above =>
        if above.length < p.length then
          match makeDirectories fs working above with
          | (fs, .error fault) => (fs, .error fault)
          | (fs, .ok ()) =>
            match fs.makeDirectory working p with
            | .ok fs => (fs, .ok ())
            | .error fault =>
              (fs, if fs.isDirectory working p then .ok () else .error fault)
        else (fs, .error .notFound)
    | .error fault => (fs, if fs.isDirectory working p then .ok () else .error fault)
termination_by p.length

end FileSystem
end SvgEdit
