import SvgEdit.Files.System

/-!
# What commands ask of their surroundings

A host reads and writes files, takes standard input, prints, and tells lines to who watches.
Commands run on any host. A `World` is one that is all data: its files, its working directory, what
is left of standard input, and what was printed and told.
-/
namespace SvgEdit

/-- What a command asks of its surroundings. -/
class Host (m : Type → Type) where
  /-- All that is left of standard input. -/
  takeInput : m (Except FileFault Text)
  readFile : FilePath → m (Except FileFault Text)
  writeFile : FilePath → Text → m (Except FileFault Unit)
  /-- Makes a directory and those above it. -/
  makeDirectories : FilePath → m (Except FileFault Unit)
  isFile : FilePath → m Bool
  isThere : FilePath → m Bool
  workingDirectory : m FilePath
  /-- Whether lines that are told may have colours of their own accord. -/
  showsColor : m Bool
  print : Text → m Unit
  /-- Shows a line apart from what is printed. -/
  tell : String → m Unit

/-- A host that is all data. -/
structure World where
  files : FileSystem
  working : Location := []
  /-- Standard input; there is none if its bytes are no text. -/
  input : Option Text := some []
  printed : Text := []
  told : List String := []
deriving DecidableEq, Repr

namespace World

def takeInput (w : World) : Except FileFault Text × World :=
  (w.input.elim (.error .notText) .ok, { w with input := some [] })

def writeFile (w : World) (p : FilePath) (s : Text) : Except FileFault Unit × World :=
  match w.files.write w.working p s with
  | .ok files => (.ok (), { w with files })
  | .error fault => (.error fault, w)

def makeDirectories (w : World) (p : FilePath) : Except FileFault Unit × World :=
  let (files, result) := w.files.makeDirectories w.working p
  (result, { w with files })

/-- The absolute path of a location. -/
def pathOf (l : Location) : FilePath :=
  if l = [] then ['/'] else l.flatMap ('/' :: ·)

instance : Host (StateM World) where
  takeInput w := w.takeInput
  readFile p w := (w.files.read w.working p, w)
  writeFile p s w := w.writeFile p s
  makeDirectories p w := w.makeDirectories p
  isFile p w := (w.files.isFile w.working p, w)
  isThere p w := (w.files.isThere w.working p, w)
  workingDirectory w := (pathOf w.working, w)
  showsColor w := (false, w)
  print s w := ((), { w with printed := w.printed ++ s })
  tell line w := ((), { w with told := w.told ++ [line] })

end World
end SvgEdit
