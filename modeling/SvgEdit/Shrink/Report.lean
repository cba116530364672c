import SvgEdit.Log
import SvgEdit.Shrink.Blanks
import SvgEdit.Shrink.Decimals
import SvgEdit.Shrink.Groups
import SvgEdit.Shrink.Level
import SvgEdit.Shrink.Styles

/-!
# Shrinking by levels

A level is a sequence of passes over the text of a document; nothing is parsed, so any text will do.
A report holds the text that comes out, the sizes before and after in bytes, and what was saved.
-/
namespace SvgEdit
namespace Shrink

inductive Pass
  | comments
  | metadata
  | emptyAttributes
  | editorNamespaces
  | emptyGroups
  | styles
  | decimals
  | blanks
deriving DecidableEq, Repr

/-- The passes of a level, in order. -/
def Level.passes : Level → List Pass
  | light => [.comments, .metadata, .emptyAttributes, .editorNamespaces, .blanks]
  | standard =>
    [.comments, .metadata, .emptyAttributes, .editorNamespaces, .emptyGroups, .decimals, .blanks]
  | aggressive =>
    [.comments, .metadata, .emptyAttributes, .editorNamespaces, .emptyGroups, .styles, .decimals,
      .blanks]

namespace Pass

def name : Pass → String
  | comments => "comments"
  | metadata => "metadata"
  | emptyAttributes => "empty-attributes"
  | editorNamespaces => "editor-namespaces"
  | emptyGroups => "empty-groups"
  | styles => "styles"
  | decimals => "decimals"
  | blanks => "whitespace"

def run (precision : Option Nat) : Pass → Text → Text
  | comments => removeComments
  | metadata => removeMetadata
  | emptyAttributes => removeEmptyAttributes
  | editorNamespaces => removeEditorNamespaces
  | emptyGroups => collapseGroups
  | styles => liftStyles
  | decimals => fun s => precision.elim s (shortenDecimals · s)
  | blanks => removeBlanks

end Pass

/-- A level, and a count of places that goes before the level's own. -/
structure Options where
  level : Level := .standard
  precision : Option Nat := none
deriving DecidableEq, Repr

def Options.places (o : Options) : Option Nat := o.precision.or o.level.defaultPrecision

/-- The text after all passes of a level. -/
def shrink (o : Options) (s : Text) : Text :=
  o.level.passes.foldl (fun s pass => pass.run o.places s) s

/-! ## Reports -/

/-- What shrinking did. -/
structure Report where
  document : Text
  sizeBefore : Nat
  level : Level
deriving DecidableEq, Repr

namespace Report

def sizeAfter (r : Report) : Nat := Text.size r.document

/-- The bytes saved; below zero if the text grew. -/
def saved (r : Report) : Int := r.sizeBefore - r.sizeAfter

/-- The percentage saved, rounded to two places; zero for an empty text. -/
def percentage (r : Report) : Binary64 :=
  if r.sizeBefore = 0 then .zero
  else
    let percent := ((Binary64.ofInt r.saved).div (.ofNat r.sizeBefore)).mul (.ofNat 100)
    (percent.mul (.ofNat 100)).roundHalfAway.div (.ofNat 100)

def json (r : Report) : Json :=
  .object [("document".toList, .string r.document),
    ("stats".toList, .object [
      ("originalSizeBytes".toList, .ofNat r.sizeBefore),
      ("optimizedSizeBytes".toList, .ofNat r.sizeAfter),
      ("bytesSaved".toList, .ofInt r.saved),
      ("percentageReduction".toList, .number (.float r.percentage)),
      ("level".toList, .string r.level.name.toList)])]

end Report

/-- Shrinks a text and tells what was saved. -/
def optimize (o : Options) (s : Text) : Report := ⟨shrink o s, Text.size s, o.level⟩

/-! ## Log -/

/-- What is logged about one pass over a text. -/
def passLog (o : Options) (s : Text) (pass : Pass) : LogLine :=
  let name := pass.name.toList ++ List.replicate (18 - pass.name.length) ' '
  ⟨"optimize",
    String.ofList name ++ s!" {Text.size s} -> {Text.size (pass.run o.places s)} bytes"⟩

/-- What is logged while a text goes through passes. -/
def passesLog (o : Options) (s : Text) : List Pass → List LogLine
  | [] => []
  | pass :: passes => passLog o s pass :: passesLog o (pass.run o.places s) passes

/-- What is logged while a text is shrunk. -/
def optimizeLog (o : Options) (s : Text) : List LogLine := passesLog o s o.level.passes

end Shrink
end SvgEdit
