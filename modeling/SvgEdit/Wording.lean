import SvgEdit.Number.Notation

/-!
# Counts and sizes in words

Counts are told with a noun, sizes in the greatest unit that they reach.
-/
namespace SvgEdit

/-- A count and its noun, which gets an s unless there is one of it. -/
def counted (n : Nat) (noun : String) : String :=
  s!"{n} {noun}" ++ if n = 1 then "" else "s"

/-- A size in `unit`, or in the first of the greater units in which it is below 1024. -/
def sizeIn (size : Binary64) (unit : String) : (greater : List String) → String
  | [] => String.ofList (size.fixed 1) ++ " " ++ unit
  | next :: greater =>
    if size.magnitudeLt (.ofNat 1024) then String.ofList (size.fixed 1) ++ " " ++ unit
    else sizeIn (size.div (.ofNat 1024)) next greater

/-- A size in bytes; from 1024 on with one place in a greater unit. -/
def byteSize (bytes : Nat) : String :=
  if bytes < 1024 then s!"{bytes} B"
  else sizeIn ((Binary64.ofNat bytes).div (.ofNat 1024)) "KiB" ["MiB", "GiB"]

end SvgEdit
