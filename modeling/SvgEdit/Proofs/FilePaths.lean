import SvgEdit.Proofs.Splitting
import SvgEdit.Files.System
import Mathlib.Data.List.TakeWhile

/-!
# Parts of paths

A path is known by its parts. What is put into a directory has the parts of the directory and its own
name, and the path above it is the same for all names.
-/
namespace SvgEdit

namespace FilePath

/-! ## Parts -/

theorem isAbsolute_iff (p : FilePath) : p.isAbsolute = true ↔ ∃ second more, p.parts = [] :: second :: more := by
  cases p with
  | nil => simp [isAbsolute, parts, Text.splitOn]
  | cons c s =>
    obtain ⟨second, more, same⟩ := List.exists_cons_of_ne_nil (Text.splitOn_ne_nil '/' s)
    by_cases slash : c = '/'
    · simp [isAbsolute, parts, Text.splitOn, slash, same]
    · simp [isAbsolute, parts, Text.splitOn, slash, same]

theorem notMem_of_mem_parts {p : FilePath} {part : Text} (listed : part ∈ p.parts) : '/' ∉ part :=
  Text.notMem_of_mem_splitOn listed

theorem dropIdleEnd_prefix_self (parts : List Text) : dropIdleEnd parts <+: parts := by
  rw [dropIdleEnd, ← List.reverse_suffix, List.reverse_reverse]
  exact List.dropWhile_suffix _

/-- Idle parts at the end are dropped, up to a part that is not idle. -/
theorem dropIdleEnd_append {front idle : List Text} {name : Text} (notIdle : isIdle name = false)
    (idles : ∀ part ∈ idle, isIdle part = true) : dropIdleEnd (front ++ name :: idle) = front ++ [name] := by
  have kept : (name :: front.reverse).dropWhile isIdle = name :: front.reverse :=
    List.dropWhile_cons_of_neg (by simp [notIdle])
  rw [dropIdleEnd, List.reverse_append, List.reverse_cons, List.append_assoc, List.singleton_append,
    List.dropWhile_append_of_pos (fun part member => idles part (List.mem_reverse.mp member)), kept, List.reverse_cons,
    List.reverse_reverse]

/-- The path with the parts that are given, without idle ones at its end. -/
def enclosing : List Text → FilePath
  | [] => []
  | first :: rest =>
    let kept := dropIdleEnd rest
    if first = [] ∧ kept = [] then ['/'] else Text.joinWith ['/'] (first :: kept)

/-- The path above is that of the parts before the last one that is not idle. -/
theorem parent?_eq_enclosing {p : FilePath} {front idle : List Text} {name : Text} (split : p.parts = front ++ name :: idle)
    (notIdle : isIdle name = false) (idles : ∀ part ∈ idle, isIdle part = true) : p.parent? = some (enclosing front) := by
  rw [parent?, split]
  cases front with
  | nil =>
    have none : dropIdleEnd idle = [] := by
      rw [dropIdleEnd, List.dropWhile_eq_nil_iff.mpr fun part member => idles part (List.mem_reverse.mp member)]
      rfl
    have named : name ≠ [] := by
      rintro rfl
      cases notIdle
    simp only [List.nil_append, none, if_neg named]
    rfl
  | cons first rest =>
    obtain ⟨second, more, same⟩ : ∃ second more, rest ++ [name] = second :: more :=
      List.exists_cons_of_ne_nil (by simp)
    have dropped : (second :: more).dropLast = rest := by rw [← same, List.dropLast_concat]
    simp only [List.cons_append, dropIdleEnd_append notIdle idles, same, dropped, enclosing]
    split <;> rfl

/-- What stands above a path is a path of some of its first parts. -/
theorem exists_enclosing_of_parent? {p above : FilePath} (stands : p.parent? = some above) :
    ∃ front more, p.parts = front ++ more ∧ above = enclosing front := by
  rw [parent?] at stands
  split at stands
  · cases stands
  · next first rest same =>
    split at stands
    · split at stands
      · cases stands
      · obtain rfl := Option.some.inj stands
        exact ⟨[], p.parts, rfl, rfl⟩
    · obtain ⟨more, whole⟩ := (List.dropLast_prefix (dropIdleEnd rest)).trans (dropIdleEnd_prefix_self rest)
      refine ⟨first :: (dropIdleEnd rest).dropLast, more, by rw [same, List.cons_append, whole], ?_⟩
      rw [← Option.some.injEq, ← stands, enclosing, apply_ite some]

/-- Unless it is the root, the path of some parts has these parts, without idle ones at the end. -/
theorem parts_enclosing {first : Text} {rest : List Text} (whole : ∀ part ∈ first :: rest, '/' ∉ part) :
    enclosing (first :: rest) = ['/'] ∨
      (enclosing (first :: rest)).parts = first :: dropIdleEnd rest ∧ (first = [] → dropIdleEnd rest ≠ []) := by
  have starts : first :: dropIdleEnd rest <+: first :: rest := List.prefix_cons_inj first |>.mpr (dropIdleEnd_prefix_self rest)
  by_cases root : first = [] ∧ dropIdleEnd rest = []
  · exact .inl (if_pos root)
  · refine .inr ⟨?_, not_and.mp root⟩
    rw [enclosing, if_neg root, parts, Text.splitOn_joinWith (List.cons_ne_nil _ _) fun part member =>
      whole part (starts.subset member)]

/-! ## Names -/

/-- A part that names something in a directory. -/
structure IsName (name : Text) : Prop where
  notIdle : isIdle name = false
  notAbove : name ≠ above
  whole : '/' ∉ name

theorem isName_of_fileName? {p : FilePath} {name : Text} (named : p.fileName? = some name) :
    IsName name ∧ (p.parts.filter (!isIdle ·)).getLast? = some name := by
  rw [fileName?] at named
  split at named
  · next last ends =>
    split at named
    · cases named
    · next notAbove =>
      obtain rfl := Option.some.inj named
      obtain ⟨listed, notIdle⟩ := List.mem_filter.mp (List.mem_of_getLast? ends)
      exact ⟨⟨by simpa using notIdle, notAbove, notMem_of_mem_parts listed⟩, ends⟩
  · cases named

/-- The parts of a path that something is put into. -/
def directoryParts (directory : FilePath) : List Text :=
  if directory = [] then []
  else if directory.getLast? = some '/' then parts directory.dropLast else directory.parts

theorem IsName.isAbsolute {name : Text} (h : IsName name) : isAbsolute name = false := by
  cases name with
  | nil => rfl
  | cons c name =>
    have ne : c ≠ '/' := fun same => h.whole (same ▸ List.mem_cons_self)
    simp [FilePath.isAbsolute, ne]

theorem parts_join {name : Text} (h : IsName name) (directory : FilePath) :
    (directory.join name).parts = directory.directoryParts ++ [name] := by
  have single : Text.splitOn '/' name = [name] := Text.splitOn_of_notMem h.whole
  rw [join, directoryParts, h.isAbsolute]
  by_cases empty : directory = []
  · simp [empty, parts, single]
  · by_cases slash : directory.getLast? = some '/'
    · obtain ⟨front, rfl⟩ := List.getLast?_eq_some_iff.mp slash
      have split := Text.splitOn_append_mark '/' front name
      simp [parts, split, single]
    · have split := Text.splitOn_append_mark '/' directory name
      simp [empty, slash, parts, split, single]

theorem isAbsolute_join {name : Text} (h : IsName name) (directory : FilePath) :
    (directory.join name).isAbsolute = directory.isAbsolute := by
  rw [join]
  cases directory with
  | nil =>
    rw [if_pos (.inr rfl), h.isAbsolute]
    rfl
  | cons c directory =>
    rw [h.isAbsolute]
    by_cases slash : (c :: directory).getLast? = some '/'
    · simp [slash, isAbsolute]
    · simp [slash, isAbsolute]

end FilePath
end SvgEdit
