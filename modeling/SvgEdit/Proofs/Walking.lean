import SvgEdit.Proofs.FilePaths
import SvgEdit.Proofs.ReadAgain

/-!
# What operations on files depend on

A path is walked from directory to directory. Where it leads is decided by its parts alone, and whether it
leads there by where directories are. In a tree, what stands somewhere stands in a directory.
-/
namespace SvgEdit
namespace FileSystem

/-! ## Walking -/

/-- Where a part leads. -/
def follow (here : Location) (part : Text) : Location :=
  if FilePath.isIdle part then here else if part = FilePath.above then here.dropLast else here ++ [part]

/-- Each of the parts is taken in a directory. -/
def Walks (fs : FileSystem) : Location → List Text → Prop
  | _, [] => True
  | here, part :: parts => fs.get? here = some .directory ∧ fs.Walks (follow here part) parts

/-- Each of the parts is taken in a directory, and the last one leads to one. -/
def WalksInto (fs : FileSystem) (here : Location) (parts : List Text) : Prop :=
  fs.Walks here parts ∧ fs.get? (parts.foldl follow here) = some .directory

variable {fs fs' : FileSystem} {working : Location} {p : FilePath}

theorem step_eq_ok_iff {here l : Location} {part : Text} :
    fs.step here part = .ok l ↔ fs.get? here = some .directory ∧ follow here part = l := by
  rw [step, follow]
  cases fs.get? here with
  | none => simp
  | some node =>
    cases node with
    | file => simp
    | directory =>
      have notIdle : FilePath.isIdle FilePath.above = false := by decide
      by_cases idle : FilePath.isIdle part = true
      · simp [idle]
      · by_cases up : part = FilePath.above <;> simp [idle, up, notIdle]

theorem foldlM_step_eq_ok_iff {parts : List Text} {here l : Location} :
    parts.foldlM fs.step here = .ok l ↔ fs.Walks here parts ∧ parts.foldl follow here = l := by
  induction parts generalizing here with
  | nil => simp [Walks, pure, Except.pure]
  | cons part parts ih =>
    rw [List.foldlM_cons, Walks, List.foldl_cons]
    cases taken : fs.step here part with
    | error fault =>
      have blocked : fs.get? here ≠ some .directory := fun there => by
        rw [step_eq_ok_iff.mpr ⟨there, rfl⟩] at taken
        cases taken
      simp [bind, Except.bind, blocked]
    | ok next =>
      obtain ⟨there, rfl⟩ := step_eq_ok_iff.mp taken
      simpa [bind, Except.bind, there] using ih

theorem walks_append {here : Location} {parts more : List Text} :
    fs.Walks here (parts ++ more) ↔ fs.Walks here parts ∧ fs.Walks (parts.foldl follow here) more := by
  induction parts generalizing here with
  | nil => simp [Walks]
  | cons part parts ih => simp [Walks, ih, and_assoc]

theorem walks_concat {here : Location} {parts : List Text} {part : Text} :
    fs.Walks here (parts ++ [part]) ↔ fs.WalksInto here parts := by
  rw [walks_append, WalksInto, Walks, Walks, and_true]

/-- Walking depends on directories only. -/
theorem Walks.mono (directories : ∀ l, fs.get? l = some .directory → fs'.get? l = some .directory) {here : Location}
    {parts : List Text} (h : fs.Walks here parts) : fs'.Walks here parts := by
  induction parts generalizing here with
  | nil => trivial
  | cons part parts ih => exact ⟨directories here h.1, ih h.2⟩

theorem WalksInto.mono (directories : ∀ l, fs.get? l = some .directory → fs'.get? l = some .directory) {here : Location}
    {parts : List Text} (h : fs.WalksInto here parts) : fs'.WalksInto here parts :=
  ⟨h.1.mono directories, directories _ h.2⟩

/-- What leads to a directory leads through directories. -/
theorem WalksInto.of_front {here : Location} {parts front : List Text} (h : fs.WalksInto here parts) (starts : front <+: parts) :
    fs.WalksInto here front := by
  obtain ⟨more, rfl⟩ := starts
  cases more with
  | nil => rwa [List.append_nil] at h
  | cons part more =>
    obtain ⟨walks, there, -⟩ := walks_append.mp h.1
    exact ⟨walks, there⟩

/-! ## Operations -/

theorem locate_eq_ok_iff {l : Location} : fs.locate working p = .ok l ↔
    p ≠ [] ∧ fs.Walks (start working p) p.parts ∧ p.parts.foldl follow (start working p) = l := by
  rw [locate]
  by_cases empty : p = []
  · simp [empty]
  · rw [if_neg empty, foldlM_step_eq_ok_iff, and_iff_right empty]

theorem node_eq_ok_iff {node : FileNode} : fs.node working p = .ok node ↔ p ≠ [] ∧ fs.Walks (start working p) p.parts ∧
    fs.get? (p.parts.foldl follow (start working p)) = some node := by
  rw [FileSystem.node]
  cases located : fs.locate working p with
  | error fault =>
    have nowhere (there : p ≠ [] ∧ fs.Walks (start working p) p.parts) : False := by
      rw [locate_eq_ok_iff.mpr ⟨there.1, there.2, rfl⟩] at located
      cases located
    simp only [bind, Except.bind, reduceCtorEq, false_iff]
    exact fun there => nowhere ⟨there.1, there.2.1⟩
  | ok l =>
    obtain ⟨nonempty, walks, rfl⟩ := locate_eq_ok_iff.mp located
    simp only [bind, Except.bind]
    cases fs.get? (p.parts.foldl follow (start working p)) <;> simp [nonempty, walks]

theorem isDirectory_iff : fs.isDirectory working p = true ↔ p ≠ [] ∧ fs.WalksInto (start working p) p.parts := by
  rw [WalksInto, ← node_eq_ok_iff, isDirectory]
  cases fs.node working p with
  | error fault => simp
  | ok node => cases node <;> simp

theorem read_eq_ok_iff {content : Text} : fs.read working p = .ok content ↔ p ≠ [] ∧ fs.Walks (start working p) p.parts ∧
    fs.get? (p.parts.foldl follow (start working p)) = some (.file (some content)) := by
  rw [← node_eq_ok_iff, read]
  cases fs.node working p with
  | error fault => simp [bind, Except.bind]
  | ok node =>
    cases node with
    | directory => simp [bind, Except.bind]
    | file content => cases content <;> simp [bind, Except.bind]

/-- The parts of a path without the slashes at its end. -/
def trimmedParts (p : FilePath) : List Text := FilePath.parts (Text.dropWhileEnd (· = '/') p)

theorem locateLast_eq_ok_iff {directory : Location} {last : Text} :
    fs.locateLast working p = .ok (directory, last) ↔ p ≠ [] ∧ fs.WalksInto (start working p) (trimmedParts p).dropLast ∧
      (trimmedParts p).dropLast.foldl follow (start working p) = directory ∧ (trimmedParts p).getLastD [] = last := by
  rw [locateLast]
  by_cases empty : p = []
  · simp [empty, bind, Except.bind]
  · rw [if_neg empty, WalksInto, and_iff_right empty]
    unfold trimmedParts
    generalize FilePath.parts (Text.dropWhileEnd (· = '/') p) = parts
    cases walked : parts.dropLast.foldlM fs.step (start working p) with
    | error fault =>
      have stuck : ¬ fs.Walks (start working p) parts.dropLast := fun walks => by
        rw [foldlM_step_eq_ok_iff.mpr ⟨walks, rfl⟩] at walked
        cases walked
      simp [walked, stuck, bind, Except.bind]
    | ok l =>
      obtain ⟨walks, rfl⟩ := foldlM_step_eq_ok_iff.mp walked
      simp only [bind, Except.bind, walked, walks, true_and]
      cases fs.get? (parts.dropLast.foldl follow (start working p)) with
      | none => simp
      | some node => cases node <;> simp

/-! ## Paths that end in a name -/

/-- Slashes at the end of a path are idle parts. -/
theorem exists_parts_eq_trimmedParts (p : FilePath) : ∃ idle, p.parts = trimmedParts p ++ idle ∧
    ∀ part ∈ idle, part = [] := by
  induction p using List.reverseRecOn with
  | nil => exact ⟨[], rfl, fun _ member => absurd member List.not_mem_nil⟩
  | append_singleton p c ih =>
    by_cases slash : c = '/'
    · subst slash
      obtain ⟨idle, split, empty⟩ := ih
      have more : FilePath.parts (p ++ ['/']) = FilePath.parts p ++ [[]] := Text.splitOn_append_mark '/' p []
      have dropped : Text.dropWhileEnd (· = '/') (p ++ ['/']) = Text.dropWhileEnd (· = '/') p := by
        simp [Text.dropWhileEnd]
      refine ⟨idle ++ [[]], by rw [more, split, trimmedParts, trimmedParts, dropped, List.append_assoc], ?_⟩
      exact List.forall_mem_append.mpr ⟨empty, fun part member => List.mem_singleton.mp member⟩
    · refine ⟨[], ?_, fun _ member => absurd member List.not_mem_nil⟩
      simp [trimmedParts, Text.dropWhileEnd, slash]

theorem isName_of_isName {name : Text} (h : FilePath.IsName name) : isName name = true := by
  simp [isName, h.notIdle, h.notAbove]

theorem follow_of_isName {name : Text} (named : isName name = true) (here : Location) : follow here name = here ++ [name] := by
  obtain ⟨notIdle, notAbove⟩ : FilePath.isIdle name = false ∧ name ≠ FilePath.above := by simpa [isName] using named
  simp [follow, notIdle, notAbove]

theorem ne_nil_of_parts {front : List Text} {name : Text} (named : FilePath.IsName name) (split : p.parts = front ++ [name]) :
    p ≠ [] := by
  rintro rfl
  have parts : [] ++ [[]] = front ++ [name] := split
  have equal : [] = name := List.singleton_inj.mp (List.append_inj' parts rfl).2
  exact absurd named.notIdle (by rw [← equal]; decide)

/-- A path that ends in a name ends in no slash. -/
theorem getLast?_ne_of_parts {front : List Text} {name : Text} (named : FilePath.IsName name) (split : p.parts = front ++ [name]) :
    p.getLast? ≠ some '/' := by
  intro last
  obtain ⟨s, rfl⟩ := List.getLast?_eq_some_iff.mp last
  have more : FilePath.parts (s ++ ['/']) = FilePath.parts s ++ [[]] := Text.splitOn_append_mark '/' s []
  have equal : name = [] := List.singleton_inj.mp (List.append_inj' (split.symm.trans more) rfl).2
  exact absurd named.notIdle (by rw [equal]; decide)

theorem trimmedParts_of_parts {front : List Text} {name : Text} (named : FilePath.IsName name) (split : p.parts = front ++ [name]) :
    trimmedParts p = front ++ [name] := by
  have same : Text.dropWhileEnd (· = '/') p = p := Text.dropWhileEnd_of_last fun c last =>
    decide_eq_false fun slash => getLast?_ne_of_parts named split (slash ▸ last)
  rw [trimmedParts, same, split]

theorem locateLast_eq_ok_of_parts {front : List Text} {name : Text} (named : FilePath.IsName name)
    (split : p.parts = front ++ [name]) (place : Location × Text) : fs.locateLast working p = .ok place ↔
      fs.WalksInto (start working p) front ∧ (front.foldl follow (start working p), name) = place := by
  rw [locateLast_eq_ok_iff, trimmedParts_of_parts named split, List.dropLast_concat, List.getLastD_concat,
    and_iff_right (ne_nil_of_parts named split), Prod.ext_iff]

/-- Writing succeeds exactly if the directory is there and no directory stands in the place of the file. -/
theorem write_eq_ok_iff {front : List Text} {name content : Text} (named : FilePath.IsName name) (split : p.parts = front ++ [name]) :
    fs.write working p content = .ok fs' ↔ fs.WalksInto (start working p) front ∧
      fs.get? (front.foldl follow (start working p) ++ [name]) ≠ some .directory ∧
        fs.put (front.foldl follow (start working p) ++ [name]) (.file (some content)) = fs' := by
  have last := getLast?_ne_of_parts named split
  rw [write]
  cases located : fs.locateLast working p with
  | error fault =>
    have nowhere : ¬ fs.WalksInto (start working p) front := fun there => by
      rw [(locateLast_eq_ok_of_parts named split _).mpr ⟨there, rfl⟩] at located
      cases located
    exact iff_of_false (fun written => nomatch written) fun there => nowhere there.1
  | ok place =>
    obtain ⟨there, rfl⟩ := (locateLast_eq_ok_of_parts named split _).mp located
    by_cases taken : fs.get? (front.foldl follow (start working p) ++ [name]) = some .directory
    · simp [bind, Except.bind, there, last, isName_of_isName named, taken]
    · simp [bind, Except.bind, there, last, isName_of_isName named, taken]

/-! ## Trees -/

/-- What stands somewhere stands in a directory. -/
def IsTree (fs : FileSystem) : Prop := ∀ l name, (fs.get? (l ++ [name])).isSome → fs.get? l = some .directory

theorem isTree_iff : fs.IsTree ↔ ∀ entry ∈ fs.nodes, fs.get? entry.1.dropLast = some .directory := by
  constructor
  · rintro tree ⟨l, node⟩ listed
    rcases l.eq_nil_or_concat' with rfl | ⟨l, name, rfl⟩
    · rfl
    · have below : l ++ [name] ≠ [] := by simp
      rw [List.dropLast_concat]
      refine tree l name ?_
      rw [get?, if_neg below, List.lookup_isSome_iff]
      exact ⟨_, listed, beq_self_eq_true _⟩
  · intro above l name there
    have below : l ++ [name] ≠ [] := by simp
    rw [get?, if_neg below, List.lookup_isSome_iff] at there
    obtain ⟨entry, listed, same⟩ := there
    have stands := above entry listed
    rwa [← beq_iff_eq.mp same, List.dropLast_concat] at stands

instance : Decidable fs.IsTree := decidable_of_iff _ isTree_iff.symm

/-- In a tree there are directories all the way to what stands somewhere. -/
theorem IsTree.directory_above (tree : fs.IsTree) {l m : Location} (there : (fs.get? m).isSome) (starts : l <+: m)
    (ne : l ≠ m) : fs.get? l = some .directory := by
  obtain ⟨more, rfl⟩ := starts
  induction more using List.reverseRecOn with
  | nil => exact absurd (List.append_nil l).symm ne
  | append_singleton more name ih =>
    rw [← List.append_assoc] at there
    have stands := tree _ name there
    by_cases last : more = []
    · rwa [last, List.append_nil] at stands
    · exact ih (by rw [stands]; rfl) (by simpa using last)

/-- Without a step up, a path leads down by its names. -/
theorem foldl_follow_of_notMem {parts : List Text} (down : FilePath.above ∉ parts) (here : Location) :
    parts.foldl follow here = here ++ parts.filter (!FilePath.isIdle ·) := by
  induction parts generalizing here with
  | nil => simp
  | cons part parts ih =>
    obtain ⟨notAbove, down⟩ := List.ne_and_not_mem_of_not_mem_cons down
    rw [List.foldl_cons, ih down, follow, List.filter_cons]
    by_cases idle : FilePath.isIdle part = true
    · simp [idle]
    · simp [idle, notAbove.symm]

/-- A walk down depends on the directories on its way only. -/
theorem Walks.of_directories {parts : List Text} {here : Location} (h : fs.Walks here parts) (down : FilePath.above ∉ parts)
    (directories : ∀ l, l <+: parts.foldl follow here → fs.get? l = some .directory → fs'.get? l = some .directory) :
    fs'.Walks here parts := by
  induction parts generalizing here with
  | nil => trivial
  | cons part parts ih =>
    refine ⟨directories here ?_ h.1, ih h.2 (List.not_mem_of_not_mem_cons down) directories⟩
    rw [foldl_follow_of_notMem down]
    exact List.prefix_append ..

/--
What is read at the end of a path without steps up stays the same where directories stay and nothing else than a
directory comes to stand at its end.
-/
theorem read_eq_ok_iff_of_isTree {content : Text} (tree : fs.IsTree) (down : FilePath.above ∉ p.parts)
    (directories : ∀ l, fs.get? l = some .directory → fs'.get? l = some .directory)
    (end_ : fs'.get? (p.parts.foldl follow (start working p)) = fs.get? (p.parts.foldl follow (start working p)) ∨
      fs.get? (p.parts.foldl follow (start working p)) = none ∧
        fs'.get? (p.parts.foldl follow (start working p)) = some .directory) :
    fs'.read working p = .ok content ↔ fs.read working p = .ok content := by
  rw [read_eq_ok_iff, read_eq_ok_iff]
  rcases end_ with same | ⟨free, made⟩
  · rw [same]
    refine and_congr_right fun _ => ⟨fun ⟨walks, there⟩ => ⟨walks.of_directories down fun l starts stands => ?_, there⟩,
      fun ⟨walks, there⟩ => ⟨walks.mono directories, there⟩⟩
    refine tree.directory_above (by rw [there]; rfl) starts fun equal => ?_
    -- A file stands at the end, so what is walked through stands before it.
    rw [equal, same, there] at stands
    cases stands
  · simp [made, free]

end FileSystem
end SvgEdit
