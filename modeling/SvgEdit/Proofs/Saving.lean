import SvgEdit.Proofs.MakingDirectories
import SvgEdit.Command.Run

/-!
# Files that are saved in a directory

A file is saved by making the directories above it and writing it. The first file that is saved in a
directory makes the directory; those saved after it find it made, or fail as the first one did. So what
comes of several files does not depend on which is saved first.
-/
namespace SvgEdit
namespace FileSystem

variable {fs fs' : FileSystem} {working : Location} {directory : FilePath} {name content : Text}

/-! ## Files that are put -/

/-- The file system with files put one after another. -/
def putAll (fs : FileSystem) (files : List (Location × FileNode)) : FileSystem :=
  files.foldl (fun fs file => fs.put file.1 file.2) fs

theorem putAll_concat (fs : FileSystem) (files : List (Location × FileNode)) (file : Location × FileNode) :
    fs.putAll (files ++ [file]) = (fs.putAll files).put file.1 file.2 := by
  rw [putAll, List.foldl_concat]
  rfl

/-- A file stands where it was put; elsewhere, all is as it was. -/
theorem get?_putAll (fs : FileSystem) {files : List (Location × FileNode)} (below : ∀ file ∈ files, file.1 ≠ [])
    (l : Location) :
    (∃ file ∈ files, file.1 = l ∧ (fs.putAll files).get? l = some file.2) ∨
      (∀ file ∈ files, file.1 ≠ l) ∧ (fs.putAll files).get? l = fs.get? l := by
  induction files using List.reverseRecOn with
  | nil => exact .inr ⟨fun _ listed => absurd listed List.not_mem_nil, rfl⟩
  | append_singleton files last ih =>
    obtain ⟨below, lastBelow⟩ := List.forall_mem_append.mp below
    rw [putAll_concat, get?_put _ _ _ _ (lastBelow last List.mem_cons_self)]
    by_cases here : l = last.1
    · rw [if_pos here]
      exact .inl ⟨last, List.mem_append_right _ List.mem_cons_self, here.symm, rfl⟩
    · rw [if_neg here]
      rcases ih below with ⟨file, listed, place, stands⟩ | ⟨elsewhere, same⟩
      · exact .inl ⟨file, List.mem_append_left _ listed, place, stands⟩
      · exact .inr ⟨List.forall_mem_append.mpr ⟨elsewhere, List.forall_mem_singleton.mpr (Ne.symm here)⟩, same⟩

theorem get?_putAll_of_mem {files : List (Location × FileNode)} (below : ∀ file ∈ files, file.1 ≠ [])
    (distinct : (files.map (·.1)).Nodup) {file : Location × FileNode} (listed : file ∈ files) :
    (fs.putAll files).get? file.1 = some file.2 := by
  rcases fs.get?_putAll below file.1 with ⟨other, listed', place, stands⟩ | ⟨elsewhere, -⟩
  · rwa [List.inj_on_of_nodup_map distinct listed' listed place] at stands
  · exact absurd rfl (elsewhere file listed)

/-- Files in distinct places may be put in any order. -/
theorem get?_putAll_of_perm {files files' : List (Location × FileNode)} (perm : files.Perm files')
    (below : ∀ file ∈ files, file.1 ≠ []) (distinct : (files.map (·.1)).Nodup) (l : Location) :
    (fs.putAll files).get? l = (fs.putAll files').get? l := by
  have below' : ∀ file ∈ files', file.1 ≠ [] := fun file listed => below file (perm.mem_iff.mpr listed)
  have distinct' : (files'.map (·.1)).Nodup := (perm.map _).nodup_iff.mp distinct
  rcases fs.get?_putAll below l with ⟨file, listed, rfl, stands⟩ | ⟨elsewhere, same⟩
  · rw [stands, get?_putAll_of_mem below' distinct' (perm.mem_iff.mp listed)]
  · rcases fs.get?_putAll below' l with ⟨file, listed, place, -⟩ | ⟨-, same'⟩
    · exact absurd place (elsewhere file (perm.mem_iff.mpr listed))
    · rw [same, same']

/-! ## One file -/

/-- Makes the directories above a file and writes it. -/
def save (fs : FileSystem) (working : Location) (path : FilePath) (content : Text) : FileSystem × Except JobFault Unit :=
  let above := path.parent?.getD []
  match fs.makeDirectories working above with
  | (fs, .error fault) => (fs, .error (.makeDirectories above fault))
  | (fs, .ok ()) =>
    match fs.write working path content with
    | .error fault => (fs, .error (.writeFile path fault))
    | .ok fs => (fs, .ok ())

/-- Makes the directories for files that are saved in a directory. -/
def prepare (fs : FileSystem) (working : Location) (directory : FilePath) : FileSystem × Except FileFault Unit :=
  fs.makeDirectories working (FilePath.enclosing directory.directoryParts)

/-- Where a file stands that is saved in a directory. -/
def placeIn (working : Location) (directory : FilePath) (name : Text) : Location :=
  directory.directoryParts.foldl follow (start working directory) ++ [name]

/-- The directory can be made, and no directory stands in the place of the file. -/
structure Takes (fs : FileSystem) (working : Location) (directory : FilePath) (name : Text) : Prop where
  prepared : (fs.prepare working directory).2 = .ok ()
  into : (fs.prepare working directory).1.WalksInto (start working directory) directory.directoryParts
  free : (fs.prepare working directory).1.get? (placeIn working directory name) ≠ some .directory

theorem start_join (named : FilePath.IsName name) : start working (directory.join name) = start working directory := by
  rw [start, start, FilePath.isAbsolute_join named]

theorem write_join_eq_ok_iff (named : FilePath.IsName name) : fs.write working (directory.join name) content = .ok fs' ↔
    fs.WalksInto (start working directory) directory.directoryParts ∧
      fs.get? (placeIn working directory name) ≠ some .directory ∧
        fs.put (placeIn working directory name) (.file (some content)) = fs' := by
  rw [write_eq_ok_iff named (FilePath.parts_join named directory), start_join named]
  rfl

/-- A file that a directory takes is put in its place; for any other, no more happens than that directories are made. -/
theorem save_join (fs : FileSystem) (working : Location) (directory : FilePath) (named : FilePath.IsName name)
    (content : Text) :
    fs.Takes working directory name ∧ fs.save working (directory.join name) content =
        ((fs.prepare working directory).1.put (placeIn working directory name) (.file (some content)), .ok ()) ∨
      ¬ fs.Takes working directory name ∧
        ∃ fault, fs.save working (directory.join name) content = ((fs.prepare working directory).1, .error fault) := by
  have above : (directory.join name).parent? = some (FilePath.enclosing directory.directoryParts) :=
    FilePath.parent?_eq_enclosing (FilePath.parts_join named directory) named.notIdle (by simp)
  rw [save, above, Option.getD_some]
  cases made : fs.makeDirectories working (FilePath.enclosing directory.directoryParts) with
  | mk fs' result =>
    have prepared : fs.prepare working directory = (fs', result) := made
    rw [prepared]
    cases result with
    | error fault =>
      refine .inr ⟨fun takes => ?_, _, rfl⟩
      have done := takes.prepared
      rw [prepared] at done
      cases done
    | ok =>
      dsimp only
      cases wrote : fs'.write working (directory.join name) content with
      | ok fs'' =>
        obtain ⟨into, free, rfl⟩ := (write_join_eq_ok_iff named).mp wrote
        exact .inl ⟨⟨by rw [prepared], by rwa [prepared], by rwa [prepared]⟩, rfl⟩
      | error fault =>
        refine .inr ⟨fun takes => ?_, _, rfl⟩
        have into := takes.into
        have free := takes.free
        rw [prepared] at into free
        rw [(write_join_eq_ok_iff named).mpr ⟨into, free, rfl⟩] at wrote
        cases wrote

/-! ## Several files -/

/-- Where a directory was made, it is found made. -/
theorem prepare_of_directories (made : (fs.prepare working directory).2 = .ok ())
    (directories : ∀ l, (fs.prepare working directory).1.get? l = some .directory → fs'.get? l = some .directory) :
    fs'.prepare working directory = (fs', .ok ()) := by
  refine makeDirectories_of_isDirectory ?_
  rcases isDirectory_makeDirectories fs working _ made with empty | there
  · exact .inl empty
  · obtain ⟨nonempty, into⟩ := isDirectory_iff.mp there
    exact .inr (isDirectory_iff.mpr ⟨nonempty, into.mono directories⟩)

/-- The file that is put for a name and a content, if the directory takes it. -/
def fileIn (fs : FileSystem) (working : Location) (directory : FilePath) (entry : Text × Text) : Option (Location × FileNode) :=
  if (fs.save working (directory.join entry.1) entry.2).2.toBool then
    some (placeIn working directory entry.1, .file (some entry.2))
  else none

/-- The files that are put for names and contents. -/
def filesIn (fs : FileSystem) (working : Location) (directory : FilePath) (entries : List (Text × Text)) :
    List (Location × FileNode) := entries.filterMap (fs.fileIn working directory)

/-- The file system with files saved in a directory. -/
def saved (fs : FileSystem) (working : Location) (directory : FilePath) (entries : List (Text × Text)) : FileSystem :=
  if entries = [] then fs else (fs.prepare working directory).1.putAll (fs.filesIn working directory entries)

theorem placeIn_inj {name' : Text} (same : placeIn working directory name = placeIn working directory name') : name = name' :=
  List.singleton_inj.mp (List.append_cancel_left same)

theorem fileIn_eq_some {entry : Text × Text} {file : Location × FileNode} (put : fs.fileIn working directory entry = some file) :
    file = (placeIn working directory entry.1, .file (some entry.2)) := by
  rw [fileIn] at put
  split at put
  · exact (Option.some.inj put).symm
  · cases put

theorem fileIn_isSome_iff {entry : Text × Text} (named : FilePath.IsName entry.1) :
    (fs.fileIn working directory entry).isSome ↔ fs.Takes working directory entry.1 := by
  rcases fs.save_join working directory named entry.2 with ⟨takes, same⟩ | ⟨refuses, fault, same⟩
  · rw [fileIn, same]
    exact iff_of_true rfl takes
  · rw [fileIn, same]
    exact iff_of_false Bool.false_ne_true refuses

theorem fileIn_of_takes {entry : Text × Text} (named : FilePath.IsName entry.1) (takes : fs.Takes working directory entry.1) :
    fs.fileIn working directory entry = some (placeIn working directory entry.1, .file (some entry.2)) := by
  obtain ⟨file, put⟩ := Option.isSome_iff_exists.mp ((fileIn_isSome_iff named).mpr takes)
  rw [put, fileIn_eq_some put]

theorem fileIn_of_not_takes {entry : Text × Text} (named : FilePath.IsName entry.1)
    (refuses : ¬ fs.Takes working directory entry.1) : fs.fileIn working directory entry = none :=
  Option.not_isSome_iff_eq_none.mp (mt (fileIn_isSome_iff named).mp refuses)

/-- Files with distinct names are in distinct places. -/
theorem nodup_filesIn {entries : List (Text × Text)} (distinct : (entries.map (·.1)).Nodup) :
    ((fs.filesIn working directory entries).map (·.1)).Nodup := by
  rw [List.Nodup, List.pairwise_map] at distinct ⊢
  refine distinct.filterMap _ fun entry other ne file put file' put' same => ne ?_
  rw [fileIn_eq_some put, fileIn_eq_some put'] at same
  exact placeIn_inj same

section

variable {entries : List (Text × Text)} (named : ∀ entry ∈ entries, FilePath.IsName entry.1)

theorem exists_of_mem_filesIn {file : Location × FileNode} (listed : file ∈ fs.filesIn working directory entries) :
    ∃ entry ∈ entries, file = (placeIn working directory entry.1, .file (some entry.2)) := by
  obtain ⟨entry, listed, put⟩ := List.mem_filterMap.mp listed
  exact ⟨entry, listed, fileIn_eq_some put⟩

theorem below_of_mem_filesIn (fs : FileSystem) (working : Location) (directory : FilePath) :
    ∀ file ∈ fs.filesIn working directory entries, file.1 ≠ [] := by
  intro file listed
  obtain ⟨entry, -, rfl⟩ := exists_of_mem_filesIn listed
  simp [placeIn]

/-- What stands in none of the places of the files is as it was, or a directory that was made. -/
theorem get?_saved {l : Location} (elsewhere : ∀ entry ∈ entries, placeIn working directory entry.1 ≠ l) :
    (fs.saved working directory entries).get? l = fs.get? l ∨
      fs.get? l = none ∧ (fs.saved working directory entries).get? l = some .directory := by
  rw [saved]
  split
  · exact .inl rfl
  · rcases (fs.prepare working directory).1.get?_putAll (below_of_mem_filesIn fs working directory) l with
      ⟨file, listed, place, -⟩ | ⟨-, same⟩
    · obtain ⟨entry, member, rfl⟩ := exists_of_mem_filesIn listed
      exact absurd place (elsewhere entry member)
    · rw [same]
      exact growsTo_makeDirectories fs working _ l

/-- Files with distinct names may be saved in any order. -/
theorem get?_saved_of_perm {entries' : List (Text × Text)} (perm : entries.Perm entries') (distinct : (entries.map (·.1)).Nodup)
    (l : Location) : (fs.saved working directory entries).get? l = (fs.saved working directory entries').get? l := by
  rw [saved, saved]
  by_cases none : entries = []
  · rw [if_pos none, if_pos (none ▸ perm).nil_eq.symm]
  · rw [if_neg none, if_neg fun none' => none (none' ▸ perm).eq_nil]
    exact get?_putAll_of_perm (perm.filterMap _) (below_of_mem_filesIn fs working directory) (nodup_filesIn distinct) l

include named

/-- No file is put where a directory stands. -/
theorem get?_putAll_filesIn_iff (fs : FileSystem) (working : Location) (directory : FilePath) (l : Location) :
    ((fs.prepare working directory).1.putAll (fs.filesIn working directory entries)).get? l = some .directory ↔
      (fs.prepare working directory).1.get? l = some .directory := by
  rcases (fs.prepare working directory).1.get?_putAll (below_of_mem_filesIn fs working directory) l with
    ⟨file, listed, rfl, stands⟩ | ⟨-, same⟩
  · obtain ⟨entry, listed, put⟩ := List.mem_filterMap.mp listed
    have takes := (fileIn_isSome_iff (named entry listed)).mp (Option.isSome_of_eq_some put)
    rw [stands, fileIn_eq_some put]
    exact iff_of_false (by simp) takes.free
  · rw [same]

/-- Directories stay. -/
theorem directory_saved {l : Location} (there : fs.get? l = some .directory) :
    (fs.saved working directory entries).get? l = some .directory := by
  rw [saved]
  split
  · exact there
  · exact (get?_putAll_filesIn_iff named fs working directory l).mpr ((growsTo_makeDirectories fs working _).directory there)

/-- A file with another name than those that are saved is read as before. -/
theorem read_saved_of_ne (tree : fs.IsTree) {p : FilePath} (down : FilePath.above ∉ p.parts) (last : p.fileName? = some name)
    (others : ∀ entry ∈ entries, entry.1 ≠ name) {content : Text} :
    (fs.saved working directory entries).read working p = .ok content ↔ fs.read working p = .ok content := by
  refine read_eq_ok_iff_of_isTree tree down (fun l => directory_saved named) (get?_saved fun entry listed place => ?_)
  rw [foldl_follow_of_notMem down, placeIn] at place
  have names := congrArg List.getLast? place
  rw [List.getLast?_concat, List.getLast?_append, (FilePath.isName_of_fileName? last).2] at names
  exact others entry listed (Option.some.inj names)

/-- After files were saved, making the directories for them changes nothing more, and succeeds if it did. -/
theorem prepare_saved (fs : FileSystem) (working : Location) (directory : FilePath) :
    ((fs.saved working directory entries).prepare working directory).1 =
      (fs.prepare working directory).1.putAll (fs.filesIn working directory entries) ∧
    (((fs.saved working directory entries).prepare working directory).2 = .ok () ↔ (fs.prepare working directory).2 = .ok ()) := by
  by_cases none : entries = []
  · rw [saved, if_pos none, none]
    exact ⟨rfl, Iff.rfl⟩
  · rw [saved, if_neg none]
    cases made : (fs.prepare working directory).2 with
    | ok =>
      rw [prepare_of_directories made fun l => (get?_putAll_filesIn_iff named fs working directory l).mpr]
      exact ⟨rfl, Iff.rfl⟩
    | error fault =>
      -- No file was put, so the directories are tried again where the first try left them.
      have nothing : fs.filesIn working directory entries = [] := by
        refine List.filterMap_eq_nil_iff.mpr fun entry listed => fileIn_of_not_takes (named entry listed) fun takes => ?_
        rw [takes.prepared] at made
        cases made
      obtain ⟨fault', again⟩ := makeDirectories_again fs working _ made
      replace again : (fs.prepare working directory).1.prepare working directory =
        ((fs.prepare working directory).1, .error fault') := again
      rw [nothing, putAll, List.foldl_nil, again]
      exact ⟨rfl, by simp⟩

/-- Which files the directory takes does not depend on what was saved there. -/
theorem takes_saved_iff :
    (fs.saved working directory entries).Takes working directory name ↔ fs.Takes working directory name := by
  obtain ⟨same, done⟩ := prepare_saved named fs working directory
  have directories := get?_putAll_filesIn_iff named fs working directory
  constructor
  · intro takes
    have into := takes.into
    have free := takes.free
    rw [same] at into free
    exact ⟨done.mp takes.prepared, into.mono fun l => (directories l).mp, mt (directories _).mpr free⟩
  · intro takes
    refine ⟨done.mpr takes.prepared, ?_, ?_⟩
    · rw [same]
      exact takes.into.mono fun l => (directories l).mpr
    · rw [same]
      exact mt (directories _).mp takes.free

/-- One more file is saved after others as it is saved by itself. -/
theorem save_saved (last : FilePath.IsName name) (fs : FileSystem) (working : Location) (directory : FilePath) (content : Text) :
    ((fs.saved working directory entries).save working (directory.join name) content).1 =
        fs.saved working directory (entries ++ [(name, content)]) ∧
      (((fs.saved working directory entries).save working (directory.join name) content).2 = .ok () ↔
        fs.Takes working directory name) := by
  have same := (prepare_saved named fs working directory).1
  have more : fs.saved working directory (entries ++ [(name, content)]) =
      (fs.prepare working directory).1.putAll
        (fs.filesIn working directory entries ++ (fs.fileIn working directory (name, content)).toList) := by
    rw [saved, if_neg (by simp), filesIn, List.filterMap_append, filesIn]
    cases put : fs.fileIn working directory (name, content) <;> simp [put]
  rcases (fs.saved working directory entries).save_join working directory last content with
    ⟨takes, saves⟩ | ⟨refuses, fault, fails⟩
  · have takes := (takes_saved_iff named).mp takes
    have put : fs.fileIn working directory (name, content) = some (placeIn working directory name, .file (some content)) :=
      fileIn_of_takes last takes
    rw [saves, same, more, put, Option.toList_some, putAll_concat]
    exact ⟨rfl, iff_of_true rfl takes⟩
  · have refuses := mt (takes_saved_iff named).mpr refuses
    have put : fs.fileIn working directory (name, content) = none := fileIn_of_not_takes last refuses
    rw [fails, same, more, put, Option.toList_none, List.append_nil]
    exact ⟨rfl, iff_of_false (by simp) refuses⟩

/-- A file that the directory takes is read with the content that it was saved with. -/
theorem read_saved (distinct : (entries.map (·.1)).Nodup) {entry : Text × Text} (listed : entry ∈ entries)
    (takes : fs.Takes working directory entry.1) :
    (fs.saved working directory entries).read working (directory.join entry.1) = .ok entry.2 := by
  have isName := named entry listed
  have put : (placeIn working directory entry.1, FileNode.file (some entry.2)) ∈ fs.filesIn working directory entries :=
    List.mem_filterMap.mpr ⟨entry, listed, fileIn_of_takes isName takes⟩
  have nonempty : directory.join entry.1 ≠ [] := ne_nil_of_parts isName (FilePath.parts_join isName directory)
  have into := takes.into.mono fun l => (get?_putAll_filesIn_iff named fs working directory l).mpr
  rw [saved, if_neg (List.ne_nil_of_mem listed), read_eq_ok_iff, start_join isName, FilePath.parts_join isName, walks_concat,
    List.foldl_concat, follow_of_isName (isName_of_isName isName)]
  exact ⟨nonempty, into, get?_putAll_of_mem (below_of_mem_filesIn fs working directory) (nodup_filesIn distinct) put⟩

end

end FileSystem
end SvgEdit
