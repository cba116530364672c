import SvgEdit.Proofs.Walking

/-!
# Making directories

Directories are made where nothing stands. Made again, a directory and those above it change nothing more,
and whether that succeeds is the same.
-/
namespace SvgEdit
namespace FileSystem

variable {fs fs' : FileSystem} {working : Location} {p : FilePath}

/-! ## Growing -/

/-- Nothing changes but that directories are made where nothing stands. -/
def GrowsTo (fs fs' : FileSystem) : Prop :=
  ∀ l, fs'.get? l = fs.get? l ∨ fs.get? l = none ∧ fs'.get? l = some .directory

theorem GrowsTo.refl (fs : FileSystem) : fs.GrowsTo fs := fun _ => .inl rfl

theorem GrowsTo.trans {fs'' : FileSystem} (h : fs.GrowsTo fs') (h' : fs'.GrowsTo fs'') : fs.GrowsTo fs'' := by
  intro l
  rcases h l with same | ⟨free, made⟩
  · rcases h' l with same' | ⟨free', made'⟩
    · exact .inl (same'.trans same)
    · exact .inr ⟨same ▸ free', made'⟩
  · rcases h' l with same' | ⟨free', made'⟩
    · exact .inr ⟨free, same'.trans made⟩
    · exact .inr ⟨free, made'⟩

theorem GrowsTo.directory (h : fs.GrowsTo fs') {l : Location} (there : fs.get? l = some .directory) :
    fs'.get? l = some .directory := by
  rcases h l with same | ⟨free, made⟩
  · exact same.trans there
  · exact made

theorem growsTo_put {l : Location} (below : l ≠ []) (free : fs.get? l = none) : fs.GrowsTo (fs.put l .directory) := by
  intro m
  rw [get?_put fs l m .directory below]
  by_cases same : m = l
  · rw [if_pos same]
    exact .inr ⟨same ▸ free, rfl⟩
  · rw [if_neg same]
    exact .inl rfl

/-! ## One directory -/

theorem walksInto_append {here : Location} {front parts : List Text} :
    fs.WalksInto here (front ++ parts) ↔ fs.Walks here front ∧ fs.WalksInto (front.foldl follow here) parts := by
  rw [WalksInto, WalksInto, walks_append, List.foldl_append, and_assoc]

theorem walksInto_cons {here : Location} {part : Text} {parts : List Text} :
    fs.WalksInto here (part :: parts) ↔ fs.get? here = some .directory ∧ fs.WalksInto (follow here part) parts := by
  rw [WalksInto, WalksInto, Walks, List.foldl_cons, and_assoc]

/-- Idle parts lead nowhere else. -/
theorem walksInto_of_idle {here : Location} (there : fs.get? here = some .directory) {idle : List Text}
    (idles : ∀ part ∈ idle, FilePath.isIdle part = true) : fs.WalksInto here idle := by
  induction idle with
  | nil => exact ⟨trivial, there⟩
  | cons part idle ih =>
    obtain ⟨here_, idles⟩ := List.forall_mem_cons.mp idles
    have stays : follow here part = here := by rw [follow, if_pos here_]
    rw [walksInto_cons, stays]
    exact ⟨there, ih idles⟩

/-- The last part that is no slash, the parts before it, and what is located by them. -/
theorem exists_locateLast_iff (working : Location) (p : FilePath) : ∃ front last idle, p.parts = front ++ last :: idle ∧
    (∀ part ∈ idle, FilePath.isIdle part = true) ∧ ∀ (fs : FileSystem) directory last',
      fs.locateLast working p = .ok (directory, last') ↔ p ≠ [] ∧ fs.WalksInto (start working p) front ∧
        front.foldl follow (start working p) = directory ∧ last = last' := by
  obtain ⟨idle, split, empty⟩ := exists_parts_eq_trimmedParts p
  have nonempty : trimmedParts p ≠ [] := Text.splitOn_ne_nil _ _
  obtain ⟨front, last, trimmed⟩ := (trimmedParts p).eq_nil_or_concat'.resolve_left nonempty
  refine ⟨front, last, idle, by rw [split, trimmed, List.append_assoc]; rfl, fun part member => ?_, fun fs directory last' => ?_⟩
  · rw [empty part member]
    rfl
  · rw [locateLast_eq_ok_iff, trimmed, List.dropLast_concat, List.getLastD_concat]

/-- What is made is the last part that is not idle, in the directory that those before it lead to. -/
theorem makeDirectory_eq_ok (made : fs.makeDirectory working p = .ok fs') : ∃ front name idle, p.parts = front ++ name :: idle ∧
    isName name = true ∧ (∀ part ∈ idle, FilePath.isIdle part = true) ∧ fs.WalksInto (start working p) front ∧
      fs.get? (front.foldl follow (start working p) ++ [name]) = none ∧
        fs' = fs.put (front.foldl follow (start working p) ++ [name]) .directory := by
  obtain ⟨front, last, idle, split, idles, located⟩ := exists_locateLast_iff working p
  rw [makeDirectory] at made
  cases found : fs.locateLast working p with
  | error fault =>
    rw [found] at made
    cases made
  | ok place =>
    obtain ⟨directory, name⟩ := place
    obtain ⟨-, there, rfl, rfl⟩ := (located fs directory name).mp found
    simp only [found, bind, Except.bind] at made
    split at made
    · cases made
    · next free =>
      obtain ⟨named, free⟩ := not_or.mp free
      exact ⟨front, last, idle, split, not_not.mp named, idles, there, by simpa using free, (Except.ok.inj made).symm⟩

theorem growsTo_of_makeDirectory (made : fs.makeDirectory working p = .ok fs') : fs.GrowsTo fs' := by
  obtain ⟨front, name, idle, -, -, -, -, free, rfl⟩ := makeDirectory_eq_ok made
  exact growsTo_put (by simp) free

theorem ne_nil_of_makeDirectory (made : fs.makeDirectory working p = .ok fs') : p ≠ [] := by
  rintro rfl
  cases made

theorem isDirectory_of_makeDirectory (made : fs.makeDirectory working p = .ok fs') : fs'.isDirectory working p = true := by
  have grows := growsTo_of_makeDirectory made
  have nonempty := ne_nil_of_makeDirectory made
  obtain ⟨front, name, idle, split, named, idles, there, free, rfl⟩ := makeDirectory_eq_ok made
  obtain ⟨walks, outer⟩ := there.mono fun l => grows.directory
  rw [isDirectory_iff, split, walksInto_append, walksInto_cons, follow_of_isName named]
  exact ⟨nonempty, walks, outer, walksInto_of_idle (by rw [get?_put fs _ _ _ (by simp), if_pos rfl]) idles⟩

theorem makeDirectory_of_isDirectory (there : fs.isDirectory working p = true) : fs.makeDirectory working p = .error .exists_ := by
  obtain ⟨nonempty, into⟩ := isDirectory_iff.mp there
  obtain ⟨front, last, idle, split, -, located⟩ := exists_locateLast_iff working p
  have found := (located fs _ _).mpr ⟨nonempty, into.of_front ⟨last :: idle, split.symm⟩, rfl, rfl⟩
  simp only [makeDirectory, found, bind, Except.bind]
  by_cases named : isName last = true
  · have taken : fs.get? (front.foldl follow (start working p) ++ [last]) = some .directory := by
      have whole : front ++ [last] <+: p.parts := ⟨idle, by rw [split, List.append_assoc]; rfl⟩
      have ends := (into.of_front whole).2
      rwa [List.foldl_append, List.foldl_cons, List.foldl_nil, follow_of_isName named] at ends
    rw [if_pos (.inr (by rw [taken]; rfl))]
  · rw [if_pos (.inl named)]

/-! ## The path above -/

/-- A path of the first parts leads to a directory, if the parts do. -/
theorem isDirectory_enclosing {front more : List Text} (split : p.parts = front ++ more)
    (into : fs.WalksInto (start working p) front) :
    FilePath.enclosing front = [] ∨ fs.isDirectory working (FilePath.enclosing front) = true := by
  cases front with
  | nil => exact .inl rfl
  | cons first rest =>
    right
    have whole : ∀ part ∈ first :: rest, '/' ∉ part := fun part member =>
      FilePath.notMem_of_mem_parts (split ▸ List.mem_append_left more member)
    rcases FilePath.parts_enclosing whole with root | ⟨parts, named⟩
    · rw [root]
      rfl
    · have nonempty : FilePath.enclosing (first :: rest) ≠ [] := fun empty => by
        rw [empty] at parts
        obtain ⟨absolute, none⟩ := List.cons.inj parts
        exact named absolute.symm none.symm
      obtain ⟨behind, kept⟩ := FilePath.dropIdleEnd_prefix_self rest
      have starts : start working (FilePath.enclosing (first :: rest)) = start working p := by
        have same : FilePath.isAbsolute (FilePath.enclosing (first :: rest)) = p.isAbsolute := by
          rw [Bool.eq_iff_iff, FilePath.isAbsolute_iff, FilePath.isAbsolute_iff, parts, split]
          by_cases absolute : first = []
          · have more : rest ≠ [] := fun none => named absolute (by rw [none]; rfl)
            obtain ⟨second, others, same⟩ := List.exists_cons_of_ne_nil (named absolute)
            obtain ⟨second', others', same'⟩ := List.exists_cons_of_ne_nil more
            exact iff_of_true ⟨second, others, by rw [absolute, same]⟩ ⟨second', _, by rw [absolute, same']; rfl⟩
          · simp [absolute]
        rw [start, start, same]
      rw [isDirectory_iff, parts, starts]
      exact ⟨nonempty, into.of_front ⟨behind, by rw [List.cons_append, kept]⟩⟩

/-- Where a directory is there or can be made, the path above it leads to a directory. -/
theorem isDirectory_parent? {above : FilePath} (stands : p.parent? = some above)
    (there : fs.isDirectory working p = true ∨ ∃ made, fs.makeDirectory working p = .ok made) :
    above = [] ∨ fs.isDirectory working above = true := by
  rcases there with there | ⟨made, done⟩
  · obtain ⟨front, more, split, rfl⟩ := FilePath.exists_enclosing_of_parent? stands
    exact isDirectory_enclosing split ((isDirectory_iff.mp there).2.of_front ⟨more, split.symm⟩)
  · obtain ⟨front, name, idle, split, named, idles, into, -, -⟩ := makeDirectory_eq_ok done
    have notIdle : FilePath.isIdle name = false := by
      rw [isName, Bool.and_eq_true, Bool.not_eq_true'] at named
      exact named.1
    obtain rfl := Option.some.inj (stands.symm.trans (FilePath.parent?_eq_enclosing split notIdle idles))
    exact isDirectory_enclosing split into

/-! ## Directories above each other -/

theorem makeDirectories_nil : fs.makeDirectories working [] = (fs, .ok ()) := by
  rw [makeDirectories, if_pos rfl]

theorem growsTo_makeDirectories (fs : FileSystem) (working : Location) (p : FilePath) :
    fs.GrowsTo (fs.makeDirectories working p).1 := by
  fun_induction makeDirectories fs working p with
  | case1 => exact .refl fs
  | case2 p nonempty fs' made => exact growsTo_of_makeDirectory made
  | case3 | case7 | case8 => exact .refl fs
  | case4 p nonempty missing above stands shorter fs' fault failed ih => exact failed ▸ ih
  | case5 p nonempty missing above stands shorter between done fs' made ih =>
    rw [done] at ih
    exact ih.trans (growsTo_of_makeDirectory made)
  | case6 p nonempty missing above stands shorter between done fault failed ih =>
    rw [done] at ih
    exact ih

/-- If it succeeds, then the path leads to a directory. -/
theorem isDirectory_makeDirectories (fs : FileSystem) (working : Location) (p : FilePath)
    (done : (fs.makeDirectories working p).2 = .ok ()) :
    p = [] ∨ (fs.makeDirectories working p).1.isDirectory working p = true := by
  revert done
  fun_induction makeDirectories fs working p with
  | case1 => exact fun _ => .inl rfl
  | case2 p nonempty fs' made => exact fun _ => .inr (isDirectory_of_makeDirectory made)
  | case3 | case4 | case7 => exact fun done => nomatch done
  | case5 p nonempty missing above stands shorter between _ fs' made => exact fun _ => .inr (isDirectory_of_makeDirectory made)
  | case6 p nonempty missing above stands shorter between _ fault failed | case8 p nonempty fault other failed =>
    intro done
    by_contra absent
    rw [if_neg (not_or.mp absent).2] at done
    cases done

/-- Where there is a directory already, nothing is made. -/
theorem makeDirectories_of_isDirectory (there : p = [] ∨ fs.isDirectory working p = true) :
    fs.makeDirectories working p = (fs, .ok ()) := by
  rcases there with rfl | there
  · exact makeDirectories_nil
  · rw [makeDirectories, if_neg (isDirectory_iff.mp there).1, makeDirectory_of_isDirectory there]
    simp [there]

/-- Where a directory cannot be made and those above it are as they can be, making them all fails and changes nothing. -/
theorem makeDirectories_of_blocked {above : FilePath} {fault : FileFault} {result : Except FileFault Unit} (nonempty : p ≠ [])
    (stands : p.parent? = some above) (shorter : above.length < p.length) (failed : fs.makeDirectory working p = .error fault)
    (absent : ¬ fs.isDirectory working p = true) (made : fs.makeDirectories working above = (fs, result)) :
    ∃ fault', fs.makeDirectories working p = (fs, .error fault') := by
  rw [makeDirectories, if_neg nonempty, failed]
  cases fault with
  | notFound =>
    simp only [stands, if_pos shorter, made]
    cases result with
    | error fault => exact ⟨fault, rfl⟩
    | ok => exact ⟨.notFound, by simp only [failed, if_neg absent]⟩
  | _ => exact ⟨_, by simp only [if_neg absent]; rfl⟩

/-- What failed fails again, and changes nothing more. -/
theorem makeDirectories_again (fs : FileSystem) (working : Location) (p : FilePath) {fault : FileFault}
    (failed : (fs.makeDirectories working p).2 = .error fault) :
    ∃ fault', (fs.makeDirectories working p).1.makeDirectories working p = ((fs.makeDirectories working p).1, .error fault') := by
  revert fault
  fun_induction makeDirectories fs working p with
  | case1 | case2 | case5 => exact fun failed => nomatch failed
  | case3 p nonempty missing none =>
    exact fun _ => ⟨.other _, by rw [makeDirectories, if_neg nonempty, missing]; simp only [none]; rfl⟩
  | case4 p nonempty missing above stands shorter fs' fault failed ih =>
    intro _ _
    rw [failed] at ih
    obtain ⟨fault', again⟩ := ih rfl
    have nowhere : ¬ (above = [] ∨ fs'.isDirectory working above = true) := fun there => by
      rw [makeDirectories_of_isDirectory there] at again
      cases again
    -- If the directory could be made now, those above it would be there, and making them would not fail again.
    cases attempt : fs'.makeDirectory working p with
    | ok made => exact absurd (isDirectory_parent? stands (.inr ⟨made, attempt⟩)) nowhere
    | error fault'' =>
      exact makeDirectories_of_blocked nonempty stands shorter attempt
        (fun there => nowhere (isDirectory_parent? stands (.inl there))) again
  | case6 p nonempty missing above stands shorter between done fault failed =>
    intro _ refused
    have absent : ¬ between.isDirectory working p = true := fun there => by
      rw [if_pos there] at refused
      cases refused
    have there := isDirectory_makeDirectories fs working above (by rw [done])
    rw [done] at there
    exact makeDirectories_of_blocked nonempty stands shorter failed absent (makeDirectories_of_isDirectory there)
  | case7 p nonempty missing above stands long =>
    exact fun _ => ⟨.notFound, by rw [makeDirectories, if_neg nonempty, missing]; simp only [stands, if_neg long]⟩
  | case8 p nonempty fault other failed =>
    intro _ refused
    have absent : ¬ fs.isDirectory working p = true := fun there => by
      rw [if_pos there] at refused
      cases refused
    refine ⟨fault, ?_⟩
    rw [makeDirectories, if_neg nonempty, failed]
    cases fault with
    | notFound => exact absurd rfl other
    | _ => simp only [if_neg absent]

end FileSystem
end SvgEdit
