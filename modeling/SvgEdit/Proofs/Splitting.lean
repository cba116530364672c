import SvgEdit.Text.Blank
import Mathlib.Data.List.Basic

/-!
# Splitting and joining

Parts without the mark between them are what is left after they are joined and split again.
-/
namespace SvgEdit
namespace Text

variable {mark : Char}

theorem splitOn_ne_nil (mark : Char) (s : Text) : splitOn mark s ≠ [] := by
  cases s with
  | nil => exact List.cons_ne_nil _ _
  | cons c s =>
    rw [splitOn]
    split
    · exact List.cons_ne_nil _ _
    · split <;> exact List.cons_ne_nil _ _

theorem splitOn_of_notMem {s : Text} (absent : mark ∉ s) : splitOn mark s = [s] := by
  induction s with
  | nil => rfl
  | cons c s ih =>
    obtain ⟨ne, absent⟩ := List.ne_and_not_mem_of_not_mem_cons absent
    rw [splitOn, if_neg ne.symm, ih absent]

theorem splitOn_append_mark (mark : Char) (s t : Text) : splitOn mark (s ++ mark :: t) = splitOn mark s ++ splitOn mark t := by
  induction s with
  | nil => simp [splitOn]
  | cons c s ih =>
    rw [List.cons_append, splitOn, ih, splitOn]
    split
    · rfl
    · obtain ⟨part, parts, same⟩ := List.exists_cons_of_ne_nil (splitOn_ne_nil mark s)
      rw [same]
      rfl

theorem notMem_of_mem_splitOn {s part : Text} (listed : part ∈ splitOn mark s) : mark ∉ part := by
  induction s generalizing part with
  | nil =>
    obtain rfl := List.mem_singleton.mp listed
    exact List.not_mem_nil
  | cons c s ih =>
    rw [splitOn] at listed
    split at listed
    · rcases List.mem_cons.mp listed with rfl | listed
      · exact List.not_mem_nil
      · exact ih listed
    · next ne =>
      obtain ⟨first, parts, same⟩ := List.exists_cons_of_ne_nil (splitOn_ne_nil mark s)
      rw [same] at listed ih
      rcases List.mem_cons.mp listed with rfl | listed
      · exact List.not_mem_cons_of_ne_of_not_mem (Ne.symm ne) (ih List.mem_cons_self)
      · exact ih (List.mem_cons_of_mem first listed)

theorem splitOn_joinWith {parts : List Text} (nonempty : parts ≠ []) (absent : ∀ part ∈ parts, mark ∉ part) :
    splitOn mark (joinWith [mark] parts) = parts := by
  induction parts with
  | nil => exact absurd rfl nonempty
  | cons first parts ih =>
    obtain ⟨here, absent⟩ := List.forall_mem_cons.mp absent
    cases parts with
    | nil => simpa [joinWith] using splitOn_of_notMem here
    | cons second parts =>
      rw [joinWith, List.intercalate_cons_cons, ← joinWith, List.append_assoc, List.singleton_append,
        splitOn_append_mark, splitOn_of_notMem here, ih (List.cons_ne_nil _ _) absent]
      rfl

theorem joinWith_append (between : Text) {first second : List Text} (some : first ≠ []) (more : second ≠ []) :
    joinWith between (first ++ second) = joinWith between first ++ (between ++ joinWith between second) := by
  induction first with
  | nil => exact absurd rfl some
  | cons token rest ih =>
    cases rest with
    | nil =>
      obtain ⟨next, later, rfl⟩ := List.exists_cons_of_ne_nil more
      simp [joinWith, List.intercalate_cons_cons]
    | cons next rest =>
      have later := ih (List.cons_ne_nil next rest)
      simp only [joinWith, List.cons_append, List.intercalate_cons_cons, List.append_assoc] at later ⊢
      rw [later]

/-! ## Characters of parts -/

theorem mem_of_mem_splitOn {s part : Text} (listed : part ∈ splitOn mark s) : ∀ c ∈ part, c ∈ s := by
  induction s generalizing part with
  | nil =>
    rw [splitOn, List.mem_singleton] at listed
    rw [listed]
    exact fun _ member => absurd member List.not_mem_nil
  | cons d s ih =>
    rw [splitOn] at listed
    split at listed
    · rcases List.mem_cons.mp listed with rfl | listed
      · exact fun _ member => absurd member List.not_mem_nil
      · exact fun c member => List.mem_cons_of_mem d (ih listed c member)
    · split at listed
      · rw [List.mem_singleton] at listed
        rw [listed]
        exact fun c member => List.mem_singleton.mp member ▸ List.mem_cons_self
      · next first parts same =>
        rcases List.mem_cons.mp listed with rfl | listed
        · intro c member
          rcases List.mem_cons.mp member with rfl | member
          · exact List.mem_cons_self
          · exact List.mem_cons_of_mem d (ih (by rw [same]; exact List.mem_cons_self) c member)
        · exact fun c member =>
            List.mem_cons_of_mem d (ih (by rw [same]; exact List.mem_cons_of_mem first listed) c member)

theorem mem_of_mem_joinWith {between : Text} {parts : List Text} {c : Char} (member : c ∈ joinWith between parts) :
    c ∈ between ∨ ∃ part ∈ parts, c ∈ part := by
  induction parts with
  | nil => cases member
  | cons first parts ih =>
    cases parts with
    | nil => exact .inr ⟨first, List.mem_cons_self, by simpa [joinWith] using member⟩
    | cons second parts =>
      rw [joinWith, List.intercalate_cons_cons] at member
      rcases List.mem_append.mp member with member | member
      · rcases List.mem_append.mp member with member | member
        · exact .inr ⟨first, List.mem_cons_self, member⟩
        · exact .inl member
      · exact (ih member).imp_right fun ⟨part, listed, inside⟩ => ⟨part, List.mem_cons_of_mem first listed, inside⟩

theorem mem_of_mem_trim {s : Text} {c : Char} (member : c ∈ trim s) : c ∈ s := by
  rw [trim, dropWhileEnd, List.mem_reverse] at member
  have inner := (List.dropWhile_suffix isBlank).subset member
  exact (List.dropWhile_suffix isBlank).subset (List.mem_reverse.mp inner)

end Text
end SvgEdit
