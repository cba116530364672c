import SvgEdit.Proofs.Tree
import SvgEdit.Selection

/-!
# What selecting does

The matching paths are distinct and lead to elements. Assigning identifiers gives the tag at each of
them its identifier, leaves all other tags and the skeleton alone, and tells one match for each path.
-/
namespace SvgEdit

/-! ## Identifiers of tags -/

/-- The identifier in a tag; an empty one does not count. -/
def Tag.id? (t : Tag) : Option Text := (t.attributes.value? idName).filter (· ≠ [])

/-- The tag with an identifier: its own, or the one made for a place. -/
def Tag.withId (place : Nat) (t : Tag) : Tag :=
  if t.id?.isSome then t else { t with attributes := t.attributes.set idName (madeId place) }

/-- What is told of a match, by its tag. -/
def Match.ofTag (t : Tag) (place : Nat) : Match :=
  ⟨t.id?.getD (madeId place), localName t.name, (t.withId place).attributes⟩

theorem withId_eq_onTag (e : Element) (place : Nat) : e.withId place = e.onTag (Tag.withId place) := by
  have same : e.tag.id? = e.id? := rfl
  by_cases own : e.id?.isSome
  · rw [Element.withId, Element.onTag, Tag.withId, same, if_pos own, if_pos own]
  · rw [Element.withId, Element.onTag, Tag.withId, same, if_neg own, if_neg own]
    rfl

theorem ofElement_eq_ofTag (e : Element) (place : Nat) : Match.ofElement e place = Match.ofTag e.tag place := by
  rw [Match.ofElement, withId_eq_onTag]
  rfl

theorem bare_withId (place : Nat) (t : Tag) : (t.withId place).bare = t.bare := by
  rw [Tag.withId]
  split <;> rfl

/-- Membership of paths is decided by this instance, so that it is one term in all modules. -/
instance : LawfulBEq Path := inferInstance

/-- An entry of a list of tags after identifiers were assigned at paths. -/
def named (place : Nat) (paths : List Path) (entry : Path × Tag) : Path × Tag :=
  if entry.1 ∈ paths then (entry.1, entry.2.withId (place + paths.idxOf entry.1)) else entry

theorem named_retag {place : Nat} {path : Path} {paths : List Path} (new : path ∉ paths) (entry : Path × Tag) :
    named (place + 1) paths (retag path (Tag.withId place) entry) = named place (path :: paths) entry := by
  obtain ⟨p, t⟩ := entry
  by_cases same : p = path
  · subst same
    simp [named, retag, new]
  · by_cases member : p ∈ paths
    · have later : (path :: paths).idxOf p = paths.idxOf p + 1 := List.idxOf_cons_ne paths (Ne.symm same)
      simp only [named, retag, same, if_false, member, if_true, List.mem_cons, or_true, later]
      rw [Nat.add_assoc, Nat.add_comm 1]
    · simp [named, retag, same, member]

/-! ## Paths of matches -/

theorem matchingPaths_sublist (d : Document) (q : Query) :
    (matchingPaths d q).Sublist (d.elements.map Prod.fst) := by
  rw [Document.elements, Element.elements, List.map_cons]
  exact (List.filter_sublist.map Prod.fst).cons _

theorem nodup_matchingPaths (d : Document) (q : Query) : (matchingPaths d q).Nodup :=
  d.root.nodup_elements.sublist (matchingPaths_sublist d q)

/-- The matching paths are those that lead to a matching element below the root. -/
theorem mem_matchingPaths_iff (d : Document) (q : Query) {path : Path} :
    path ∈ matchingPaths d q ↔ path ≠ [] ∧ ∃ e, d.root.elementAt? path = some e ∧ q.isMatch e = true := by
  rw [matchingPaths, List.mem_map]
  constructor
  · rintro ⟨⟨p, e⟩, kept, rfl⟩
    obtain ⟨member, matched⟩ := List.mem_filter.mp kept
    obtain ⟨long, leads⟩ := d.root.mem_descendants_iff.mp member
    exact ⟨long, e, leads, matched⟩
  · rintro ⟨long, e, leads, matched⟩
    exact ⟨(path, e), List.mem_filter.mpr ⟨d.root.mem_descendants_iff.mpr ⟨long, leads⟩, matched⟩, rfl⟩

/-! ## Assigning -/

/-- What assigning identifiers at distinct paths does, the first of them being at `place`. -/
theorem assignIdsFrom_spec (paths : List Path) (distinct : paths.Nodup) (place : Nat) (d : Document)
    (lead : ∀ path ∈ paths, ∃ t, (path, t) ∈ d.root.tags) :
    (assignIdsFrom place d paths).1.skeleton = d.skeleton ∧
      (assignIdsFrom place d paths).1.root.tags = d.root.tags.map (named place paths) ∧
      (assignIdsFrom place d paths).2.length = paths.length ∧
      ∀ (n : Nat) (path : Path), paths[n]? = some path → ∃ t, (path, t) ∈ d.root.tags ∧
        (assignIdsFrom place d paths).2[n]? = some (Match.ofTag t (place + n)) := by
  induction paths generalizing place d with
  | nil =>
    have kept : ∀ entry ∈ d.root.tags, named place [] entry = id entry := fun entry _ => by simp [named]
    refine ⟨rfl, ?_, rfl, by simp⟩
    rw [List.map_congr_left kept, List.map_id]
    rfl
  | cons path paths ih =>
    obtain ⟨new, rest⟩ := List.nodup_cons.mp distinct
    obtain ⟨t, top⟩ := lead path (by simp)
    obtain ⟨e, leads, rfl⟩ := d.root.mem_tags_iff.mp top
    have changed : (d.modifyAt path (·.withId place)).root = d.root.modifyAt (Element.onTag (Tag.withId place)) path := by
      rw [Document.modifyAt, funext fun e => withId_eq_onTag e place]
    have tags : (d.modifyAt path (·.withId place)).root.tags = d.root.tags.map (retag path (Tag.withId place)) := by
      rw [changed, Element.tags_modifyAt]
    have elsewhere {p : Path} {t : Tag} (other : p ≠ path) :
        (p, t) ∈ (d.modifyAt path (·.withId place)).root.tags ↔ (p, t) ∈ d.root.tags := by
      rw [tags, mem_map_retag_of_ne other]
    have step : assignIdsFrom place d (path :: paths) =
        ((assignIdsFrom (place + 1) (d.modifyAt path (·.withId place)) paths).1, Match.ofElement e place ::
          (assignIdsFrom (place + 1) (d.modifyAt path (·.withId place)) paths).2) := by
      rw [assignIdsFrom, leads]
    obtain ⟨shape, later, count, found⟩ := ih rest (place + 1) (d.modifyAt path (·.withId place)) (by
      intro p member
      obtain ⟨t, listed⟩ := lead p (by simp [member])
      have other : p ≠ path := fun same => new (same ▸ member)
      exact ⟨t, (elsewhere other).mpr listed⟩)
    rw [step]
    refine ⟨?_, ?_, by simp [count], ?_⟩
    · rw [shape, Document.skeleton, changed, Element.skeleton_modifyAt (bare_withId place)]
      rfl
    · rw [later, tags, List.map_map]
      exact List.map_congr_left fun entry _ => named_retag new entry
    · intro n p here
      cases n with
      | zero =>
        obtain rfl := Option.some.inj here
        exact ⟨e.tag, top, by rw [ofElement_eq_ofTag]; rfl⟩
      | succ n =>
        obtain ⟨t, listed, told⟩ := found n p here
        have other : p ≠ path := fun same => new (same ▸ List.mem_of_getElem? here)
        refine ⟨t, (elsewhere other).mp listed, ?_⟩
        rw [← Nat.add_assoc, Nat.add_right_comm]
        exact told

/-- What selecting does, for a query. -/
theorem Document.select_spec (d : Document) (q : Query) :
    (d.select q).1.skeleton = d.skeleton ∧
      (d.select q).1.root.tags = d.root.tags.map (named 0 (matchingPaths d q)) ∧
      (d.select q).2.length = (matchingPaths d q).length ∧
      ∀ (n : Nat) (path : Path), (matchingPaths d q)[n]? = some path → ∃ t, (path, t) ∈ d.root.tags ∧
        (d.select q).2[n]? = some (Match.ofTag t n) := by
  have listed : ∀ path ∈ matchingPaths d q, ∃ t, (path, t) ∈ d.root.tags := by
    intro path member
    obtain ⟨-, e, leads, -⟩ := (mem_matchingPaths_iff d q).mp member
    exact ⟨e.tag, d.root.mem_tags_iff.mpr ⟨e, leads, rfl⟩⟩
  have spec := assignIdsFrom_spec _ (nodup_matchingPaths d q) 0 d listed
  simp only [Nat.zero_add] at spec
  exact spec

/-- The tags after a selection: those of the matches with their identifiers, and all others as before. -/
theorem mem_tags_select_iff (d : Document) (q : Query) {path : Path} {u : Tag} :
    (path, u) ∈ (d.select q).1.root.tags ↔
      (∃ n t, (matchingPaths d q)[n]? = some path ∧ (path, t) ∈ d.root.tags ∧ u = t.withId n) ∨
        path ∉ matchingPaths d q ∧ (path, u) ∈ d.root.tags := by
  obtain ⟨-, tags, -, -⟩ := d.select_spec q
  rw [tags, List.mem_map]
  constructor
  · rintro ⟨⟨p, t⟩, member, same⟩
    by_cases matched : p ∈ matchingPaths d q
    · rw [named, if_pos matched, Nat.zero_add] at same
      obtain ⟨rfl, rfl⟩ := Prod.mk.inj same
      exact .inl ⟨_, t, List.getElem?_idxOf matched, member, rfl⟩
    · rw [named, if_neg matched] at same
      obtain ⟨rfl, rfl⟩ := Prod.mk.inj same
      exact .inr ⟨matched, member⟩
  · rintro (⟨n, t, here, member, rfl⟩ | ⟨unmatched, member⟩)
    · obtain ⟨inside, rfl⟩ := List.getElem?_eq_some_iff.mp here
      have place := (nodup_matchingPaths d q).idxOf_getElem n inside
      exact ⟨_, member, by rw [named, if_pos (List.getElem_mem inside), place, Nat.zero_add]⟩
    · exact ⟨_, member, if_neg unmatched⟩

end SvgEdit
