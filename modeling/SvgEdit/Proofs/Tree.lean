import SvgEdit.Markup.Document
import Mathlib

/-!
# Paths and tags

The list of the elements of a tree holds every path that leads to an element, once, with that
element, in the order of the document. What changes one tag changes one entry of that list and keeps
the skeleton of the tree, which is all of it but the attributes; skeleton and tags make up the tree.
-/
namespace SvgEdit

/-! ## Paths -/

namespace Content

theorem mem_elementsFrom_iff (c : Content) {place : Nat} {path : Path} {e : Element} :
    (path, e) ∈ c.elementsFrom place ↔
      ∃ n rest inner, path = (place + n) :: rest ∧ c.element? n = some inner ∧ inner.elementAt? rest = some e := by
  induction c generalizing place path e with
  | nil => simp [elementsFrom, element?]
  | raw source next ih =>
    rw [elementsFrom, ih]
    constructor
    · rintro ⟨n, rest, inner, rfl, found, leads⟩
      exact ⟨n + 1, rest, inner, by rw [Nat.add_assoc, Nat.add_comm 1 n], found, leads⟩
    · rintro ⟨n, rest, inner, rfl, found, leads⟩
      cases n with
      | zero => simp [element?] at found
      | succ n => exact ⟨n, rest, inner, by rw [Nat.add_assoc, Nat.add_comm 1 n], found, leads⟩
  | element tag inside next ihInside ihNext =>
    rw [elementsFrom, List.cons_append, List.mem_cons, List.mem_append, List.mem_map, ihNext]
    constructor
    · rintro (here | ⟨⟨below, x⟩, member, same⟩ | ⟨n, rest, inner, rfl, found, leads⟩)
      · obtain ⟨rfl, rfl⟩ := Prod.mk.inj here
        exact ⟨0, [], ⟨tag, inside⟩, rfl, rfl, rfl⟩
      · obtain ⟨rfl, rfl⟩ := Prod.mk.inj same
        obtain ⟨n, rest, inner, rfl, found, leads⟩ := ihInside.mp member
        refine ⟨0, n :: rest, ⟨tag, inside⟩, by simp, rfl, ?_⟩
        simp [Element.elementAt?, found, leads]
      · exact ⟨n + 1, rest, inner, by rw [Nat.add_assoc, Nat.add_comm 1 n], found, leads⟩
    · rintro ⟨n, rest, inner, rfl, found, leads⟩
      cases n with
      | zero =>
        obtain rfl := Option.some.inj found
        cases rest with
        | nil => exact .inl (by rw [← Option.some.inj leads]; rfl)
        | cons m rest =>
          rw [Element.elementAt?] at leads
          split at leads
          · next inner' found' =>
            exact .inr (.inl ⟨(m :: rest, e), ihInside.mpr ⟨m, rest, inner', by simp, found', leads⟩, rfl⟩)
          · cases leads
      | succ n =>
        exact .inr (.inr ⟨n, rest, inner, by rw [Nat.add_assoc, Nat.add_comm 1 n], found, leads⟩)

/-- The first places of listed paths count from the first place of the content. -/
theorem le_of_mem_elementsFrom (c : Content) {place first : Nat} {rest : Path} {e : Element}
    (member : (first :: rest, e) ∈ c.elementsFrom place) : place ≤ first := by
  obtain ⟨n, _, _, same, -, -⟩ := c.mem_elementsFrom_iff.mp member
  have heads := (List.cons.inj same).1
  omega

/-- Listed paths are in the order of the document, which is that of their places. -/
theorem pairwise_elementsFrom (c : Content) (place : Nat) :
    ((c.elementsFrom place).map Prod.fst).Pairwise (· < ·) := by
  induction c generalizing place with
  | nil => exact .nil
  | raw source next ih => exact ih (place + 1)
  | element tag inside next ihInside ihNext =>
    have below : ((inside.elementsFrom 0).map fun entry => (place :: entry.1, entry.2)).map Prod.fst =
        ((inside.elementsFrom 0).map Prod.fst).map (place :: ·) := by
      rw [List.map_map, List.map_map]
      rfl
    have later : ∀ path ∈ (next.elementsFrom (place + 1)).map Prod.fst, ∀ rest, place :: rest < path := by
      intro path member rest
      obtain ⟨⟨_, e⟩, listed, rfl⟩ := List.mem_map.mp member
      obtain ⟨n, more, _, rfl, -, -⟩ := next.mem_elementsFrom_iff.mp listed
      exact List.cons_lt_cons_iff.mpr (.inl (by omega))
    rw [elementsFrom, List.cons_append, List.map_cons, List.map_append, below, List.pairwise_cons, List.pairwise_append,
      List.pairwise_map]
    refine ⟨fun path member => ?_, ?_, ihNext (place + 1), ?_⟩
    · rcases List.mem_append.mp member with inner | after
      · obtain ⟨rest, listed, rfl⟩ := List.mem_map.mp inner
        obtain ⟨⟨_, e⟩, entry, rfl⟩ := List.mem_map.mp listed
        obtain ⟨n, more, _, rfl, -, -⟩ := inside.mem_elementsFrom_iff.mp entry
        exact List.cons_lt_cons_iff.mpr (.inr ⟨rfl, List.nil_lt_cons _ _⟩)
      · exact later path after []
    · exact (ihInside 0).imp fun less => List.cons_lt_cons_iff.mpr (.inr ⟨rfl, less⟩)
    · intro path inner other after
      obtain ⟨rest, -, rfl⟩ := List.mem_map.mp inner
      exact later other after rest

end Content

namespace Element

/-- The listed elements are those that paths lead to. -/
theorem mem_elements_iff (e : Element) {path : Path} {x : Element} :
    (path, x) ∈ e.elements ↔ e.elementAt? path = some x := by
  rw [elements, List.mem_cons, descendants, Content.mem_elementsFrom_iff]
  cases path with
  | nil => simp [elementAt?, eq_comm]
  | cons n rest =>
    rw [elementAt?]
    constructor
    · rintro (root | ⟨m, rest', inner, same, found, leads⟩)
      · cases root
      · obtain ⟨first, rfl⟩ := List.cons.inj same
        rw [Nat.zero_add] at first
        subst first
        simp [found, leads]
    · intro leads
      split at leads
      · next inner found => exact .inr ⟨n, rest, inner, by simp, found, leads⟩
      · cases leads

/-- The elements below are those that paths lead to, but for the root. -/
theorem mem_descendants_iff (e : Element) {path : Path} {x : Element} :
    (path, x) ∈ e.descendants ↔ path ≠ [] ∧ e.elementAt? path = some x := by
  rw [← e.mem_elements_iff, elements, List.mem_cons]
  constructor
  · intro member
    obtain ⟨n, rest, _, rfl, -, -⟩ := e.content.mem_elementsFrom_iff.mp member
    exact ⟨List.cons_ne_nil _ _, .inr member⟩
  · rintro ⟨long, root | member⟩
    · exact absurd (Prod.mk.inj root).1 long
    · exact member

/-- The root comes first, and then what is below it in the order of the document. -/
theorem pairwise_elements (e : Element) : (e.elements.map Prod.fst).Pairwise (· < ·) := by
  rw [elements, List.map_cons, List.pairwise_cons]
  refine ⟨fun path member => ?_, e.content.pairwise_elementsFrom 0⟩
  obtain ⟨⟨_, x⟩, listed, rfl⟩ := List.mem_map.mp member
  obtain ⟨n, rest, _, rfl, -, -⟩ := e.content.mem_elementsFrom_iff.mp listed
  exact List.nil_lt_cons _ rest

theorem nodup_elements (e : Element) : (e.elements.map Prod.fst).Nodup := by
  refine e.pairwise_elements.imp ?_
  rintro path _ less rfl
  exact List.lt_irrefl path less

end Element

/-! ## Tags -/

/-- A tag without its attributes. -/
def Tag.bare (t : Tag) : Tag := { t with attributes := [] }

/-- An operation on tags as one on elements. -/
def Element.onTag (g : Tag → Tag) (e : Element) : Element := ⟨g e.tag, e.content⟩

/-- An entry of a list of tags, `g` applied to its tag if it stands at a path. -/
def retag (path : Path) (g : Tag → Tag) (entry : Path × Tag) : Path × Tag :=
  if entry.1 = path then (entry.1, g entry.2) else entry

/-- An element with its path, as its tag with its path. -/
def tagEntry (entry : Path × Element) : Path × Tag := (entry.1, entry.2.tag)

/-- An entry of a list of tags, seen from one level higher. -/
def lowered (place : Nat) (entry : Path × Tag) : Path × Tag := (place :: entry.1, entry.2)

/-- The tags of an element and of those below it, parents first, with their paths. -/
def Element.tags (e : Element) : List (Path × Tag) := e.elements.map tagEntry

/-- Listed tags stay as they are if their paths begin elsewhere. -/
theorem map_retag_of_ne {tags : List (Path × Tag)} {place : Nat} {path : Path} (g : Tag → Tag)
    (elsewhere : ∀ entry ∈ tags, ∀ rest, entry.1 ≠ place :: rest) :
    tags.map (retag (place :: path) g) = tags := by
  have kept : ∀ entry ∈ tags, retag (place :: path) g entry = id entry := by
    intro entry member
    rw [retag, if_neg (elsewhere entry member path)]
    rfl
  rw [List.map_congr_left kept, List.map_id]

theorem mem_map_retag_of_ne {tags : List (Path × Tag)} {path other : Path} {g : Tag → Tag} {t : Tag}
    (ne : other ≠ path) : (other, t) ∈ tags.map (retag path g) ↔ (other, t) ∈ tags := by
  rw [List.mem_map]
  constructor
  · rintro ⟨⟨p, u⟩, member, same⟩
    by_cases here : p = path
    · subst here
      simp only [retag, if_true, Prod.mk.injEq] at same
      exact absurd same.1.symm ne
    · rw [retag, if_neg here] at same
      exact same ▸ member
  · intro member
    exact ⟨(other, t), member, by rw [retag, if_neg ne]⟩

theorem map_retag_lowered (tags : List (Path × Tag)) (place : Nat) (path : Path) (g : Tag → Tag) :
    (tags.map (lowered place)).map (retag (place :: path) g) = (tags.map (retag path g)).map (lowered place) := by
  rw [List.map_map, List.map_map]
  apply List.map_congr_left
  rintro ⟨q, t⟩ -
  by_cases same : q = path <;> simp [retag, lowered, same]

namespace Content

/-- The content, its attributes taken away. -/
def skeleton : Content → Content
  | nil => nil
  | raw source next => raw source next.skeleton
  | element tag inside next => element tag.bare inside.skeleton next.skeleton

/-- The tags of a content whose first place is `place`, parents first, with their paths. -/
def tagsFrom (place : Nat) (c : Content) : List (Path × Tag) := (c.elementsFrom place).map tagEntry

theorem tagsFrom_element (place : Nat) (tag : Tag) (inside next : Content) :
    (element tag inside next).tagsFrom place =
      (Element.tags ⟨tag, inside⟩).map (lowered place) ++ next.tagsFrom (place + 1) := by
  simp [tagsFrom, elementsFrom, Element.tags, Element.elements, Element.descendants, tagEntry, lowered,
    Function.comp_def]

theorem le_of_mem_tagsFrom (c : Content) {place first : Nat} {rest : Path} {t : Tag}
    (member : (first :: rest, t) ∈ c.tagsFrom place) : place ≤ first := by
  obtain ⟨⟨path, e⟩, listed, same⟩ := List.mem_map.mp member
  obtain ⟨rfl, -⟩ := Prod.mk.inj same
  exact c.le_of_mem_elementsFrom listed

theorem skeleton_modify {f : Element → Element} (bare : ∀ e, (f e).tag.bare = e.tag.bare)
    (inside : ∀ e, (f e).content.skeleton = e.content.skeleton) (c : Content) (n : Nat) :
    (c.modify f n).skeleton = c.skeleton := by
  induction c generalizing n with
  | nil => rfl
  | raw source next ih =>
    cases n with
    | zero => rfl
    | succ n => rw [modify, skeleton, ih, skeleton]
  | element tag inner next _ ih =>
    cases n with
    | zero => rw [modify, skeleton, bare, inside, skeleton]
    | succ n => rw [modify, skeleton, ih, skeleton]

theorem tagsFrom_modify {f : Element → Element} {path : Path} {g : Tag → Tag}
    (changes : ∀ e, (f e).tags = e.tags.map (retag path g)) (c : Content) (place n : Nat) :
    (c.modify f n).tagsFrom place = (c.tagsFrom place).map (retag ((place + n) :: path) g) := by
  have later (next : Content) (place : Nat) :
      (next.tagsFrom (place + 1)).map (retag (place :: path) g) = next.tagsFrom (place + 1) := by
    apply map_retag_of_ne
    rintro ⟨_, t⟩ member rest rfl
    have := next.le_of_mem_tagsFrom member
    omega
  induction c generalizing place n with
  | nil => rfl
  | raw source next ih =>
    cases n with
    | zero => exact (later next place).symm
    | succ n =>
      rw [← Nat.add_assoc, Nat.add_right_comm]
      exact ih (place + 1) n
  | element tag inside next _ ih =>
    cases n with
    | zero =>
      have here := map_retag_lowered (Element.tags ⟨tag, inside⟩) place path g
      rw [← changes] at here
      rw [modify, tagsFrom_element, tagsFrom_element, List.map_append, Nat.add_zero place, later, here]
    | succ n =>
      have others : (Element.tags ⟨tag, inside⟩).map (lowered place) =
          ((Element.tags ⟨tag, inside⟩).map (lowered place)).map (retag ((place + (n + 1)) :: path) g) := by
        refine (map_retag_of_ne g ?_).symm
        intro entry member rest same
        obtain ⟨inner, -, rfl⟩ := List.mem_map.mp member
        have := (List.cons.inj same).1
        omega
      rw [modify, tagsFrom_element, tagsFrom_element, List.map_append, ← others, ih, Nat.add_assoc,
        Nat.add_comm 1 n]

end Content

namespace Element

/-- The element, all its attributes taken away. -/
def skeleton (e : Element) : Element := ⟨e.tag.bare, e.content.skeleton⟩

theorem skeleton_modifyAt {g : Tag → Tag} (bare : ∀ t, (g t).bare = t.bare) (path : Path) (e : Element) :
    (e.modifyAt (onTag g) path).skeleton = e.skeleton := by
  induction path generalizing e with
  | nil => simp [modifyAt, onTag, skeleton, bare]
  | cons n path ih =>
    have same (x : Element) := ih x
    simp only [skeleton, Element.mk.injEq] at same
    simp only [modifyAt, skeleton]
    rw [Content.skeleton_modify (fun x => (same x).1) fun x => (same x).2]

theorem tags_eq (e : Element) : e.tags = ([], e.tag) :: e.content.tagsFrom 0 := rfl

theorem ne_nil_of_mem_tagsFrom (c : Content) (place : Nat) : ∀ entry ∈ c.tagsFrom place, entry.1 ≠ [] := by
  intro entry member empty
  obtain ⟨⟨path, e⟩, listed, rfl⟩ := List.mem_map.mp member
  obtain ⟨n, rest, _, long, -, -⟩ := c.mem_elementsFrom_iff.mp listed
  rw [long] at empty
  cases empty

/-- What changes the tag at a path changes that entry of the list of tags. -/
theorem tags_modifyAt (g : Tag → Tag) (path : Path) (e : Element) :
    (e.modifyAt (onTag g) path).tags = e.tags.map (retag path g) := by
  induction path generalizing e with
  | nil =>
    have kept : ∀ entry ∈ e.content.tagsFrom 0, retag [] g entry = id entry := by
      intro entry member
      rw [retag, if_neg (ne_nil_of_mem_tagsFrom e.content 0 entry member)]
      rfl
    rw [tags_eq, tags_eq, List.map_cons, List.map_congr_left kept, List.map_id]
    rfl
  | cons n path ih =>
    have below := Content.tagsFrom_modify ih e.content 0 n
    rw [Nat.zero_add] at below
    rw [tags_eq, tags_eq, List.map_cons, ← below]
    rfl

theorem mem_tags_iff (e : Element) {path : Path} {t : Tag} :
    (path, t) ∈ e.tags ↔ ∃ x, e.elementAt? path = some x ∧ x.tag = t := by
  rw [tags, List.mem_map]
  constructor
  · rintro ⟨⟨p, x⟩, member, same⟩
    obtain ⟨rfl, rfl⟩ := Prod.mk.inj same
    exact ⟨x, e.mem_elements_iff.mp member, rfl⟩
  · rintro ⟨x, leads, rfl⟩
    exact ⟨(path, x), e.mem_elements_iff.mpr leads, rfl⟩

theorem map_fst_tags (e : Element) : e.tags.map Prod.fst = e.elements.map Prod.fst := by
  rw [tags, List.map_map]
  rfl

theorem tag_unique (e : Element) {path : Path} {t u : Tag} (left : (path, t) ∈ e.tags)
    (right : (path, u) ∈ e.tags) : t = u := by
  obtain ⟨x, leads, rfl⟩ := e.mem_tags_iff.mp left
  obtain ⟨y, leads', rfl⟩ := e.mem_tags_iff.mp right
  rw [Option.some.inj (leads.symm.trans leads')]

end Element

/-- The document, all its attributes taken away. -/
def Document.skeleton (d : Document) : Document := { d with root := d.root.skeleton }

/-! ## What skeleton and tags determine -/

theorem lowered_injective (place : Nat) : Function.Injective (lowered place) := by
  rintro ⟨p, t⟩ ⟨q, u⟩ same
  obtain ⟨paths, tags⟩ := Prod.mk.inj same
  exact Prod.ext (List.cons.inj paths).2 tags

namespace Content

theorem length_tagsFrom_skeleton (c : Content) (place : Nat) :
    (c.skeleton.tagsFrom place).length = (c.tagsFrom place).length := by
  induction c generalizing place with
  | nil => rfl
  | raw source next ih => exact ih (place + 1)
  | element tag inside next within ih =>
    simp only [skeleton, tagsFrom_element, Element.tags_eq, List.length_append, List.length_map, List.length_cons,
      within, ih]

/-- A content is known by its skeleton and its tags. -/
theorem eq_of_skeleton_of_tagsFrom {c c' : Content} (shape : c.skeleton = c'.skeleton) {place : Nat}
    (tags : c.tagsFrom place = c'.tagsFrom place) : c = c' := by
  induction c generalizing c' place with
  | nil =>
    cases c' with
    | nil => rfl
    | _ => cases shape
  | raw source next ih =>
    cases c' with
    | raw source' next' =>
      obtain ⟨rfl, later⟩ := Content.raw.inj shape
      have rest : next.tagsFrom (place + 1) = next'.tagsFrom (place + 1) := tags
      rw [ih later rest]
    | _ => cases shape
  | element tag inside next within ih =>
    cases c' with
    | element tag' inside' next' =>
      obtain ⟨-, below, later⟩ := Content.element.inj shape
      have long : ((Element.tags ⟨tag, inside⟩).map (lowered place)).length =
          ((Element.tags ⟨tag', inside'⟩).map (lowered place)).length := by
        simp only [List.length_map, Element.tags_eq, List.length_cons]
        rw [← length_tagsFrom_skeleton inside, ← length_tagsFrom_skeleton inside', below]
      rw [tagsFrom_element, tagsFrom_element] at tags
      obtain ⟨here, after⟩ := List.append_inj tags long
      obtain ⟨top, inner⟩ := List.cons.inj ((lowered_injective place).list_map here)
      obtain ⟨-, rfl⟩ := Prod.mk.inj top
      rw [within below inner, ih later after]
    | _ => cases shape

end Content

/-- A document is known by its skeleton and its tags. -/
theorem Document.eq_of_skeleton_of_tags {d d' : Document} (shape : d.skeleton = d'.skeleton)
    (tags : d.root.tags = d'.root.tags) : d = d' := by
  obtain ⟨prolog, ⟨tag, content⟩, epilog⟩ := d
  obtain ⟨prolog', ⟨tag', content'⟩, epilog'⟩ := d'
  obtain ⟨before, root, after⟩ := Document.mk.inj shape
  obtain ⟨top, below⟩ := List.cons.inj tags
  have here : tag = tag' := (Prod.mk.inj top).2
  have inside : content = content' := Content.eq_of_skeleton_of_tagsFrom (Element.mk.inj root).2 below
  rw [show prolog = prolog' from before, show epilog = epilog' from after, here, inside]

end SvgEdit
