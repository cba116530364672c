import SvgEdit.Proofs.Acceptance
import SvgEdit.Proofs.ReadAgain
import SvgEdit.Proofs.Tree
import SvgEdit.Shrink.Removal

/-!
# Prefixes and where they are declared

The prefix of a name has to be declared by an attribute of the element itself or of one around it. On the
tree this is one walk down, with the prefixes that are declared so far.
-/
namespace SvgEdit

/-! ## Prefixes of names -/

/-- The part of a name before its first colon, if it has a colon. -/
def namePrefix? (name : Text) : Option Text := (Text.cut? [':'] name).map (·.1)

example : namePrefix? "xlink:href".toList = some "xlink".toList := by decide

/-- The prefixes that need no declaration. -/
def reservedPrefixes : List Text := ["xml", "xmlns"].map String.toList

theorem mem_of_namePrefix? {name p : Text} (found : namePrefix? name = some p) : ':' ∈ name := by
  rw [namePrefix?, Option.map_eq_some_iff] at found
  obtain ⟨⟨before, after⟩, cut, -⟩ := found
  rw [Text.eq_append_of_cut? cut]
  simp

/-- The prefixes in names, other than the exempt ones, are known. -/
def PrefixesKnown (exempt : List Text) (known : Text → Prop) (names : List Text) : Prop :=
  ∀ p ∈ names.filterMap namePrefix?, p ∉ exempt → known p

instance (exempt : List Text) (known : Text → Prop) [DecidablePred known] (names : List Text) :
    Decidable (PrefixesKnown exempt known names) := inferInstanceAs (Decidable (∀ p ∈ _, _))

variable {exempt : List Text} {counts : Attribute → Prop}

theorem PrefixesKnown.mono {known known' : Text → Prop} {names names' : List Text}
    (h : PrefixesKnown exempt known names) (more : ∀ p, p ∉ exempt → known p → known' p)
    (part : ∀ name ∈ names', name ∈ names ∨ ':' ∉ name) :
    PrefixesKnown exempt known' names' := by
  intro p member new
  obtain ⟨name, listed, found⟩ := List.mem_filterMap.mp member
  rcases part name listed with old | noColon
  · exact more p new (h p (List.mem_filterMap.mpr ⟨name, old, found⟩) new)
  · exact absurd (mem_of_namePrefix? found) noColon

/-! ## Documents -/

namespace Tag

/-- The name of the element and those of its attributes. -/
def names (t : Tag) : List Text := t.name :: t.attributes.map Attribute.name

/-- An attribute that counts declares the prefix. -/
def Declares (counts : Attribute → Prop) (t : Tag) (p : Text) : Prop :=
  ∃ a ∈ t.attributes, counts a ∧ a.name = Shrink.namespaceStart ++ p

instance (counts : Attribute → Prop) [DecidablePred counts] (t : Tag) (p : Text) : Decidable (t.Declares counts p) :=
  inferInstanceAs (Decidable (∃ a ∈ t.attributes, _))

end Tag

/--
Every prefix in the name of an element or of an attribute, other than the exempt ones, is declared by an
attribute that counts, on that element or on one around it.
-/
def Document.DeclaresPrefixes (exempt : List Text) (counts : Attribute → Prop) (d : Document) : Prop :=
  ∀ entry ∈ d.elements, PrefixesKnown exempt
    (fun p => ∃ outer ∈ d.elements, outer.1 <+: entry.1 ∧ outer.2.tag.Declares counts p) entry.2.tag.names

instance (exempt : List Text) (counts : Attribute → Prop) [DecidablePred counts] (d : Document) :
    Decidable (d.DeclaresPrefixes exempt counts) := inferInstanceAs (Decidable (∀ entry ∈ d.elements, _))

namespace Content

/-- The same along the tree, with the prefixes that are known from outside. -/
def Declared (exempt : List Text) (counts : Attribute → Prop) : Content → (Text → Prop) → Prop
  | nil, _ => True
  | raw _ next, known => next.Declared exempt counts known
  | element tag inside next, known =>
    PrefixesKnown exempt (fun p => known p ∨ tag.Declares counts p) tag.names ∧
      inside.Declared exempt counts (fun p => known p ∨ tag.Declares counts p) ∧ next.Declared exempt counts known

/-- The elements around one that is inside of the first element, or around that element itself. -/
theorem exists_outer_inside {P : Element → Prop} {tag : Tag} {inside next : Content} {n : Nat} {path : Path} :
    (∃ outer ∈ (element tag inside next).elementsFrom n, outer.1 <+: n :: path ∧ P outer.2) ↔
      P ⟨tag, inside⟩ ∨ ∃ outer ∈ inside.elementsFrom 0, outer.1 <+: path ∧ P outer.2 := by
  rw [elementsFrom, List.cons_append]
  constructor
  · rintro ⟨⟨place, e⟩, member, starts, holds⟩
    rcases List.mem_cons.mp member with same | member
    · obtain ⟨-, rfl⟩ := Prod.mk.inj same
      exact .inl holds
    rcases List.mem_append.mp member with within | later
    · obtain ⟨⟨below, x⟩, listed, same⟩ := List.mem_map.mp within
      obtain ⟨rfl, rfl⟩ := Prod.mk.inj same
      exact .inr ⟨(below, x), listed, (List.cons_prefix_cons.mp starts).2, holds⟩
    · obtain ⟨m, rest, -, rfl, -⟩ := next.mem_elementsFrom_iff.mp later
      have same := (List.cons_prefix_cons.mp starts).1
      omega
  · rintro (here | ⟨⟨below, x⟩, listed, starts, holds⟩)
    · exact ⟨_, List.mem_cons_self, List.prefix_append [n] path, here⟩
    · exact ⟨(n :: below, x), List.mem_cons_of_mem _ (List.mem_append_left _ (List.mem_map_of_mem listed)),
        List.cons_prefix_cons.mpr ⟨rfl, starts⟩, holds⟩

/-- The elements around one that comes after the first element. -/
theorem exists_outer_next {P : Element → Prop} {tag : Tag} {inside next : Content} {n : Nat}
    {entry : Path × Element} (later : entry ∈ next.elementsFrom (n + 1)) :
    (∃ outer ∈ (element tag inside next).elementsFrom n, outer.1 <+: entry.1 ∧ P outer.2) ↔
      ∃ outer ∈ next.elementsFrom (n + 1), outer.1 <+: entry.1 ∧ P outer.2 := by
  obtain ⟨path, e⟩ := entry
  obtain ⟨m, rest, -, rfl, -⟩ := next.mem_elementsFrom_iff.mp later
  have apart (below : Path) : ¬ n :: below <+: (n + 1 + m) :: rest := fun starts => by
    have same := (List.cons_prefix_cons.mp starts).1
    omega
  rw [elementsFrom, List.cons_append]
  constructor
  · rintro ⟨outer, member, starts, holds⟩
    rcases List.mem_cons.mp member with rfl | member
    · exact absurd starts (apart [])
    rcases List.mem_append.mp member with within | after
    · obtain ⟨below, -, rfl⟩ := List.mem_map.mp within
      exact absurd starts (apart below.1)
    · exact ⟨outer, after, starts, holds⟩
  · rintro ⟨outer, after, starts, holds⟩
    exact ⟨outer, List.mem_cons_of_mem _ (List.mem_append_right _ after), starts, holds⟩

theorem declared_iff (c : Content) (n : Nat) (known : Text → Prop) :
    c.Declared exempt counts known ↔ ∀ entry ∈ c.elementsFrom n, PrefixesKnown exempt
      (fun p => known p ∨ ∃ outer ∈ c.elementsFrom n, outer.1 <+: entry.1 ∧ outer.2.tag.Declares counts p)
      entry.2.tag.names := by
  induction c generalizing n known with
  | nil => exact ⟨fun _ _ member => absurd member List.not_mem_nil, fun _ => trivial⟩
  | raw source next ih => exact ih (n + 1) known
  | element tag inside next ihInside ihNext =>
    have inner (path : Path) (p : Text) :
        (known p ∨ ∃ outer ∈ (element tag inside next).elementsFrom n,
          outer.1 <+: n :: path ∧ outer.2.tag.Declares counts p) ↔
        (known p ∨ tag.Declares counts p) ∨ ∃ outer ∈ inside.elementsFrom 0,
          outer.1 <+: path ∧ outer.2.tag.Declares counts p := by
      rw [exists_outer_inside (P := fun e => e.tag.Declares counts p), or_assoc]
    have none (p : Text) : ¬ ∃ outer ∈ inside.elementsFrom 0, outer.1 <+: [] ∧ outer.2.tag.Declares counts p := by
      rintro ⟨outer, listed, starts, -⟩
      obtain ⟨m, rest, -, same, -⟩ := inside.mem_elementsFrom_iff.mp listed
      rw [List.prefix_nil.mp starts] at same
      cases same
    rw [Declared, forall_elementsFrom_element, ihInside 0, ihNext (n + 1)]
    refine and_congr ?_ (and_congr (forall₂_congr fun entry listed => ?_) (forall₂_congr fun entry listed => ?_))
    · simp only [PrefixesKnown, inner, none, or_false]
    · simp only [PrefixesKnown, inner]
    · have later (p : Text) :
          (∃ outer ∈ (element tag inside next).elementsFrom n, outer.1 <+: entry.1 ∧ outer.2.tag.Declares counts p) ↔
            ∃ outer ∈ next.elementsFrom (n + 1), outer.1 <+: entry.1 ∧ outer.2.tag.Declares counts p :=
        exists_outer_next (P := fun e => e.tag.Declares counts p) listed
      simp only [PrefixesKnown, later]

theorem declared_after {texts : List Text} {c : Content} {known : Text → Prop} :
    (after texts c).Declared exempt counts known ↔ c.Declared exempt counts known := by
  induction texts with
  | nil => exact Iff.rfl
  | cons _ _ ih => exact ih

end Content

/-- The walk through all of a document, with nothing known at the beginning. -/
theorem Document.declaresPrefixes_iff {d : Document} (before behind : List Text) :
    d.DeclaresPrefixes exempt counts ↔
      (Content.after before (.element d.root.tag d.root.content (.after behind .nil))).Declared exempt counts
        fun _ => False := by
  have rest : (Content.after behind .nil).Declared exempt counts fun _ => False := Content.declared_after.mpr trivial
  have alone : (Content.element d.root.tag d.root.content .nil).elementsFrom 0 =
      d.elements.map fun entry => (0 :: entry.1, entry.2) := by
    rw [Content.elementsFrom, Content.elementsFrom, List.append_nil]
    rfl
  have same : (Content.element d.root.tag d.root.content (.after behind .nil)).Declared exempt counts (fun _ => False) ↔
      (Content.element d.root.tag d.root.content .nil).Declared exempt counts fun _ => False :=
    and_congr_right fun _ => and_congr_right fun _ => ⟨fun _ => trivial, fun _ => rest⟩
  rw [Content.declared_after, same, Content.declared_iff _ 0, alone, List.forall_mem_map]
  simp only [DeclaresPrefixes, false_or, List.mem_map, exists_exists_and_eq_and, List.cons_prefix_cons, true_and]

end SvgEdit
