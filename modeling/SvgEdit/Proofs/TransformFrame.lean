import SvgEdit.Proofs.SelectionFrame
import SvgEdit.Proofs.Stepwise

/-!
# What transforming leaves as it is

Selecting and applying a request give attributes values under a few names only, whatever the request
holds. All other attributes stay as they are spelled and where they are, and so does everything that is
no attribute. An identifier is given to a match that has none, and none is taken away or replaced.
-/
namespace SvgEdit

/-! ## Attributes under some names -/

namespace Attributes

/--
One list of attributes comes from the other by giving values under some names: other attributes stay as they
are, all keep their places, and what is new comes last.
-/
inductive ChangedUnder (names : List Text) : Attributes → Attributes → Prop
  | added {new : Attributes} (listed : ∀ a ∈ new, a.name ∈ names) : ChangedUnder names [] new
  | kept {a b : Attribute} {as bs : Attributes} (name : b.name = a.name) (other : a.name ∉ names → b = a)
      (later : ChangedUnder names as bs) : ChangedUnder names (a :: as) (b :: bs)

namespace ChangedUnder

variable {names : List Text} {as bs cs : Attributes}

theorem refl (names : List Text) (as : Attributes) : ChangedUnder names as as := by
  induction as with
  | nil => exact .added fun _ member => absurd member List.not_mem_nil
  | cons a as ih => exact .kept rfl (fun _ => rfl) ih

theorem name_mem (h : ChangedUnder names as bs) (listed : ∀ a ∈ as, a.name ∈ names) : ∀ b ∈ bs, b.name ∈ names := by
  induction h with
  | added new => exact new
  | kept name _ _ ih =>
    obtain ⟨here, listed⟩ := List.forall_mem_cons.mp listed
    exact List.forall_mem_cons.mpr ⟨name ▸ here, ih listed⟩

theorem trans (first : ChangedUnder names as bs) (second : ChangedUnder names bs cs) : ChangedUnder names as cs := by
  induction first generalizing cs with
  | added listed => exact .added (second.name_mem listed)
  | kept name other _ ih =>
    cases second with
    | kept name' other' later =>
      refine .kept (name'.trans name) (fun unlisted => ?_) (ih later)
      rw [other' (name ▸ unlisted), other unlisted]

theorem mono {more : List Text} (h : ChangedUnder names as bs) (within : ∀ name ∈ names, name ∈ more) :
    ChangedUnder more as bs := by
  induction h with
  | added listed => exact .added fun a member => within _ (listed a member)
  | kept name other _ ih => exact .kept name (fun unlisted => other fun listed => unlisted (within _ listed)) ih

theorem set {name : Text} (listed : name ∈ names) (value : Text) (as : Attributes) :
    ChangedUnder names as (as.set name value) := by
  induction as with
  | nil => exact .added fun a member => List.mem_singleton.mp member ▸ listed
  | cons a as ih =>
    rw [Attributes.set]
    by_cases same : a.name = name
    · rw [if_pos same]
      refine .kept ?_ (fun unlisted => absurd (same ▸ listed) unlisted) (.refl names as)
      split <;> rfl
    · rw [if_neg same]
      exact .kept rfl (fun _ => rfl) ih

theorem foldl_set (changes : List (Text × Text)) (listed : ∀ change ∈ changes, change.1 ∈ names) (as : Attributes) :
    ChangedUnder names as (changes.foldl (fun as (name, value) => as.set name value) as) := by
  induction changes generalizing as with
  | nil => exact .refl names as
  | cons change changes ih =>
    obtain ⟨here, listed⟩ := List.forall_mem_cons.mp listed
    exact (set here change.2 as).trans (ih listed _)

/-- Each attribute keeps its place, and those under other names are the same. -/
theorem exists_getElem? (h : ChangedUnder names as bs) {n : Nat} {a : Attribute} (there : as[n]? = some a) :
    ∃ b, bs[n]? = some b ∧ b.name = a.name ∧ (a.name ∉ names → b = a) := by
  induction h generalizing n with
  | added => cases there
  | @kept _ b _ _ name other _ ih =>
    cases n with
    | zero =>
      obtain rfl := Option.some.inj there
      exact ⟨b, rfl, name, other⟩
    | succ n => exact ih there

/-- What stands after all places that there were is under one of the names. -/
theorem name_mem_of_length_le (h : ChangedUnder names as bs) {n : Nat} {b : Attribute} (there : bs[n]? = some b)
    (after : as.length ≤ n) : b.name ∈ names := by
  induction h generalizing n with
  | added listed => exact listed b (List.mem_of_getElem? there)
  | kept _ _ _ ih =>
    cases n with
    | zero => cases after
    | succ n => exact ih there (Nat.le_of_succ_le_succ after)

end ChangedUnder
end Attributes

/-! ## Tags -/

/-- The names under which a request can give values. -/
def requestNames : List Text := transformName :: directNames

/-- What selecting and applying requests may make of a tag. -/
structure Tag.FramedAs (t u : Tag) : Prop where
  name : u.name = t.name
  /-- Every attribute keeps its place. -/
  placed : ∀ (n : Nat) (a : Attribute), t.attributes[n]? = some a → ∃ b : Attribute, u.attributes[n]? = some b ∧ b.name = a.name
  /-- Value and spelling of an attribute stay, unless identifiers or values for requests are under its name. -/
  kept : ∀ (n : Nat) (a : Attribute), t.attributes[n]? = some a → a.name ∉ idName :: requestNames → u.attributes[n]? = some a
  /-- New attributes come last, and under such names. -/
  added : ∀ (n : Nat) (b : Attribute), t.attributes.length ≤ n → u.attributes[n]? = some b → b.name ∈ idName :: requestNames
  /-- An identifier stays, as it is spelled. -/
  identified : ∀ id, t.id? = some id → u.id? = some id ∧
    ∀ (n : Nat) (a : Attribute), t.attributes[n]? = some a → a.name = idName → u.attributes[n]? = some a

theorem Request.changedUnder_onAttributes (r : Request) (as : Attributes) :
    as.ChangedUnder requestNames (r.onAttributes as) := by
  have direct : ∀ change ∈ r.directAttributes, change.1 ∈ requestNames := fun change member =>
    List.mem_cons_of_mem _ (r.name_mem_directNames change member)
  rw [onAttributes]
  split
  · exact (Attributes.ChangedUnder.set List.mem_cons_self _ as).trans (.foldl_set _ direct _)
  · exact .foldl_set _ direct _

/-- What holds of one application of a request holds of any number of them. -/
theorem Request.iterate_onTag (r : Request) (n : Nat) (t : Tag) :
    (r.onTag^[n] t).name = t.name ∧ t.attributes.ChangedUnder requestNames (r.onTag^[n] t).attributes ∧
      (r.onTag^[n] t).id? = t.id? := by
  induction n with
  | zero => exact ⟨rfl, .refl _ _, rfl⟩
  | succ n ih =>
    obtain ⟨name, changed, id⟩ := ih
    rw [Function.iterate_succ_apply']
    refine ⟨name, changed.trans (r.changedUnder_onAttributes _), ?_⟩
    rw [← id, Tag.id?, onTag, r.value?_onAttributes_id]
    rfl

theorem Tag.withId_of_id? {t : Tag} {id : Text} (own : t.id? = some id) (place : Nat) : t.withId place = t := by
  rw [withId, own]
  rfl

theorem Tag.changedUnder_withId (t : Tag) (place : Nat) : t.attributes.ChangedUnder [idName] (t.withId place).attributes := by
  cases own : t.id? with
  | some id =>
    rw [withId_of_id? own]
    exact .refl _ _
  | none =>
    rw [withId, own]
    exact .set List.mem_cons_self _ _

/-- The identifier is given first, if at all, and then the request is applied any number of times. -/
theorem Tag.framedAs_iterate_onTag (r : Request) (n : Nat) {t selected : Tag}
    (given : selected = t ∨ ∃ place, selected = t.withId place) : t.FramedAs (r.onTag^[n] selected) := by
  obtain ⟨name, applied, id⟩ := r.iterate_onTag n selected
  have bare : selected.bare = t.bare := by
    obtain rfl | ⟨place, rfl⟩ := given
    · rfl
    · exact bare_withId place t
  have changed : t.attributes.ChangedUnder (idName :: requestNames) (r.onTag^[n] selected).attributes := by
    have selects : t.attributes.ChangedUnder [idName] selected.attributes := by
      obtain rfl | ⟨place, rfl⟩ := given
      · exact .refl _ _
      · exact t.changedUnder_withId place
    exact (selects.mono fun _ member => List.mem_append_left requestNames member).trans
      (applied.mono fun _ member => List.mem_cons_of_mem _ member)
  have bareName : selected.bare.name = t.bare.name := by rw [bare]
  refine ⟨name.trans bareName, ?_, ?_, ?_, ?_⟩
  · intro n a there
    obtain ⟨b, found, name, -⟩ := changed.exists_getElem? there
    exact ⟨b, found, name⟩
  · intro n a there other
    obtain ⟨b, found, -, same⟩ := changed.exists_getElem? there
    exact same other ▸ found
  · exact fun n b after there => changed.name_mem_of_length_le there after
  · intro own has
    obtain rfl : selected = t := by
      obtain rfl | ⟨place, rfl⟩ := given
      · rfl
      · exact withId_of_id? has place
    refine ⟨id.trans has, fun n a there named => ?_⟩
    have notRequested : idName ∉ requestNames := by decide
    obtain ⟨b, found, -, same⟩ := applied.exists_getElem? there
    exact same (named ▸ notRequested) ▸ found

/-! ## Documents -/

/--
Between the document that was read and the one that is written after a request for all matches, the skeleton
stays as it is, with all raw pieces and names, and the attributes of every element are framed.
-/
theorem transformMatching_frames {s selector : Text} {d : Document} (r : Request) (parsed : Document.parse s = .ok d)
    (matched : matchingPaths d (Query.parse selector) ≠ []) :
    let selected := d.select (Query.parse selector)
    let result := selected.1.applyToMatches r selected.2
    transformMatching s selector r = ⟨none, s, result.source, selected.2⟩ ∧ result.skeleton = d.skeleton ∧
      ∀ path e, (path, e) ∈ d.elements → ∃ e', (path, e') ∈ result.elements ∧ e.tag.FramedAs e'.tag := by
  intro selected result
  obtain ⟨shape, -, -, -⟩ := d.select_spec (Query.parse selector)
  obtain ⟨shape', -⟩ := selected.1.applyToIds_spec r (selected.2.map Match.id)
  rw [← Document.applyToMatches_eq] at shape'
  refine ⟨by simp [transformMatching, parsed, Document.found_ne_nil matched, selected, result], shape'.trans shape, ?_⟩
  intro path e member
  have top : (path, e.tag) ∈ d.root.tags := d.root.mem_tags_iff.mpr ⟨e, d.root.mem_elements_iff.mp member, rfl⟩
  obtain ⟨t, listed, given⟩ : ∃ t, (path, t) ∈ selected.1.root.tags ∧ (t = e.tag ∨ ∃ place, t = e.tag.withId place) := by
    by_cases hit : path ∈ matchingPaths d (Query.parse selector)
    · obtain ⟨n, there⟩ := List.mem_iff_getElem?.mp hit
      exact ⟨_, (mem_tags_select_iff d _).mpr (.inl ⟨n, e.tag, there, top, rfl⟩), .inr ⟨n, rfl⟩⟩
    · exact ⟨_, (mem_tags_select_iff d _).mpr (.inr ⟨hit, top⟩), .inl rfl⟩
  obtain ⟨u, after⟩ := exists_tag_applyToMatches selected.1 r selected.2 listed
  obtain ⟨e', leads, rfl⟩ := result.root.mem_tags_iff.mp after
  refine ⟨e', result.root.mem_elements_iff.mpr leads, ?_⟩
  rw [tag_applyToMatches selected.1 r selected.2 listed after]
  exact Tag.framedAs_iterate_onTag r _ given

theorem transformMatching_frames_assorted :
    let overrides : List (Text × Json) := [("fill".toList, .string "red".toList), (idName, .string "z".toList)]
    let r : Request := { translate := some ⟨.ofNat 1, .ofNat 2⟩, overrides }
    let selected := assorted.select (Query.parse "a".toList)
    let result := selected.1.applyToMatches r selected.2
    Document.parse assorted.source = .ok assorted ∧ matchingPaths assorted (Query.parse "a".toList) ≠ [] ∧
      transformMatching assorted.source "a".toList r = ⟨none, assorted.source, result.source, selected.2⟩ ∧
      result.skeleton = assorted.skeleton ∧
      ∀ path e, (path, e) ∈ assorted.elements → ∃ e', (path, e') ∈ result.elements ∧ e.tag.FramedAs e'.tag := by
  have matched : matchingPaths assorted (Query.parse "a".toList) ≠ [] := by decide +kernel
  exact ⟨parse_assorted, matched, transformMatching_frames _ parse_assorted matched⟩

end SvgEdit
