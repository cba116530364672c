import SvgEdit.Proofs.Selection
import SvgEdit.Transform

/-!
# Applying requests by identifier

A request changes attributes other than the identifying one, so that an identifier leads to the same
path before and after. Applied for a list of identifiers, a request therefore acts on each element as
often as the list holds its identifier, if it is the first element that carries it, and not at all
otherwise.
-/
namespace SvgEdit

/-! ## The first element with an identifier -/

namespace Element

/-- In the order of the document, the path leads to the first element that carries an identifier. -/
def IsFirst (root : Element) (id : Text) (path : Path) : Prop :=
  ∃ before x after, root.elements = before ++ (path, x) :: after ∧ x.attribute? idName = some id ∧
    ∀ entry ∈ before, entry.2.attribute? idName ≠ some id

theorem findId?_eq_some_iff (root : Element) {id : Text} {path : Path} :
    root.findId? id = some path ↔ root.IsFirst id path := by
  rw [findId?, Option.map_eq_some_iff]
  constructor
  · rintro ⟨⟨p, x⟩, found, rfl⟩
    obtain ⟨carries, before, after, split, none⟩ := List.find?_eq_some_iff_append.mp found
    exact ⟨before, x, after, split, by simpa using carries, fun entry member => by simpa using none entry member⟩
  · rintro ⟨before, x, after, split, carries, none⟩
    refine ⟨(path, x), List.find?_eq_some_iff_append.mpr ⟨by simpa using carries, before, after, split, ?_⟩, rfl⟩
    intro entry member
    simpa using none entry member

instance (root : Element) (id : Text) (path : Path) : Decidable (root.IsFirst id path) :=
  decidable_of_iff (root.findId? id = some path) root.findId?_eq_some_iff

/-- The first element with an identifier has it. -/
theorem value?_of_findId? {root : Element} {id : Text} {path : Path} (found : root.findId? id = some path)
    {t : Tag} (listed : (path, t) ∈ root.tags) : t.attributes.value? idName = some id := by
  obtain ⟨before, x, after, split, carries, -⟩ := root.findId?_eq_some_iff.mp found
  have member : (path, x) ∈ root.elements := by rw [split]; simp
  have top : (path, x.tag) ∈ root.tags := root.mem_tags_iff.mpr ⟨x, root.mem_elements_iff.mp member, rfl⟩
  rw [root.tag_unique listed top]
  exact carries

/-- Where each path stands and which identifier is there decides what is found. -/
theorem findId?_eq_tags (root : Element) (id : Text) : root.findId? id =
    (root.tags.find? fun entry => decide (entry.2.attributes.value? idName = some id)).map Prod.fst := by
  rw [findId?, tags, List.find?_map, Option.map_map]
  rfl

/-- Changing tags by what keeps identifiers changes nothing about what is found. -/
theorem findId?_modifyAt {g : Tag → Tag}
    (keeps : ∀ t, (g t).attributes.value? idName = t.attributes.value? idName) (path : Path) (root : Element)
    (id : Text) : (root.modifyAt (onTag g) path).findId? id = root.findId? id := by
  have same (entry : Path × Tag) : (retag path g entry).2.attributes.value? idName =
      entry.2.attributes.value? idName := by
    rw [retag]
    split
    · exact keeps entry.2
    · rfl
  have place (entry : Path × Tag) : (retag path g entry).1 = entry.1 := by
    rw [retag]
    split <;> rfl
  rw [findId?_eq_tags, findId?_eq_tags, tags_modifyAt, List.find?_map, Option.map_map]
  simp only [Function.comp_def, same, place]

/-- How often an element is meant by a list of identifiers. -/
def share (root : Element) (ids : List Text) (path : Path) (e : Element) : Nat :=
  match e.attribute? idName with
  | some id => if root.IsFirst id path then ids.count id else 0
  | none => 0

theorem countP_findId? (root : Element) (ids : List Text) {path : Path} {e : Element}
    (leads : root.elementAt? path = some e) :
    ids.countP (fun id => decide (root.findId? id = some path)) = root.share ids path e := by
  have own {id : Text} (found : root.findId? id = some path) : e.attribute? idName = some id :=
    value?_of_findId? found (root.mem_tags_iff.mpr ⟨e, leads, rfl⟩)
  rw [share]
  split
  · next id carries =>
    split
    · next first =>
      have found := root.findId?_eq_some_iff.mpr first
      rw [List.count_eq_countP]
      apply List.countP_congr
      intro other _
      simp only [decide_eq_true_eq, beq_iff_eq]
      constructor
      · intro here
        exact Option.some.inj ((own here).symm.trans carries)
      · rintro rfl
        exact found
    · next later =>
      rw [List.countP_eq_zero]
      intro other _ here
      have here := of_decide_eq_true here
      have same := Option.some.inj ((own here).symm.trans carries)
      exact later (root.findId?_eq_some_iff.mp (same ▸ here))
  · next nothing =>
    rw [List.countP_eq_zero]
    intro other _ here
    have carries := own (of_decide_eq_true here)
    rw [nothing] at carries
    cases carries

end Element

/-! ## Requests on attributes -/

namespace Attributes

theorem value?_foldl_set_of_ne (changes : List (Text × Text)) {name : Text}
    (others : ∀ change ∈ changes, change.1 ≠ name) (as : Attributes) :
    (changes.foldl (fun as (n, v) => as.set n v) as).value? name = as.value? name := by
  induction changes generalizing as with
  | nil => rfl
  | cons change changes ih =>
    rw [List.foldl_cons, ih (fun c member => others c (by simp [member]))]
    exact value?_set_of_ne as change.2 (others change (by simp)).symm

end Attributes

namespace Request

/-- What a request does to attributes. -/
def onAttributes (r : Request) (as : Attributes) : Attributes :=
  r.directAttributes.foldl (fun as (n, v) => as.set n v)
    (match r.compose (as.value? transformName) with
    | some value => as.set transformName value
    | none => as)

/-- What a request does to a tag. -/
def onTag (r : Request) (t : Tag) : Tag := { t with attributes := r.onAttributes t.attributes }

theorem apply_eq_onTag (r : Request) (e : Element) : r.apply e = e.onTag r.onTag := by
  have sets (changes : List (Text × Text)) (e : Element) :
      changes.foldl (fun e (n, v) => e.setAttribute n v) e =
        ⟨{ e.tag with attributes := changes.foldl (fun as (n, v) => as.set n v) e.tag.attributes }, e.content⟩ := by
    induction changes generalizing e with
    | nil => rfl
    | cons change changes ih => rw [List.foldl_cons, ih]; rfl
  rw [apply, sets, Element.onTag, onTag, onAttributes, Element.attribute?]
  cases r.compose (e.tag.attributes.value? transformName) <;> rfl

theorem name_mem_directNames (r : Request) : ∀ change ∈ r.directAttributes, change.1 ∈ directNames := by
  intro change member
  obtain ⟨name, listed, made⟩ := List.mem_filterMap.mp member
  obtain ⟨value, -, rfl⟩ := Option.map_eq_some_iff.mp made
  exact listed

/-- No request changes the identifying attribute. -/
theorem value?_onAttributes_id (r : Request) (as : Attributes) :
    (r.onAttributes as).value? idName = as.value? idName := by
  have notDirect : idName ∉ directNames := by decide
  have notTransform : idName ≠ transformName := by decide
  rw [onAttributes, Attributes.value?_foldl_set_of_ne]
  · split
    · exact Attributes.value?_set_of_ne as _ notTransform
    · rfl
  · intro change member same
    exact notDirect (same ▸ r.name_mem_directNames change member)

theorem iterate_apply (r : Request) (n : Nat) (e : Element) : r.apply^[n] e = e.onTag r.onTag^[n] := by
  induction n generalizing e with
  | zero => rfl
  | succ n ih => rw [Function.iterate_succ_apply, ih, apply_eq_onTag]; rfl

end Request

/-! ## Requests for many identifiers -/

namespace Document

/-- The document with a request applied for each identifier in turn. -/
def applyToIds (d : Document) (r : Request) (ids : List Text) : Document :=
  ids.foldl (fun d id => (d.applyRequest? id r).getD d) d

theorem applyToMatches_eq (d : Document) (r : Request) (found : List Match) :
    d.applyToMatches r found = d.applyToIds r (found.map Match.id) := by
  rw [applyToMatches, applyToIds, List.foldl_map]

/-- One application changes the tag that the identifier leads to, if any. -/
theorem applyRequest?_spec (d : Document) (r : Request) (id : Text) :
    let next := (d.applyRequest? id r).getD d
    next.skeleton = d.skeleton ∧ (∀ other, next.root.findId? other = d.root.findId? other) ∧
      next.root.tags = d.root.tags.map fun entry =>
        (entry.1, if d.root.findId? id = some entry.1 then r.onTag entry.2 else entry.2) := by
  intro next
  cases found : d.root.findId? id with
  | none =>
    have same : next = d := by simp [next, applyRequest?, found]
    rw [same]
    refine ⟨rfl, fun _ => rfl, ?_⟩
    simp
  | some path =>
    have changed : next.root = d.root.modifyAt (Element.onTag r.onTag) path := by
      simp only [next, applyRequest?, found, Option.map_some, Option.getD_some, modifyAt]
      rw [funext r.apply_eq_onTag]
    have around : next.prolog = d.prolog ∧ next.epilog = d.epilog := by
      simp [next, applyRequest?, found, modifyAt]
    refine ⟨?_, ?_, ?_⟩
    · have bare (t : Tag) : (r.onTag t).bare = t.bare := rfl
      rw [skeleton, skeleton, changed, Element.skeleton_modifyAt bare, around.1, around.2]
    · intro other
      rw [changed]
      exact Element.findId?_modifyAt (fun t => r.value?_onAttributes_id t.attributes) path d.root other
    · rw [changed, Element.tags_modifyAt]
      apply List.map_congr_left
      rintro ⟨p, t⟩ -
      by_cases here : p = path
      · subst here
        simp [retag]
      · simp [retag, here, Ne.symm here]

/-- Each tag has the request applied as often as the identifiers lead to its path. -/
theorem applyToIds_spec (r : Request) (ids : List Text) (d : Document) :
    (d.applyToIds r ids).skeleton = d.skeleton ∧ (d.applyToIds r ids).root.tags = d.root.tags.map fun entry =>
      (entry.1, r.onTag^[ids.countP fun id => decide (d.root.findId? id = some entry.1)] entry.2) := by
  induction ids generalizing d with
  | nil =>
    refine ⟨rfl, ?_⟩
    simp only [List.countP_nil, Function.iterate_zero, id_eq]
    exact (List.map_id _).symm
  | cons id ids ih =>
    obtain ⟨shape, lookups, tags⟩ := d.applyRequest?_spec r id
    obtain ⟨laterShape, laterTags⟩ := ih ((d.applyRequest? id r).getD d)
    refine ⟨laterShape.trans shape, ?_⟩
    rw [applyToIds, List.foldl_cons, ← applyToIds, laterTags, tags, List.map_map]
    apply List.map_congr_left
    rintro ⟨path, t⟩ -
    simp only [Function.comp_apply, lookups, List.countP_cons, decide_eq_true_eq, Prod.mk.injEq, true_and]
    split
    · next here => rw [Function.iterate_succ_apply]
    · next other => rfl

end Document

/-! ## Transforming by a query -/

/--
A request for the matches of a query acts on every element as often as the matches carry its
identifier, provided it is the first to carry it; nothing else of the selected document changes.
-/
theorem transformMatching_acts_by_share {s selector : Text} {d selected : Document} {found : List Match}
    (r : Request) (parsed : Document.parse s = .ok d)
    (selects : d.select (Query.parse selector) = (selected, found))
    (matched : matchingPaths d (Query.parse selector) ≠ []) :
    ∃ result : Document, transformMatching s selector r = ⟨none, s, result.source, found⟩ ∧
      result.skeleton = selected.skeleton ∧
      ∀ path e, (path, e) ∈ selected.elements → ∃ e', (path, e') ∈ result.elements ∧
        e'.tag.attributes = (r.apply^[selected.root.share (found.map Match.id) path e] e).tag.attributes := by
  obtain ⟨-, -, count, -⟩ := d.select_spec (Query.parse selector)
  have told : found ≠ [] := by
    rintro rfl
    rw [selects] at count
    exact matched (List.length_eq_zero_iff.mp count.symm)
  obtain ⟨shape, tags⟩ := selected.applyToIds_spec r (found.map Match.id)
  rw [← Document.applyToMatches_eq] at shape tags
  refine ⟨selected.applyToMatches r found, ?_, shape, ?_⟩
  · simp [transformMatching, parsed, selects, told]
  · intro path e member
    have leads := selected.root.mem_elements_iff.mp member
    have top : (path, e.tag) ∈ selected.root.tags := selected.root.mem_tags_iff.mpr ⟨e, leads, rfl⟩
    have changed := List.mem_map_of_mem (f := fun entry => (entry.1, r.onTag^[(found.map Match.id).countP fun id =>
      decide (selected.root.findId? id = some entry.1)] entry.2)) top
    rw [← tags] at changed
    obtain ⟨e', leads', same⟩ := (Element.mem_tags_iff _).mp changed
    refine ⟨e', (Element.mem_elements_iff _).mpr leads', ?_⟩
    rw [same, Element.countP_findId? _ _ leads, r.iterate_apply]
    rfl

/-- An empty tag with an identifier between double quotes. -/
def identified (name id : String) : Tag := ⟨name.toList, [⟨idName, id.toList, some ⟨id.toList, .double⟩⟩], true⟩

/-- A document in which two elements carry one identifier. -/
def twins : Document :=
  ⟨[], ⟨⟨"svg".toList, [], false⟩, .element (identified "rect" "a") .nil (.element (identified "rect" "a") .nil .nil)⟩, []⟩

theorem transformMatching_acts_by_share_twins :
    let r : Request := { translate := some ⟨.ofNat 1, .ofNat 2⟩ }
    let found := (twins.select (Query.parse "rect".toList)).2
    Document.parse twins.source = .ok twins ∧ twins.select (Query.parse "rect".toList) = (twins, found) ∧
      matchingPaths twins (Query.parse "rect".toList) ≠ [] ∧
      ∃ result : Document, transformMatching twins.source "rect".toList r = ⟨none, twins.source, result.source, found⟩ ∧
        result.skeleton = twins.skeleton ∧
        ∀ path e, (path, e) ∈ twins.elements → ∃ e', (path, e') ∈ result.elements ∧
          e'.tag.attributes = (r.apply^[twins.root.share (found.map Match.id) path e] e).tag.attributes := by
  have parsed : Document.parse twins.source = .ok twins := by cbv
  have selects : twins.select (Query.parse "rect".toList) =
      (twins, (twins.select (Query.parse "rect".toList)).2) := by cbv
  have matched : matchingPaths twins (Query.parse "rect".toList) ≠ [] := by decide +kernel
  exact ⟨parsed, selects, matched, transformMatching_acts_by_share _ parsed selects matched⟩

end SvgEdit
