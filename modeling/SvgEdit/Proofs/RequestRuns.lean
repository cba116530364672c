import SvgEdit.Proofs.Application
import SvgEdit.Proofs.Faults
import SvgEdit.Proofs.Splitting

/-!
# Requests one after another

Requests that are applied in order come to one closed form. Their operations stand one after the other,
behind those that the element had if these are not blank, and each attribute has the last value that it
was given, in the place where it was.
-/
namespace SvgEdit

/-! ## Giving attributes values -/

namespace Attributes

variable {as : Attributes} {name : Text}

theorem find?_set_of_ne {other : Text} (ne : other ≠ name) (value : Text) (as : Attributes) :
    (as.set name value).find? (·.name = other) = as.find? (·.name = other) := by
  induction as with
  | nil => simp [set, ne.symm]
  | cons a as ih =>
    by_cases same : a.name = name
    · by_cases equal : a.value = value <;> simp [set, same, equal, ne.symm]
    · rw [set, if_neg same, List.find?_cons, List.find?_cons, ih]

theorem find?_foldl_set_of_ne (changes : List (Text × Text)) (others : ∀ change ∈ changes, change.1 ≠ name)
    (as : Attributes) : (changes.foldl (fun as (n, v) => as.set n v) as).find? (·.name = name) =
      as.find? (·.name = name) := by
  induction changes generalizing as with
  | nil => rfl
  | cons change changes ih =>
    obtain ⟨here, others⟩ := List.forall_mem_cons.mp others
    rw [List.foldl_cons, ih others]
    exact find?_set_of_ne here.symm change.2 as

/-- An attribute stays in its place, whatever gets a value. -/
theorem findIdx?_set {place : Nat} (there : as.findIdx? (·.name = name) = some place) (other value : Text) :
    (as.set other value).findIdx? (·.name = name) = some place := by
  induction as generalizing place with
  | nil => cases there
  | cons a as ih =>
    rw [List.findIdx?_cons] at there
    rw [set]
    by_cases same : a.name = other
    · have kept : (if a.value = value then a else { a with value, spelling := none }).name = a.name := by
        split <;> rfl
      rw [if_pos same, List.findIdx?_cons, kept]
      exact there
    · rw [if_neg same, List.findIdx?_cons]
      split at there
      · next found => rwa [if_pos found]
      · next other =>
        obtain ⟨n, later, rfl⟩ := Option.map_eq_some_iff.mp there
        rw [if_neg other, ih later, Option.map_some]

theorem findIdx?_foldl_set (changes : List (Text × Text)) {place : Nat}
    (there : as.findIdx? (·.name = name) = some place) :
    (changes.foldl (fun as (n, v) => as.set n v) as).findIdx? (·.name = name) = some place := by
  induction changes generalizing as with
  | nil => exact there
  | cons change changes ih => exact ih (findIdx?_set there change.1 change.2)

/-- Each name given a value once has this value in the end. -/
theorem value?_foldl_set {changes : List (Text × Text)} (once : (changes.map Prod.fst).Nodup) (name : Text)
    (as : Attributes) : (changes.foldl (fun as (n, v) => as.set n v) as).value? name =
      (changes.lookup name).or (as.value? name) := by
  induction changes generalizing as with
  | nil => rfl
  | cons change changes ih =>
    obtain ⟨n, v⟩ := change
    obtain ⟨new, once⟩ := List.nodup_cons.mp once
    rw [List.foldl_cons, ih once]
    by_cases same : name = n
    · subst same
      have absent : changes.lookup name = none := by
        refine List.lookup_eq_none_iff.mpr fun entry member => ?_
        have given : entry.1 ∈ changes.map Prod.fst := List.mem_map_of_mem member
        have apart : name ≠ entry.1 := fun same => new (same ▸ given)
        simpa using apart
      rw [absent, List.lookup_cons_self, value?_set_self]
      rfl
    · rw [value?_set_of_ne as v same, List.lookup_cons, beq_false_of_ne same]

end Attributes

/-! ## One request -/

/-- The value that is looked up in a list of names for which a value is made, if any. -/
theorem lookup_filterMap_pair {α β : Type} [BEq α] [LawfulBEq α] (f : α → Option β) (names : List α) {name : α}
    (listed : name ∈ names) : (names.filterMap fun n => (f n).map (n, ·)).lookup name = f name := by
  induction names with
  | nil => cases listed
  | cons n names ih =>
    by_cases same : name = n
    · subst same
      cases given : f name with
      | none =>
        rw [List.filterMap_cons_none (by rw [given]; rfl)]
        by_cases again : name ∈ names
        · rw [ih again, given]
        · refine List.lookup_eq_none_iff.mpr fun entry member => ?_
          obtain ⟨m, inside, made⟩ := List.mem_filterMap.mp member
          obtain ⟨value, -, rfl⟩ := Option.map_eq_some_iff.mp made
          have apart : name ≠ m := fun same => again (same ▸ inside)
          simpa using apart
      | some value => rw [List.filterMap_cons_some (by rw [given]; rfl), List.lookup_cons_self]
    · have later := ih ((List.mem_cons.mp listed).resolve_left same)
      cases given : f n with
      | none => rw [List.filterMap_cons_none (by rw [given]; rfl), later]
      | some value =>
        rw [List.filterMap_cons_some (by rw [given]; rfl), List.lookup_cons, beq_false_of_ne same, later]

theorem map_fst_filterMap_pair_sublist {α β : Type} (f : α → Option β) (names : List α) :
    ((names.filterMap fun n => (f n).map (n, ·)).map Prod.fst).Sublist names := by
  induction names with
  | nil => exact List.Sublist.refl _
  | cons n names ih =>
    cases given : f n with
    | none =>
      rw [List.filterMap_cons_none (by rw [given]; rfl)]
      exact ih.cons n
    | some value =>
      rw [List.filterMap_cons_some (by rw [given]; rfl)]
      exact ih.cons_cons n

namespace Request

/-- The text of the scalar that a request carries under a name, if it carries one. -/
def scalar? (r : Request) (name : Text) : Option Text := (r.overrides.lookup name).bind scalarText?

theorem lookup_directAttributes (r : Request) {name : Text} (listed : name ∈ directNames) :
    r.directAttributes.lookup name = r.scalar? name :=
  lookup_filterMap_pair r.scalar? directNames listed

theorem nodup_directAttributes (r : Request) : (r.directAttributes.map Prod.fst).Nodup := by
  have once : directNames.Nodup := by decide
  exact once.sublist (map_fst_filterMap_pair_sublist r.scalar? directNames)

theorem attributes_apply (r : Request) (e : Element) : (r.apply e).tag.attributes = r.onAttributes e.tag.attributes := by
  rw [apply_eq_onTag]
  rfl

/-- A request gives an attribute the value that it carries, or leaves the one that it had. -/
theorem attribute?_apply (r : Request) (e : Element) {name : Text} (listed : name ∈ directNames) :
    (r.apply e).attribute? name = (r.scalar? name).or (e.attribute? name) := by
  have noTransform : transformName ∉ directNames := by decide
  have apart : name ≠ transformName := by
    rintro rfl
    exact noTransform listed
  rw [Element.attribute?, attributes_apply, onAttributes, Attributes.value?_foldl_set r.nodup_directAttributes,
    r.lookup_directAttributes listed]
  split
  · rw [Attributes.value?_set_of_ne _ _ apart]
    rfl
  · rfl

theorem findIdx?_apply (r : Request) (e : Element) {name : Text} {place : Nat}
    (there : e.tag.attributes.findIdx? (·.name = name) = some place) :
    (r.apply e).tag.attributes.findIdx? (·.name = name) = some place := by
  rw [attributes_apply, onAttributes]
  refine Attributes.findIdx?_foldl_set _ ?_
  split
  · exact Attributes.findIdx?_set there transformName _
  · exact there

/-! ## Operations -/

/-- Operations behind those that are there; a value of blanks only counts for nothing. -/
def withOperations (existing : Option Text) (added : List Text) : Text :=
  match existing with
  | some present =>
    if Text.isBlankText present then Text.joinWith [' '] added else present ++ ' ' :: Text.joinWith [' '] added
  | none => Text.joinWith [' '] added

theorem compose_eq (r : Request) (existing : Option Text) :
    r.compose existing = if r.tokens = [] then none else some (withOperations existing r.tokens) := by
  rw [compose]
  cases existing with
  | none => rfl
  | some present => simp only [withOperations, Text.trim_eq_nil_iff]

theorem open_mem_of_mem_tokens {r : Request} : ∀ token ∈ r.tokens, '(' ∈ token := by
  intro token member
  obtain ⟨operation, -, rfl⟩ := List.mem_map.mp member
  simp [Operation.text]

/-- Operations are never blank. -/
theorem not_isBlankText_joinWith {tokens : List Text} (nonempty : tokens ≠ []) (opens : ∀ token ∈ tokens, '(' ∈ token) :
    Text.isBlankText (Text.joinWith [' '] tokens) = false := by
  obtain ⟨token, rest, rfl⟩ := List.exists_cons_of_ne_nil nonempty
  have inside : '(' ∈ Text.joinWith [' '] (token :: rest) := by
    have first := opens token List.mem_cons_self
    cases rest with
    | nil => simpa [Text.joinWith] using first
    | cons next rest =>
      rw [Text.joinWith, List.intercalate_cons_cons]
      exact List.mem_append_left _ (List.mem_append_left _ first)
  rw [Text.isBlankText, List.all_eq_false]
  exact ⟨'(', inside, by decide⟩

/-- Operations added in two goes are added at once. -/
theorem withOperations_append (existing : Option Text) {first second : List Text} (some : first ≠ []) (more : second ≠ [])
    (opens : ∀ token ∈ first, '(' ∈ token) :
    withOperations (.some (withOperations existing first)) second = withOperations existing (first ++ second) := by
  have shown := not_isBlankText_joinWith some opens
  have after (present : Text) : Text.isBlankText (present ++ ' ' :: Text.joinWith [' '] first) = false := by
    rw [Text.isBlankText, List.all_eq_false] at shown ⊢
    obtain ⟨c, inside, noBlank⟩ := shown
    exact ⟨c, List.mem_append_right _ (List.mem_cons_of_mem _ inside), noBlank⟩
  have both := Text.joinWith_append [' '] some more
  cases existing with
  | none => simp [withOperations, shown, both]
  | some present =>
    cases blank : Text.isBlankText present with
    | true => simp [withOperations, blank, shown, both]
    | false => simp [withOperations, blank, after, both]

/-- A request puts its operations behind those that are there. -/
theorem attribute?_transform_apply (r : Request) (e : Element) : (r.apply e).attribute? transformName =
    if r.tokens = [] then e.attribute? transformName
    else some (withOperations (e.attribute? transformName) r.tokens) := by
  have noDirect : transformName ∉ directNames := by decide
  have others : ∀ change ∈ r.directAttributes, change.1 ≠ transformName := fun change member same =>
    noDirect (same ▸ r.name_mem_directNames change member)
  rw [Element.attribute?, attributes_apply, onAttributes, Attributes.value?_foldl_set_of_ne _ others, compose_eq,
    ← Element.attribute?]
  by_cases nothing : r.tokens = []
  · simp only [if_pos nothing]
    rfl
  · simp only [if_neg nothing]
    exact Attributes.value?_set_self _ _ _

/-- Without operations the attribute that holds them stays as it is spelled. -/
theorem find?_transform_apply {r : Request} (nothing : r.tokens = []) (e : Element) :
    (r.apply e).tag.attributes.find? (·.name = transformName) = e.tag.attributes.find? (·.name = transformName) := by
  have noDirect : transformName ∉ directNames := by decide
  have others : ∀ change ∈ r.directAttributes, change.1 ≠ transformName := fun change member same =>
    noDirect (same ▸ r.name_mem_directNames change member)
  rw [attributes_apply, onAttributes, Attributes.find?_foldl_set_of_ne _ others, compose_eq, if_pos nothing]

/-! ## Runs -/

/-- The element after all requests, the first one first. -/
def applyAll (rs : List Request) (e : Element) : Element := rs.foldl (fun e r => r.apply e) e

theorem find?_transform_applyAll {rs : List Request} (nothing : rs.flatMap tokens = []) (e : Element) :
    (applyAll rs e).tag.attributes.find? (·.name = transformName) =
      e.tag.attributes.find? (·.name = transformName) := by
  induction rs generalizing e with
  | nil => rfl
  | cons r rs ih =>
    obtain ⟨here, later⟩ := List.append_eq_nil_iff.mp nothing
    exact (ih later (r.apply e)).trans (find?_transform_apply here e)

theorem attribute?_transform_applyAll (rs : List Request) (e : Element) : (applyAll rs e).attribute? transformName =
    if rs.flatMap tokens = [] then e.attribute? transformName
    else some (withOperations (e.attribute? transformName) (rs.flatMap tokens)) := by
  induction rs generalizing e with
  | nil => rfl
  | cons r rs ih =>
    have step : (applyAll (r :: rs) e).attribute? transformName = _ := ih (r.apply e)
    rw [step, attribute?_transform_apply, List.flatMap_cons]
    by_cases here : r.tokens = []
    · rw [if_pos here, here, List.nil_append]
    by_cases later : rs.flatMap tokens = []
    · rw [later, List.append_nil, if_pos rfl, if_neg here]
    · rw [if_neg here, if_neg later, if_neg (List.append_ne_nil_of_left_ne_nil here _),
        withOperations_append _ here later open_mem_of_mem_tokens]

/-- The values that requests carry for an attribute, in order. -/
def valuesFor (name : Text) (rs : List Request) : List Text := rs.filterMap fun r => r.scalar? name

theorem attribute?_applyAll (rs : List Request) (e : Element) {name : Text} (listed : name ∈ directNames) :
    (applyAll rs e).attribute? name = (valuesFor name rs).getLast?.or (e.attribute? name) := by
  induction rs generalizing e with
  | nil => rfl
  | cons r rs ih =>
    have step : (applyAll (r :: rs) e).attribute? name = _ := ih (r.apply e)
    rw [step, attribute?_apply r e listed]
    cases given : r.scalar? name with
    | none => simp only [valuesFor, List.filterMap_cons, given, Option.none_or]
    | some value =>
      simp only [valuesFor, List.filterMap_cons, given, List.getLast?_cons, Option.some_or, Option.or_some]

theorem findIdx?_applyAll (rs : List Request) (e : Element) {name : Text} {place : Nat}
    (there : e.tag.attributes.findIdx? (·.name = name) = some place) :
    (applyAll rs e).tag.attributes.findIdx? (·.name = name) = some place := by
  induction rs generalizing e with
  | nil => exact there
  | cons r rs ih => exact ih (r.apply e) (findIdx?_apply r e there)

/--
What a run of requests comes to. Without operations among them the attribute that holds operations stays as it is
spelled, or missing; else all operations stand behind its value, and alone if there is none or only blanks. An
attribute for which values are carried ends with the last one, and no attribute leaves its place.
-/
theorem applyAll_closed_form (rs : List Request) (e : Element) :
    let result := applyAll rs e
    let added := rs.flatMap tokens
    (added = [] → result.tag.attributes.find? (·.name = transformName) =
      e.tag.attributes.find? (·.name = transformName)) ∧
    (added ≠ [] → result.attribute? transformName = some (withOperations (e.attribute? transformName) added)) ∧
    (∀ name ∈ directNames, ∀ value, (valuesFor name rs).getLast? = some value →
      result.attribute? name = some value) ∧
    ∀ name place, e.tag.attributes.findIdx? (·.name = name) = some place →
      result.tag.attributes.findIdx? (·.name = name) = some place := by
  intro result added
  refine ⟨fun nothing => find?_transform_applyAll nothing e, fun some => ?_, fun name listed value last => ?_,
    fun name place there => findIdx?_applyAll rs e there⟩
  · rw [attribute?_transform_applyAll, if_neg some]
  · rw [attribute?_applyAll rs e listed, last, Option.some_or]

/-- An element that is turned and filled. -/
def turned : Element :=
  ⟨⟨"rect".toList, [⟨"fill".toList, "red".toList, some ⟨"red".toList, .single⟩⟩,
    ⟨transformName, "rotate(5)".toList, some ⟨"rotate(5)".toList, .double⟩⟩], true⟩, .nil⟩

/-- Requests of which the second has no operation and a value that is no scalar. -/
def moves : List Request :=
  [{ translate := some ⟨.ofNat 1, .ofNat 2⟩, overrides := [("fill".toList, .string "blue".toList)] },
    { overrides := [("fill".toList, .bool true), ("width".toList, .null)] },
    { skew := some ⟨.ofNat 3, .ofNat 4⟩, overrides := [("width".toList, .bool false)] }]

theorem applyAll_closed_form_moves :
    let result := applyAll moves turned
    moves.flatMap tokens = ["translate(1 2)".toList, "skewX(3)".toList, "skewY(4)".toList] ∧
    result.attribute? transformName = some "rotate(5) translate(1 2) skewX(3) skewY(4)".toList ∧
    "fill".toList ∈ directNames ∧ (valuesFor "fill".toList moves).getLast? = some "true".toList ∧
    result.attribute? "fill".toList = some "true".toList ∧
    turned.tag.attributes.findIdx? (·.name = "fill".toList) = some 0 ∧
    result.tag.attributes.findIdx? (·.name = "fill".toList) = some 0 := by
  intro result
  have added : moves.flatMap tokens = ["translate(1 2)".toList, "skewX(3)".toList, "skewY(4)".toList] := by
    decide +kernel
  have listed : "fill".toList ∈ directNames := by decide
  have last : (valuesFor "fill".toList moves).getLast? = some "true".toList := by decide
  have there : turned.tag.attributes.findIdx? (·.name = "fill".toList) = some 0 := by decide
  obtain ⟨-, transformed, given, placed⟩ := applyAll_closed_form moves turned
  refine ⟨added, ?_, listed, last, given _ listed _ last, there, placed _ _ there⟩
  rw [transformed (by simp [added]), added]
  decide

end Request
end SvgEdit
