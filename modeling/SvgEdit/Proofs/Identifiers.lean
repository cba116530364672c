import SvgEdit.Proofs.Application

/-!
# Identifiers that lead back

After a selection every match is looked up by its identifier. In a document without repeated
identifiers the lookup gives the match itself if, and only if, no identifier that is made for a match
is there already, except in elements that are no matches and stand after it.
-/
namespace SvgEdit

/-! ## Order of the document -/

namespace Element

/-- A path leads to an element with an identifier. -/
def Carries (root : Element) (path : Path) (id : Text) : Prop :=
  ∃ t, (path, t) ∈ root.tags ∧ t.attributes.value? idName = some id

/-- In the order of the document, one path stands before another. -/
def Precedes (root : Element) (path other : Path) : Prop :=
  (root.elements.map Prod.fst).idxOf path < (root.elements.map Prod.fst).idxOf other

theorem carries_iff_elementAt? (root : Element) {path : Path} {id : Text} :
    root.Carries path id ↔ ∃ x, root.elementAt? path = some x ∧ x.attribute? idName = some id := by
  constructor
  · rintro ⟨t, listed, carries⟩
    obtain ⟨x, leads, rfl⟩ := root.mem_tags_iff.mp listed
    exact ⟨x, leads, carries⟩
  · rintro ⟨x, leads, carries⟩
    exact ⟨x.tag, root.mem_tags_iff.mpr ⟨x, leads, rfl⟩, carries⟩

theorem carries_iff (root : Element) {path : Path} {x : Element} (member : (path, x) ∈ root.elements) (id : Text) :
    root.Carries path id ↔ x.attribute? idName = some id := by
  rw [carries_iff_elementAt?, root.mem_elements_iff.mp member]
  simp

/-- A lookup finds the one path with the identifier that precedes all others with it. -/
theorem findId?_eq_some_iff_precedes (root : Element) {id : Text} {path : Path} :
    root.findId? id = some path ↔
      root.Carries path id ∧ ∀ other, root.Carries other id → other ≠ path → root.Precedes path other := by
  rw [root.findId?_eq_some_iff]
  have distinct := root.nodup_elements
  constructor
  · rintro ⟨before, x, after, split, carries, none⟩
    have member : (path, x) ∈ root.elements := by rw [split]; simp
    refine ⟨(root.carries_iff member id).mpr carries, ?_⟩
    intro other theirs ne
    rw [split, List.map_append, List.map_cons, List.nodup_append] at distinct
    have absent : path ∉ before.map Prod.fst := fun here => distinct.2.2 path here path (by simp) rfl
    have absent' : other ∉ before.map Prod.fst := by
      intro here
      obtain ⟨⟨p, y⟩, early, rfl⟩ := List.mem_map.mp here
      exact none _ early ((root.carries_iff (by rw [split]; simp [early]) id).mp theirs)
    rw [Precedes, split, List.map_append, List.map_cons, List.idxOf_append_of_notMem absent,
      List.idxOf_append_of_notMem absent', List.idxOf_cons_self, List.idxOf_cons_ne _ (Ne.symm ne)]
    omega
  · rintro ⟨⟨t, listed, value⟩, first⟩
    obtain ⟨x, leads, rfl⟩ := root.mem_tags_iff.mp listed
    obtain ⟨before, after, split⟩ := List.append_of_mem (root.mem_elements_iff.mpr leads)
    refine ⟨before, x, after, split, value, ?_⟩
    rintro ⟨other, y⟩ early theirs
    rw [split, List.map_append, List.map_cons, List.nodup_append] at distinct
    have here : other ∈ before.map Prod.fst := List.mem_map_of_mem early
    have ne : other ≠ path := fun same => distinct.2.2 other here path (by simp) same
    have absent : path ∉ before.map Prod.fst := fun here => distinct.2.2 path here path (by simp) rfl
    have later := first other ((root.carries_iff (by rw [split]; simp [early]) id).mpr theirs) ne
    rw [Precedes, split, List.map_append, List.map_cons, List.idxOf_append_of_notMem absent,
      List.idxOf_append_of_mem here] at later
    have := List.idxOf_lt_length_of_mem here
    omega

end Element

/-! ## Distinct identifiers -/

/-- No two elements have the same identifier; an empty one does not count. -/
def Document.DistinctIds (d : Document) : Prop := (d.elements.filterMap fun entry => entry.2.id?).Nodup

theorem Document.DistinctIds.path_eq {d : Document} (distinct : d.DistinctIds) {p q : Path} {t u : Tag} {id : Text}
    (left : (p, t) ∈ d.root.tags) (right : (q, u) ∈ d.root.tags) (mine : t.id? = some id)
    (theirs : u.id? = some id) : p = q := by
  obtain ⟨x, leads, rfl⟩ := d.root.mem_tags_iff.mp left
  obtain ⟨y, leads', rfl⟩ := d.root.mem_tags_iff.mp right
  by_contra ne
  rw [DistinctIds, List.Nodup, List.pairwise_filterMap] at distinct
  have symmetric : Std.Symm fun a b : Path × Element => ∀ i, a.2.id? = some i → ∀ j, b.2.id? = some j → i ≠ j :=
    ⟨fun a b differ i hasI j hasJ same => differ j hasJ i hasI same.symm⟩
  exact distinct.forall (d.root.mem_elements_iff.mpr leads) (d.root.mem_elements_iff.mpr leads')
    (fun same => ne (Prod.mk.inj same).1) id mine id theirs rfl

theorem madeId_injective {n m : Nat} (same : madeId n = madeId m) : n = m := by
  have digits : Nat.toDigits 10 n = Nat.toDigits 10 m := List.append_cancel_left same
  rw [← Nat.ofDigitChars_ten_toDigits (n := n), digits, Nat.ofDigitChars_ten_toDigits]

theorem madeId_ne_nil (n : Nat) : madeId n ≠ [] := by
  simp [madeId]

/-! ## Identifiers after a selection -/

namespace Document

/-- No identifier made for a match is there already, unless after it in an element that is no match. -/
def MadeIdsFree (d : Document) (q : Query) : Prop :=
  ∀ n path t other, (matchingPaths d q)[n]? = some path → (path, t) ∈ d.root.tags → t.id? = none →
    d.root.Carries other (madeId n) → other ∉ matchingPaths d q ∧ d.root.Precedes path other

end Document

theorem Tag.id?_eq_some_iff (t : Tag) {id : Text} :
    t.id? = some id ↔ t.attributes.value? idName = some id ∧ id ≠ [] := by
  simp [id?, Option.filter_eq_some_iff]

theorem Tag.value?_withId (t : Tag) (place : Nat) :
    (t.withId place).attributes.value? idName = some (t.id?.getD (madeId place)) := by
  rw [withId]
  cases own : t.id? with
  | some id =>
    simpa using (t.id?_eq_some_iff.mp own).1
  | none => simp [Attributes.value?_set_self]

/-- Who carries an identifier after a selection: the match told with it, or who had it and is no match. -/
theorem carries_select_iff (d : Document) (q : Query) (path : Path) (id : Text) :
    (d.select q).1.root.Carries path id ↔
      (∃ n t, (matchingPaths d q)[n]? = some path ∧ (path, t) ∈ d.root.tags ∧ t.id?.getD (madeId n) = id) ∨
        path ∉ matchingPaths d q ∧ d.root.Carries path id := by
  constructor
  · rintro ⟨u, listed, value⟩
    rcases (mem_tags_select_iff d q).mp listed with ⟨n, t, here, member, rfl⟩ | ⟨unmatched, member⟩
    · rw [Tag.value?_withId] at value
      exact .inl ⟨n, t, here, member, Option.some.inj value⟩
    · exact .inr ⟨unmatched, u, member, value⟩
  · rintro (⟨n, t, here, member, rfl⟩ | ⟨unmatched, t, member, value⟩)
    · exact ⟨_, (mem_tags_select_iff d q).mpr (.inl ⟨n, t, here, member, rfl⟩), t.value?_withId n⟩
    · exact ⟨t, (mem_tags_select_iff d q).mpr (.inr ⟨unmatched, member⟩), value⟩

theorem precedes_select_iff (d : Document) (q : Query) (path other : Path) :
    (d.select q).1.root.Precedes path other ↔ d.root.Precedes path other := by
  obtain ⟨-, tags, -, -⟩ := d.select_spec q
  have places : (d.select q).1.root.elements.map Prod.fst = d.root.elements.map Prod.fst := by
    rw [← Element.map_fst_tags, ← Element.map_fst_tags, tags, List.map_map]
    apply List.map_congr_left
    intro entry _
    rw [Function.comp_apply, named]
    split <;> rfl
  rw [Element.Precedes, Element.Precedes, places]

/-! ## When lookups lead back -/

/-- The identifiers of the matches lead to the paths of the matches. -/
def LeadBack (d : Document) (q : Query) : Prop :=
  (d.select q).2.map (fun m => (d.select q).1.root.findId? m.id) = (matchingPaths d q).map some

theorem leadBack_iff (d : Document) (q : Query) : LeadBack d q ↔ ∀ n path t, (matchingPaths d q)[n]? = some path →
    (path, t) ∈ d.root.tags → (d.select q).1.root.findId? (t.id?.getD (madeId n)) = some path := by
  obtain ⟨-, -, count, found⟩ := d.select_spec q
  constructor
  · intro back n path t here member
    obtain ⟨u, listed, told⟩ := found n path here
    obtain rfl := d.root.tag_unique member listed
    have entry := congrArg (·[n]?) back
    simpa [told, here, Match.ofTag] using entry
  · intro back
    apply List.ext_getElem?
    intro n
    cases here : (matchingPaths d q)[n]? with
    | none =>
      have short := List.getElem?_eq_none_iff.mp here
      rw [List.getElem?_map, List.getElem?_map, here, List.getElem?_eq_none (by omega)]
      rfl
    | some path =>
      obtain ⟨t, listed, told⟩ := found n path here
      rw [List.getElem?_map, List.getElem?_map, here, told]
      exact congrArg some (back n path t here listed)

theorem leadBack_of_free {d : Document} {q : Query} (distinct : d.DistinctIds) (free : d.MadeIdsFree q) :
    LeadBack d q := by
  rw [leadBack_iff]
  intro n path t here member
  have matched := List.mem_of_getElem? here
  rw [Element.findId?_eq_some_iff_precedes]
  refine ⟨(carries_select_iff d q path _).mpr (.inl ⟨n, t, here, member, rfl⟩), ?_⟩
  intro other theirs ne
  rw [carries_select_iff] at theirs
  cases own : t.id? with
  | some id =>
    rw [own, Option.getD_some] at theirs
    obtain ⟨value, nonempty⟩ := t.id?_eq_some_iff.mp own
    rcases theirs with ⟨k, u, there, listed, same⟩ | ⟨-, u, listed, value'⟩
    · cases theirOwn : u.id? with
      | some id' =>
        rw [theirOwn, Option.getD_some] at same
        exact absurd (distinct.path_eq listed member (same ▸ theirOwn) own) ne
      | none =>
        rw [theirOwn, Option.getD_none] at same
        exact absurd matched (free k other u path there listed theirOwn ⟨t, member, same ▸ value⟩).1
    · exact absurd (distinct.path_eq listed member (u.id?_eq_some_iff.mpr ⟨value', nonempty⟩) own) ne
  | none =>
    rw [own, Option.getD_none] at theirs
    rcases theirs with ⟨k, u, there, listed, same⟩ | ⟨-, theirs⟩
    · cases theirOwn : u.id? with
      | some id' =>
        rw [theirOwn, Option.getD_some] at same
        have carries : d.root.Carries other (madeId n) := ⟨u, listed, same ▸ (u.id?_eq_some_iff.mp theirOwn).1⟩
        exact absurd (List.mem_of_getElem? there) (free n path t other here member own carries).1
      | none =>
        rw [theirOwn, Option.getD_none] at same
        rw [madeId_injective same, here] at there
        exact absurd (Option.some.inj there).symm ne
    · rw [precedes_select_iff]
      exact (free n path t other here member own theirs).2

theorem free_of_leadBack {d : Document} {q : Query} (back : LeadBack d q) : d.MadeIdsFree q := by
  rw [leadBack_iff] at back
  intro n path t other here member missing theirs
  have mine := back n path t here member
  rw [missing, Option.getD_none] at mine
  obtain ⟨u, listed, value⟩ := theirs
  have own : u.id? = some (madeId n) := u.id?_eq_some_iff.mpr ⟨value, madeId_ne_nil n⟩
  have ne : other ≠ path := by
    rintro rfl
    rw [d.root.tag_unique listed member, missing] at own
    cases own
  have unmatched : other ∉ matchingPaths d q := by
    intro matched
    obtain ⟨k, there⟩ := List.mem_iff_getElem?.mp matched
    have found := back k other u there listed
    rw [own, Option.getD_some, mine] at found
    exact ne (Option.some.inj found).symm
  refine ⟨unmatched, ?_⟩
  have first := ((d.select q).1.root.findId?_eq_some_iff_precedes.mp mine).2 other
    ((carries_select_iff d q other _).mpr (.inr ⟨unmatched, u, listed, value⟩)) ne
  exact (precedes_select_iff d q path other).mp first

/-! ## What is applied to matches -/

/-- One document is the other with `f` applied once to the tag at each of the paths and to no other. -/
def Document.ChangedAt (before after : Document) (paths : List Path) (f : Element → Element) : Prop :=
  after.skeleton = before.skeleton ∧ ∀ path e, (path, e) ∈ before.elements →
    ∃ e', (path, e') ∈ after.elements ∧ e'.tag = (if path ∈ paths then f e else e).tag

/-- A request that fills with a given paint. -/
def Request.fill (paint : Text) : Request := { overrides := [("fill".toList, .string paint)] }

theorem onTag_fill_ne (t : Tag) : ∃ paint, (Request.fill paint).onTag t ≠ t := by
  refine ⟨'x' :: (t.attributes.value? "fill".toList).getD [], ?_⟩
  intro same
  have sets (paint : Text) : (Request.fill paint).onAttributes t.attributes = t.attributes.set "fill".toList paint := rfl
  have value := congrArg (fun u : Tag => u.attributes.value? "fill".toList) same
  simp only [Request.onTag, sets, Attributes.value?_set_self] at value
  rw [← value] at value
  simp at value

/-- The tag at a path after a request was applied for all matches. -/
theorem tag_applyToMatches (d : Document) (r : Request) (found : List Match) {path : Path} {t u : Tag}
    (before : (path, t) ∈ d.root.tags) (after : (path, u) ∈ (d.applyToMatches r found).root.tags) :
    u = r.onTag^[(found.map fun m => d.root.findId? m.id).count (some path)] t := by
  rw [Document.applyToMatches_eq] at after
  rw [(d.applyToIds_spec r _).2] at after
  obtain ⟨⟨p, v⟩, member, same⟩ := List.mem_map.mp after
  obtain ⟨rfl, rfl⟩ := Prod.mk.inj same
  rw [d.root.tag_unique before member, List.countP_map, List.count_eq_countP, List.countP_map]
  simp only [Function.comp_def, beq_eq_decide]

theorem exists_tag_applyToMatches (d : Document) (r : Request) (found : List Match) {path : Path} {t : Tag}
    (before : (path, t) ∈ d.root.tags) : ∃ u, (path, u) ∈ (d.applyToMatches r found).root.tags := by
  rw [Document.applyToMatches_eq, (d.applyToIds_spec r _).2]
  exact ⟨_, List.mem_map_of_mem before⟩

theorem changedAt_of_leadBack {d : Document} {q : Query} (back : LeadBack d q) (r : Request) :
    (d.select q).1.ChangedAt ((d.select q).1.applyToMatches r (d.select q).2) (matchingPaths d q) r.apply := by
  refine ⟨by rw [Document.applyToMatches_eq]; exact ((d.select q).1.applyToIds_spec r _).1, ?_⟩
  intro path e member
  have top : (path, e.tag) ∈ (d.select q).1.root.tags :=
    (Element.mem_tags_iff _).mpr ⟨e, (Element.mem_elements_iff _).mp member, rfl⟩
  obtain ⟨u, listed⟩ := exists_tag_applyToMatches _ r (d.select q).2 top
  have result := tag_applyToMatches _ r _ top listed
  rw [back, List.count_map_of_injective _ _ (fun _ _ => Option.some.inj)] at result
  obtain ⟨e', leads, rfl⟩ := (Element.mem_tags_iff _).mp listed
  refine ⟨e', (Element.mem_elements_iff _).mpr leads, ?_⟩
  by_cases matched : path ∈ matchingPaths d q
  · rw [result, List.count_eq_one_of_mem (nodup_matchingPaths d q) matched, if_pos matched, r.apply_eq_onTag]
    rfl
  · rw [result, List.count_eq_zero_of_not_mem matched, if_neg matched]
    rfl

/-- A match that the request reaches is reached by its own identifier, as it carries no other. -/
theorem leadBack_of_changedAt {d : Document} {q : Query} (once : ∀ r : Request,
    (d.select q).1.ChangedAt ((d.select q).1.applyToMatches r (d.select q).2) (matchingPaths d q) r.apply) :
    LeadBack d q := by
  rw [leadBack_iff]
  intro n path t here member
  have matched := List.mem_of_getElem? here
  obtain ⟨u, top, value⟩ := (carries_select_iff d q path _).mpr (.inl ⟨n, t, here, member, rfl⟩)
  obtain ⟨e, leads, rfl⟩ := (Element.mem_tags_iff _).mp top
  obtain ⟨paint, visible⟩ := onTag_fill_ne e.tag
  obtain ⟨e', member', painted⟩ := (once (.fill paint)).2 path e ((Element.mem_elements_iff _).mpr leads)
  have top' : (path, e'.tag) ∈ ((d.select q).1.applyToMatches (.fill paint) (d.select q).2).root.tags :=
    (Element.mem_tags_iff _).mpr ⟨e', (Element.mem_elements_iff _).mp member', rfl⟩
  have result := tag_applyToMatches _ _ _ top top'
  rw [if_pos matched, Request.apply_eq_onTag] at painted
  have reached : some path ∈ (d.select q).2.map fun m => (d.select q).1.root.findId? m.id := by
    by_contra missed
    rw [List.count_eq_zero_of_not_mem missed, painted] at result
    exact visible result
  obtain ⟨m, -, found⟩ := List.mem_map.mp reached
  have carries := Element.value?_of_findId? found top
  rw [carries] at value
  rw [← Option.some.inj value]
  exact found

/--
In a document without repeated identifiers, the identifiers of the matches lead back to the matches,
and every request is applied once to each match and to no other element, exactly if the made
identifiers are free.
-/
theorem matches_found_again_iff {s selector : Text} {d : Document} (parsed : Document.parse s = .ok d)
    (distinct : d.DistinctIds) :
    let q := Query.parse selector
    let selected := (d.select q).1
    let found := (d.select q).2
    (found.map (fun m => selected.root.findId? m.id) = (matchingPaths d q).map some ↔ d.MadeIdsFree q) ∧
      ((∀ r : Request, selected.ChangedAt (selected.applyToMatches r found) (matchingPaths d q) r.apply) ↔
        d.MadeIdsFree q) ∧
      (found ≠ [] → ∀ r : Request, transformMatching s selector r =
        ⟨none, s, (selected.applyToMatches r found).source, found⟩) := by
  refine ⟨⟨free_of_leadBack, leadBack_of_free distinct⟩, ⟨?_, ?_⟩, ?_⟩
  · intro once
    exact free_of_leadBack (leadBack_of_changedAt once)
  · intro free r
    exact changedAt_of_leadBack (leadBack_of_free distinct free) r
  · intro told r
    simp [transformMatching, parsed, told]

/-- A document with an identifier that selecting makes for the element after it. -/
def taken : Document :=
  ⟨[], ⟨⟨"svg".toList, [], false⟩,
    .element (identified "g" "_selected_0") .nil (.element ⟨"rect".toList, [], true⟩ .nil .nil)⟩, []⟩

theorem matches_found_again_iff_taken :
    let q := Query.parse "rect".toList
    let selected := (taken.select q).1
    let found := (taken.select q).2
    Document.parse taken.source = .ok taken ∧ taken.DistinctIds ∧
      (found.map (fun m => selected.root.findId? m.id) = (matchingPaths taken q).map some ↔ taken.MadeIdsFree q) ∧
      ((∀ r : Request, selected.ChangedAt (selected.applyToMatches r found) (matchingPaths taken q) r.apply) ↔
        taken.MadeIdsFree q) ∧
      (found ≠ [] → ∀ r : Request, transformMatching taken.source "rect".toList r =
        ⟨none, taken.source, (selected.applyToMatches r found).source, found⟩) := by
  have parsed : Document.parse taken.source = .ok taken := by cbv
  have distinct : taken.DistinctIds := by
    unfold Document.DistinctIds
    decide +kernel
  exact ⟨parsed, distinct, matches_found_again_iff parsed distinct⟩

/-- The made identifier leads to the element that had it, and the request is applied there. -/
theorem taken_id_leads_astray :
    Document.parse taken.source = .ok taken ∧ taken.DistinctIds ∧
      (taken.select (Query.parse "rect".toList)).2.map
        (fun m => (taken.select (Query.parse "rect".toList)).1.root.findId? m.id) = [some [0]] ∧
      matchingPaths taken (Query.parse "rect".toList) = [[1]] ∧
      (transformMatching taken.source "rect".toList (.fill "red".toList)).modified =
        "<svg><g id=\"_selected_0\" fill=\"red\"/><rect id=\"_selected_0\"/></svg>".toList := by
  refine ⟨by cbv, ?_, by decide +kernel, by decide +kernel, by cbv⟩
  unfold Document.DistinctIds
  decide +kernel

end SvgEdit
