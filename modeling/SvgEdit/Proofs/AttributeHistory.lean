import SvgEdit.Proofs.DocumentOrder
import SvgEdit.Proofs.JoinedRuns
import SvgEdit.Proofs.ReadAgain
import SvgEdit.Proofs.Rereading

/-!
# What attributes remember

Whatever changes a document gives values to attributes of its elements, one after the other. What the attributes of an
element are in the end is known by what was read and by the values that were given: names stay in their order, new ones
come last, and an attribute is spelled as it was read as long as it was given no other value than the one read.
-/
namespace SvgEdit

/-! ## Spelling -/

namespace Attribute

/-- The text between the quotes, as it was read. One of the two fields that a spelling puts together. -/
def raw? (a : Attribute) : Option Text := a.spelling.map Spelling.raw

/-- The quotes around the value, the other of the two: double ones where there is no raw text. -/
def quote (a : Attribute) : QuoteMark := (a.spelling.map Spelling.quote).getD .double

end Attribute

/-! ## Values given to attributes -/

namespace Attributes

variable {source as : Attributes} {name value : Text} {a : Attribute}

theorem has_iff : as.has name = true ↔ name ∈ as.map (·.name) := by
  simp [has]

theorem mem_set_of_mem (member : a ∈ as) (kept : a.name = name → a.value = value) : a ∈ as.set name value := by
  induction as with
  | nil => cases member
  | cons b as ih =>
    rw [set]
    rcases List.mem_cons.mp member with rfl | member
    · by_cases same : a.name = name
      · rw [if_pos same, if_pos (kept same)]
        exact List.mem_cons_self
      · rw [if_neg same]
        exact List.mem_cons_self
    · split
      · exact List.mem_cons_of_mem _ member
      · exact List.mem_cons_of_mem _ (ih member)

/-- Where each name stands once, an attribute with another value under the name gives way to the new one. -/
theorem mem_of_mem_set (once : (as.map (·.name)).Nodup) (member : a ∈ as.set name value) :
    a ∈ as ∧ (a.name = name → a.value = value) ∨ a = ⟨name, value, none⟩ := by
  induction as with
  | nil => exact .inr (List.mem_singleton.mp member)
  | cons b as ih =>
    obtain ⟨new, once⟩ := List.nodup_cons.mp once
    rw [set] at member
    by_cases same : b.name = name
    · rw [if_pos same] at member
      rcases List.mem_cons.mp member with rfl | member
      · by_cases equal : b.value = value
        · rw [if_pos equal]
          exact .inl ⟨List.mem_cons_self, fun _ => equal⟩
        · rw [if_neg equal, same]
          exact .inr rfl
      · refine .inl ⟨List.mem_cons_of_mem b member, fun again => absurd ?_ new⟩
        exact List.mem_map.mpr ⟨a, member, again.trans same.symm⟩
    · rw [if_neg same] at member
      rcases List.mem_cons.mp member with rfl | member
      · exact .inl ⟨List.mem_cons_self, fun again => absurd again same⟩
      · exact (ih once member).imp_left fun kept => ⟨List.mem_cons_of_mem b kept.1, kept.2⟩

/-! ## Runs -/

/-- The names that are new among those given values, each where it was given one first. -/
def newNames (source : Attributes) (writes : List (Text × Text)) : List Text :=
  ((writes.map Prod.fst).filter (!source.has ·)).eraseDups

/-- The value that a name was given last. -/
def lastWritten? (writes : List (Text × Text)) (name : Text) : Option Text := writes.reverse.lookup name

/-- The attribute was given no other value than the one it has. -/
def Untouched (writes : List (Text × Text)) (a : Attribute) : Prop :=
  ∀ write ∈ writes, write.1 = a.name → write.2 = a.value

/-- What attributes are after values were given to names, the first one first. -/
structure Records (source : Attributes) (writes : List (Text × Text)) (as : Attributes) : Prop where
  once : (as.map (·.name)).Nodup
  order : as.map (·.name) = source.map (·.name) ++ newNames source writes
  value : ∀ name, as.value? name = (lastWritten? writes name).or (source.value? name)
  has : ∀ name, as.has name = true ↔ name ∈ source.map (·.name) ∨ name ∈ writes.map Prod.fst
  kept : ∀ a ∈ source, Untouched writes a → a ∈ as
  respelled : ∀ a ∈ as, ¬ (a ∈ source ∧ Untouched writes a) → a.raw? = none ∧ a.quote = .double

theorem mem_newNames_iff {writes : List (Text × Text)} :
    name ∈ newNames source writes ↔ name ∈ writes.map Prod.fst ∧ name ∉ source.map (·.name) := by
  rw [newNames, List.mem_eraseDups, List.mem_filter, Bool.not_eq_true', ← Bool.not_eq_true, has_iff]

theorem newNames_concat (source : Attributes) (writes : List (Text × Text)) (name value : Text) :
    newNames source (writes ++ [(name, value)]) =
      if name ∈ source.map (·.name) ++ newNames source writes then newNames source writes
      else newNames source writes ++ [name] := by
  have parts : newNames source (writes ++ [(name, value)]) = newNames source writes ++
      (([name].filter (!source.has ·)).removeAll ((writes.map Prod.fst).filter (!source.has ·))).eraseDups := by
    rw [newNames, List.map_append, List.filter_append, List.eraseDups_append]
    rfl
  simp only [parts, List.mem_append, mem_newNames_iff, ← has_iff]
  by_cases known : source.has name = true
  · simp [known, List.removeAll]
  · by_cases again : name ∈ writes.map Prod.fst <;> simp [known, again, List.removeAll, List.eraseDups_cons]

theorem untouched_concat_iff {writes : List (Text × Text)} :
    Untouched (writes ++ [(name, value)]) a ↔ Untouched writes a ∧ (a.name = name → a.value = value) := by
  simp only [Untouched, List.forall_mem_append, List.forall_mem_singleton]
  exact and_congr_right fun _ => ⟨fun h same => (h same.symm).symm, fun h same => (h same.symm).symm⟩

namespace Records

theorem start (once : (source.map (·.name)).Nodup) : Records source [] source := by
  refine ⟨once, (List.append_nil _).symm, fun name => rfl, fun name => ?_, fun a member _ => member, ?_⟩
  · rw [has_iff]
    simp
  · intro a member touched
    exact absurd ⟨member, fun write member => absurd member List.not_mem_nil⟩ touched

/-- One more value. -/
theorem set {writes : List (Text × Text)} (h : Records source writes as) (name value : Text) :
    Records source (writes ++ [(name, value)]) (as.set name value) := by
  have order : (as.set name value).map (·.name) = source.map (·.name) ++ newNames source (writes ++ [(name, value)]) := by
    rw [map_name_set, newNames_concat, h.order]
    split
    · rfl
    · rw [List.append_assoc]
  refine ⟨?_, order, ?_, ?_, ?_, ?_⟩
  · have once := h.once
    rw [map_name_set]
    split
    · exact once
    · next new =>
      rw [← List.concat_eq_append, List.nodup_concat]
      exact ⟨new, once⟩
  · intro other
    rw [lastWritten?, List.reverse_append, List.reverse_singleton, List.singleton_append, List.lookup_cons]
    by_cases same : other = name
    · rw [same, value?_set_self, beq_self_eq_true]
      rfl
    · rw [value?_set_of_ne as value same, beq_false_of_ne same]
      exact h.value other
  · intro other
    rw [has_iff, order, List.mem_append, mem_newNames_iff]
    tauto
  · intro a member untouched
    obtain ⟨before, last⟩ := untouched_concat_iff.mp untouched
    exact mem_set_of_mem (h.kept a member before) last
  · -- What was not just written was there before, and has been touched before if it is touched now.
    intro a member touched
    rcases mem_of_mem_set h.once member with ⟨member, last⟩ | rfl
    · exact h.respelled a member fun ⟨read, before⟩ => touched ⟨read, untouched_concat_iff.mpr ⟨before, last⟩⟩
    · exact ⟨rfl, rfl⟩

/-- All values, one after the other. -/
theorem foldl {writes : List (Text × Text)} (h : Records source writes as) (more : List (Text × Text)) :
    Records source (writes ++ more) (more.foldl (fun as (n, v) => as.set n v) as) := by
  induction more generalizing writes as with
  | nil => rwa [List.append_nil]
  | cons write more ih =>
    rw [List.append_cons]
    exact ih (h.set write.1 write.2)

end Records
end Attributes

/-! ## Changes -/

/-- What changes attributes in a document. -/
inductive Change
  | set (edit : Edit)
  | assign (paths : List Path)
  | transform (id : Text) (r : Request)

namespace Document

/-- The document after a change. A request for an identifier that is not there changes nothing. -/
def changed (d : Document) : Change → Document
  | .set edit => d.edited [edit]
  | .assign paths => (assignIds d paths).1
  | .transform id r => (d.applyRequest? id r).getD d

/-- The document after all changes, the first one first. -/
def changedAll (d : Document) (changes : List Change) : Document := changes.foldl changed d

/-! ## Edits that changes are made of -/

/-- The identifiers that are set at paths, the first of them being at `place`. -/
def madeIdsFrom (place : Nat) (d : Document) : List Path → List Edit
  | [] => []
  | path :: paths =>
    match d.root.elementAt? path with
    | none => madeIdsFrom (place + 1) d paths
    | some e =>
      let made := if e.id?.isSome then [] else [⟨path, idName, madeId place⟩]
      made ++ madeIdsFrom (place + 1) (d.edited made) paths

/-- The values that a request gives to the first element with an identifier. -/
def requestEdits (d : Document) (id : Text) (r : Request) : List Edit :=
  match d.root.findId? id with
  | none => []
  | some path =>
    match d.root.elementAt? path with
    | none => []
    | some e => (r.changes (e.attribute? transformName)).map fun (name, value) => ⟨path, name, value⟩

/-- The values that a change gives to attributes, in order. -/
def edits (d : Document) : Change → List Edit
  | .set edit => [edit]
  | .assign paths => d.madeIdsFrom 0 paths
  | .transform id r => d.requestEdits id r

/-- The values that all changes give to attributes, in order. -/
def history (d : Document) : List Change → List Edit
  | [] => []
  | change :: changes => d.edits change ++ (d.changed change).history changes

theorem edited_append (d : Document) (first more : List Edit) : d.edited (first ++ more) = (d.edited first).edited more :=
  List.foldl_append

/-! ## Changes are nothing but edits -/

theorem modifyAt_congr {d : Document} {path : Path} {f g : Element → Element}
    (same : ∀ x, d.root.elementAt? path = some x → f x = g x) : d.modifyAt path f = d.modifyAt path g := by
  rw [modifyAt, modifyAt, Element.modifyAt_congr same]

theorem modifyAt_eq_self {d : Document} {path : Path} {f : Element → Element}
    (same : ∀ x, d.root.elementAt? path = some x → f x = x) : d.modifyAt path f = d := by
  rw [modifyAt, Element.modifyAt_eq_self same]

theorem modifyAt_withId {d : Document} {path : Path} {e : Element} (leads : d.root.elementAt? path = some e) (place : Nat) :
    d.modifyAt path (·.withId place) = d.edited (if e.id?.isSome then [] else [⟨path, idName, madeId place⟩]) := by
  have only {x : Element} (found : d.root.elementAt? path = some x) : x = e := Option.some.inj (found.symm.trans leads)
  split
  · next own => exact modifyAt_eq_self fun x found => only found ▸ if_pos own
  · next missing => exact modifyAt_congr fun x found => only found ▸ if_neg missing

theorem assignIdsFrom_eq_edited (paths : List Path) (place : Nat) (d : Document) :
    (assignIdsFrom place d paths).1 = d.edited (d.madeIdsFrom place paths) := by
  induction paths generalizing place d with
  | nil => rfl
  | cons path paths ih =>
    rw [assignIdsFrom, madeIdsFrom]
    cases leads : d.root.elementAt? path with
    | none => exact ih (place + 1) d
    | some e =>
      dsimp only
      rw [edited_append, ← modifyAt_withId leads]
      exact ih (place + 1) _

/-- Edits of one element are one change of it. -/
theorem edited_map (d : Document) (path : Path) (writes : List (Text × Text)) :
    d.edited (writes.map fun (name, value) => ⟨path, name, value⟩) =
      d.modifyAt path fun e => writes.foldl (fun e (n, v) => e.setAttribute n v) e := by
  induction writes generalizing d with
  | nil => exact (modifyAt_eq_self fun _ _ => rfl).symm
  | cons write writes ih =>
    have step := ih (d.modifyAt path (·.setAttribute write.1 write.2))
    rw [modifyAt, modifyAt, Element.modifyAt_modifyAt] at step
    exact step

theorem applyRequest?_eq_edited (d : Document) (id : Text) (r : Request) :
    (d.applyRequest? id r).getD d = d.edited (d.requestEdits id r) := by
  rw [applyRequest?, requestEdits]
  cases d.root.findId? id with
  | none => rfl
  | some path =>
    rw [Option.map_some, Option.getD_some]
    cases leads : d.root.elementAt? path with
    | none =>
      simp only [leads]
      refine modifyAt_eq_self fun x found => ?_
      rw [leads] at found
      cases found
    | some e =>
      simp only [leads]
      rw [edited_map]
      refine modifyAt_congr fun x found => ?_
      obtain rfl := Option.some.inj (leads.symm.trans found)
      exact r.apply_eq_foldl e

theorem changed_eq_edited (d : Document) (change : Change) : d.changed change = d.edited (d.edits change) := by
  cases change with
  | set edit => rfl
  | assign paths => exact assignIdsFrom_eq_edited paths 0 d
  | transform id r => exact d.applyRequest?_eq_edited id r

theorem changedAll_eq_edited (d : Document) (changes : List Change) :
    d.changedAll changes = d.edited (d.history changes) := by
  induction changes generalizing d with
  | nil => rfl
  | cons change changes ih =>
    rw [history, edited_append, ← changed_eq_edited]
    exact ih (d.changed change)

end Document

/-! ## Edits of one element -/

/-- The values that are given to attributes of the element that a path leads to. -/
def writesAt (path : Path) (edits : List Edit) : List (Text × Text) :=
  (edits.filter (·.path = path)).map fun edit => (edit.name, edit.value)

theorem writesAt_cons (path : Path) (edit : Edit) (edits : List Edit) : writesAt path (edit :: edits) =
    if edit.path = path then (edit.name, edit.value) :: writesAt path edits else writesAt path edits := by
  by_cases here : edit.path = path <;> simp [writesAt, here]

/-- Edits change the attributes of the elements that they are for, and nothing else in a tag. -/
theorem Document.mem_tags_edited {d : Document} {edits : List Edit} {path : Path} {t : Tag}
    (listed : (path, t) ∈ (d.edited edits).root.tags) :
    ∃ u, (path, u) ∈ d.root.tags ∧
      t = { u with attributes := (writesAt path edits).foldl (fun as (n, v) => as.set n v) u.attributes } := by
  induction edits generalizing d with
  | nil => exact ⟨t, listed, rfl⟩
  | cons edit edits ih =>
    obtain ⟨u, between, rfl⟩ := ih listed
    have step : (d.modifyAt edit.path (·.setAttribute edit.name edit.value)).root.tags =
        d.root.tags.map (retag edit.path fun t => { t with attributes := t.attributes.set edit.name edit.value }) :=
      Element.tags_modifyAt (fun t => { t with attributes := t.attributes.set edit.name edit.value }) edit.path d.root
    rw [step] at between
    obtain ⟨⟨p, w⟩, before, same⟩ := List.mem_map.mp between
    by_cases here : p = edit.path
    · rw [retag, if_pos here] at same
      obtain ⟨rfl, rfl⟩ := Prod.mk.inj same
      exact ⟨w, before, by rw [writesAt_cons, if_pos here.symm, List.foldl_cons]⟩
    · rw [retag, if_neg here] at same
      obtain ⟨rfl, rfl⟩ := Prod.mk.inj same
      exact ⟨w, before, by rw [writesAt_cons, if_neg (Ne.symm here)]⟩

/-! ## Attributes as they were read -/

/-- The attribute has the name and the text that are written, and the value that the text stands for. -/
structure WrittenAttribute.Gives (w : WrittenAttribute) (a : Attribute) : Prop where
  name : a.name = w.key
  raw : a.raw? = some w.spelling.raw
  value : unescape w.spelling.raw = .ok a.value

/-- The attributes of a tag, in their order; their quotes are those that are written if no name begins with `=`. -/
structure Attributes.ReadFrom (as : Attributes) (inside : Text) : Prop where
  once : (as.map (·.name)).Nodup
  gives : List.Forall₂ WrittenAttribute.Gives (splitAttributes inside).1 as
  quotes : as.Clear → as.map Attribute.quote = (splitAttributes inside).1.map (·.spelling.quote)

theorem gives_of_unescapeAll {written : List WrittenAttribute} {marks : List QuoteMark} {as : Attributes}
    (values : unescapeAll written marks = .ok as) : List.Forall₂ WrittenAttribute.Gives written as := by
  induction written generalizing marks as with
  | nil =>
    obtain rfl := Except.ok.inj values
    exact .nil
  | cons w written ih =>
    obtain ⟨value, rest, read, later, rfl⟩ := unescapeAll_cons_eq_ok_iff.mp values
    exact .cons ⟨rfl, rfl, read⟩ (ih later)

theorem quotes_of_spells {written : List WrittenAttribute} {as : Attributes} (spells : List.Forall₂ Spells written as) :
    as.map Attribute.quote = written.map (·.spelling.quote) := by
  induction spells with
  | nil => rfl
  | cons spell _ ih =>
    rw [List.map_cons, List.map_cons, ih, Attribute.quote, spell.spelling]
    rfl

theorem readFrom_of_readAttributes {inside : Text} {as : Attributes} (read : readAttributes inside = .ok as) :
    as.ReadFrom inside := by
  obtain ⟨written, splits, values⟩ := readAttributes_eq_ok_iff.mp read
  have same : (splitAttributes inside).1 = written := by rw [splits.splitAttributes_eq]
  refine ⟨?_, same ▸ gives_of_unescapeAll values, fun clear => ?_⟩
  · rw [names_of_unescapeAll values]
    simpa using splits.once List.nodup_nil
  · obtain ⟨written, splits, spells⟩ := (readAttributes_eq_ok_iff_spells clear).mp read
    rw [splits.splitAttributes_eq]
    exact quotes_of_spells spells

/-- The tags of a document are those of pieces of the text. -/
theorem Document.readFrom_of_parse {s : Text} {d : Document} (parsed : Document.parse s = .ok d) {path : Path} {t : Tag}
    (listed : (path, t) ∈ d.root.tags) :
    ∃ inside, (.startTag inside ∈ piecesOf s ∨ .emptyTag inside ∈ piecesOf s) ∧ t.attributes.ReadFrom inside := by
  obtain ⟨-, ⟨front, middle, back, whole, -, -, builds, -, -⟩⟩ := Document.builds_piecesOf parsed
  have read := builds.forall_tag (n := 0) (P := fun t => ∃ inside,
      (.startTag inside ∈ piecesOf s ∨ .emptyTag inside ∈ piecesOf s) ∧ t.attributes.ReadFrom inside)
    fun inside selfClosing e member tag => by
      obtain ⟨as, read, rfl⟩ := Assembly.tagElement_eq_ok_iff.mp tag
      refine ⟨inside, ?_, readFrom_of_readAttributes read⟩
      rw [whole]
      have within := List.mem_append_right front (List.mem_append_left back member)
      cases selfClosing with
      | true => exact .inr within
      | false => exact .inl within
  obtain ⟨root, below, -⟩ := Content.forall_elementsFrom_element.mp read
  obtain ⟨⟨path, e⟩, member, same⟩ := List.mem_map.mp listed
  obtain ⟨rfl, rfl⟩ := Prod.mk.inj same
  rcases List.mem_cons.mp member with top | inner
  · cases top
    exact root
  · exact below _ inner

/-! ## Runs of changes -/

/--
Changes of a document that was read are nothing but values given to attributes, one after the other. After them the
attributes of each element are known by those that were read where it is, and by the values that it was given.
-/
theorem Document.changedAll_records {s : Text} {d : Document} (parsed : Document.parse s = .ok d) (changes : List Change) :
    d.changedAll changes = d.edited (d.history changes) ∧
      ∀ path e', (d.changedAll changes).root.elementAt? path = some e' →
        ∃ e inside, d.root.elementAt? path = some e ∧
          (.startTag inside ∈ piecesOf s ∨ .emptyTag inside ∈ piecesOf s) ∧ e.tag.attributes.ReadFrom inside ∧
          Attributes.Records e.tag.attributes (writesAt path (d.history changes)) e'.tag.attributes := by
  have edited := d.changedAll_eq_edited changes
  refine ⟨edited, fun path e' leads => ?_⟩
  rw [edited] at leads
  obtain ⟨t, before, same⟩ := mem_tags_edited ((d.edited _).root.mem_tags_iff.mpr ⟨e', leads, rfl⟩)
  obtain ⟨e, leads, rfl⟩ := d.root.mem_tags_iff.mp before
  obtain ⟨inside, piece, read⟩ := readFrom_of_parse parsed before
  refine ⟨e, inside, leads, piece, read, ?_⟩
  rw [same]
  exact (Attributes.Records.start read.once).foldl _

/-- A value that is given again, an identifier over an empty one, and a request that finds it. -/
def mixedChanges : List Change :=
  [.set ⟨[2], "fill".toList, "red".toList⟩, .assign [[2], [0], [2], [7]],
    .transform "_selected_0".toList { translate := some ⟨.ofNat 1, .ofNat 2⟩, overrides := [("r".toList, .bool true)] },
    .set ⟨[2], "r".toList, "3".toList⟩]

/-- The attributes that the second of three elements has after these changes. -/
def mixedAttributes : Attributes :=
  [⟨"fill".toList, "red".toList, some ⟨"r&#101;d".toList, .single⟩⟩, ⟨idName, "_selected_0".toList, none⟩,
    ⟨transformName, "translate(1 2)".toList, none⟩, ⟨"r".toList, "3".toList, none⟩]

theorem Document.changedAll_records_assorted :
    Document.parse assorted.source = .ok assorted ∧
      (assorted.changedAll mixedChanges).root.elementAt? [2] = some ⟨⟨"a".toList, mixedAttributes, true⟩, .nil⟩ ∧
      ∃ e inside, assorted.root.elementAt? [2] = some e ∧
        (.startTag inside ∈ piecesOf assorted.source ∨ .emptyTag inside ∈ piecesOf assorted.source) ∧
        e.tag.attributes.ReadFrom inside ∧
        Attributes.Records e.tag.attributes (writesAt [2] (assorted.history mixedChanges)) mixedAttributes := by
  have leads : (assorted.changedAll mixedChanges).root.elementAt? [2] =
      some ⟨⟨"a".toList, mixedAttributes, true⟩, .nil⟩ := by decide +kernel
  exact ⟨parse_assorted, leads, (changedAll_records parse_assorted mixedChanges).2 [2] _ leads⟩

end SvgEdit
