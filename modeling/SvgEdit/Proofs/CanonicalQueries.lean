import SvgEdit.Proofs.Fragments

/-!
# Queries read back

Whatever text a query is read from, its names are names, none of them is there twice, and no value closes a
bracket. Written out, it is a selector with the tag first, then the identifier, the classes and the attributes
with their values between double quotes; so it is read back as it is, unless its tag would be taken for more.
-/
namespace SvgEdit

/-! ## Ends of trimmed text -/

namespace Text

theorem head?_trim (s : Text) : ∀ c ∈ (trim s).head?, isBlank c = false := by
  intro c head
  obtain ⟨tail, whole, -⟩ := exists_dropWhileEnd isBlank (s.dropWhile isBlank)
  rw [← trim] at whole
  refine stops_dropWhile isBlank s c ?_
  rw [whole, List.head?_append_of_ne_nil]
  · exact head
  · rintro empty
    rw [empty] at head
    cases head

theorem getLast?_trim (s : Text) : ∀ c ∈ (trim s).getLast?, isBlank c = false := by
  intro c last
  rw [trim, dropWhileEnd, List.getLast?_reverse] at last
  exact stops_dropWhile isBlank _ c last

end Text

namespace Query

/-! ## What is read -/

/-- A name that can stand after a mark. -/
def IsMarkedName (name : Text) : Prop := name ≠ [] ∧ ∀ c ∈ name, isNameChar c = true

instance : DecidablePred IsMarkedName := fun _ => inferInstanceAs (Decidable (_ ∧ _))

/-- A name that can stand between brackets. -/
def IsAttributeName (name : Text) : Prop := name ≠ [] ∧ ∀ c ∈ name, isNameChar c = true ∨ c = ':'

/-- A tag that can be what remains of a text, trimmed. -/
def IsTag (tag : Text) : Prop :=
  tag ≠ [] ∧ (∀ c ∈ tag.head?, Text.isBlank c = false) ∧ ∀ c ∈ tag.getLast?, Text.isBlank c = false

/-- What holds of every query that is read. -/
structure WellFormed (q : Query) : Prop where
  id : ∀ name ∈ q.id, IsMarkedName name
  classes : ∀ name ∈ q.classes, IsMarkedName name
  distinctClasses : q.classes.Nodup
  names : ∀ constraint ∈ q.attributes, IsAttributeName constraint.1
  distinctNames : (q.attributes.map Prod.fst).Nodup
  values : ∀ constraint ∈ q.attributes, ∀ value ∈ constraint.2, ']' ∉ value
  tag : ∀ tag ∈ q.tag, IsTag tag

/-- The tag holds none of the characters by which fragments are marked. -/
def PlainTag (q : Query) : Prop := ∀ tag ∈ q.tag, ∀ c ∈ tag, c ≠ '#' ∧ c ≠ '.' ∧ c ≠ '[' ∧ c ≠ ']'

instance (q : Query) : Decidable q.PlainTag := inferInstanceAs (Decidable (∀ _ ∈ _, _))

theorem isMarkedName_of_takeMarked {mark : Char} {inside : Bool} {s name rest : Text}
    (taken : takeMarked mark inside s = some (name, rest)) : IsMarkedName name := by
  refine ⟨ne_nil_of_takeMarked taken, ?_⟩
  induction s generalizing inside name rest with
  | nil => cases taken
  | cons c s ih =>
    rw [takeMarked] at taken
    split at taken
    · obtain ⟨rfl, -⟩ := Prod.mk.inj (Option.some.inj taken)
      exact fun d member => List.mem_takeWhile_imp member
    · obtain ⟨⟨n, r⟩, later, same⟩ := Option.map_eq_some_iff.mp taken
      obtain ⟨rfl, -⟩ := Prod.mk.inj same
      exact ih later

theorem forall_mem_noteClass {p : Text → Prop} {classes : List Text} {name : Text} (all : ∀ c ∈ classes, p c)
    (holds : p name) : ∀ c ∈ noteClass classes name, p c := by
  rw [noteClass_eq]
  split
  · exact all
  · exact List.forall_mem_append.mpr ⟨all, List.forall_mem_singleton.mpr holds⟩

/-- Names that are taken stay names, and none is there twice. -/
theorem takeClasses_names (classes : List Text) (s : Text) (named : ∀ c ∈ classes, IsMarkedName c)
    (distinct : classes.Nodup) :
    (∀ c ∈ (takeClasses classes s).1, IsMarkedName c) ∧ (takeClasses classes s).1.Nodup := by
  induction classes, s using takeClasses.induct with
  | case1 classes s name rest taken _ ih =>
    simp only [dite_eq_ite, ← noteClass_eq] at ih
    rw [takeClasses_of_some taken]
    exact ih (forall_mem_noteClass named (isMarkedName_of_takeMarked taken)) (nodup_noteClass distinct name)
  | case2 classes s missing =>
    rw [takeClasses_of_none missing]
    exact ⟨named, distinct⟩

theorem mem_of_mem_stripQuotes {value : Text} {c : Char} (member : c ∈ stripQuotes value) : c ∈ value := by
  cases value with
  | nil => exact member
  | cons d rest =>
    rw [stripQuotes] at member
    split at member
    · exact List.mem_cons_of_mem d (List.mem_of_mem_dropLast member)
    · exact member

/-- A constraint that is read has a name, and its value is part of what was between the brackets. -/
theorem readAttribute?_spec {inside name : Text} {value : Option Text}
    (read : readAttribute? inside = some (name, value)) :
    IsAttributeName name ∧ ∀ v ∈ value, ∀ c ∈ v, c ∈ inside := by
  rw [readAttribute?] at read
  split at read
  · cases read
  · next proper =>
    obtain ⟨nonempty, chars⟩ := not_or.mp proper
    have named : IsAttributeName (inside.takeWhile (· ≠ '=')) := by
      refine ⟨nonempty, fun c member => ?_⟩
      simpa using List.all_eq_true.mp (not_not.mp chars) c member
    split at read
    · obtain ⟨rfl, rfl⟩ := Prod.mk.inj (Option.some.inj read)
      exact ⟨named, fun v none => absurd none (Option.not_mem_none v)⟩
    · next after =>
      split at read
      · cases read
      · obtain ⟨rfl, rfl⟩ := Prod.mk.inj (Option.some.inj read)
        refine ⟨named, fun v same c member => ?_⟩
        obtain rfl := Option.some.inj same
        refine (List.dropWhile_sublist (· ≠ '=')).subset ?_
        rw [after]
        exact List.mem_cons_of_mem _ (mem_of_mem_stripQuotes member)

/-- What stands before the first bracket that closes holds no such bracket. -/
theorem notMem_of_cut? {c : Char} {s before rest : Text} (cut : Text.cut? [c] s = some (before, rest)) : c ∉ before := by
  intro member
  obtain ⟨whole, first⟩ := (Text.cut?_eq_some_iff (List.cons_ne_nil _ _)).mp cut
  obtain ⟨front, back, rfl⟩ := List.append_of_mem member
  have sooner := first front (back ++ [c] ++ rest) (by simp [whole])
  rw [List.length_append, List.length_cons] at sooner
  omega

theorem takeAttribute_spec {s rest : Text} {found : Text × Option Text}
    (taken : takeAttribute s = some (found, rest)) :
    IsAttributeName found.1 ∧ ∀ value ∈ found.2, ']' ∉ value := by
  induction s generalizing rest with
  | nil => cases taken
  | cons c s ih =>
    have later {r : Text} (taken : ((takeAttribute s).map fun entry => (entry.1, c :: entry.2)) = some (found, r)) :
        IsAttributeName found.1 ∧ ∀ value ∈ found.2, ']' ∉ value := by
      obtain ⟨⟨f, r'⟩, inner, same⟩ := Option.map_eq_some_iff.mp taken
      obtain ⟨rfl, -⟩ := Prod.mk.inj same
      exact ih inner
    rw [takeAttribute] at taken
    split at taken
    · split at taken
      · next cut =>
        split at taken
        · next read =>
          obtain ⟨rfl, -⟩ := Prod.mk.inj (Option.some.inj taken)
          obtain ⟨named, part⟩ := readAttribute?_spec read
          exact ⟨named, fun value asked close => notMem_of_cut? cut (part value asked _ close)⟩
        · exact later taken
      · exact later taken
    · exact later taken

theorem map_fst_putAttribute (name : Text) (value : Option Text) (constraints : List (Text × Option Text)) :
    (putAttribute name value constraints).map Prod.fst = noteClass (constraints.map Prod.fst) name := by
  induction constraints with
  | nil => rfl
  | cons constraint constraints ih =>
    obtain ⟨n, v⟩ := constraint
    rw [putAttribute]
    by_cases same : n = name
    · simp [same, noteClass_eq]
    · rw [if_neg same, List.map_cons, ih]
      by_cases known : name ∈ constraints.map Prod.fst <;> simp [noteClass_eq, known, Ne.symm same]

theorem forall_mem_putAttribute {p : Text × Option Text → Prop} {constraints : List (Text × Option Text)} {name : Text}
    {value : Option Text} (all : ∀ a ∈ constraints, p a) (holds : p (name, value)) :
    ∀ a ∈ putAttribute name value constraints, p a := by
  induction constraints with
  | nil => exact List.forall_mem_singleton.mpr holds
  | cons constraint constraints ih =>
    obtain ⟨here, later⟩ := List.forall_mem_cons.mp all
    rw [putAttribute]
    split
    · next same =>
      subst same
      exact List.forall_mem_cons.mpr ⟨holds, later⟩
    · exact List.forall_mem_cons.mpr ⟨here, ih later⟩

/-- What holds of every constraint that is taken holds of all that are noted, and no name is there twice. -/
theorem takeAttributes_names (constraints : List (Text × Option Text)) (s : Text)
    (proper : ∀ a ∈ constraints, IsAttributeName a.1 ∧ ∀ value ∈ a.2, ']' ∉ value)
    (distinct : (constraints.map Prod.fst).Nodup) :
    (∀ a ∈ (takeAttributes constraints s).1, IsAttributeName a.1 ∧ ∀ value ∈ a.2, ']' ∉ value) ∧
      ((takeAttributes constraints s).1.map Prod.fst).Nodup := by
  induction constraints, s using takeAttributes.induct with
  | case1 constraints s name value rest taken _ ih =>
    rw [takeAttributes_of_some taken]
    refine ih (forall_mem_putAttribute proper (takeAttribute_spec taken)) ?_
    rw [map_fst_putAttribute]
    exact nodup_noteClass distinct name
  | case2 constraints s missing =>
    rw [takeAttributes_of_none missing]
    exact ⟨proper, distinct⟩

/-- What remains, trimmed, is a tag if it is anything. -/
theorem isTag_trim (rest : Text) :
    ∀ tag ∈ (if Text.trim rest = [] then none else some (Text.trim rest) : Option Text), IsTag tag := by
  intro tag same
  split at same
  · cases same
  · next nonempty =>
    obtain rfl := Option.some.inj same
    exact ⟨nonempty, Text.head?_trim rest, Text.getLast?_trim rest⟩

/-- What is read once the identifier is taken out. -/
theorem wellFormed_of_id {id : Option Text} (named : ∀ name ∈ id, IsMarkedName name) (s : Text) :
    let (classes, s) := takeClasses [] s
    let (attributes, s) := takeAttributes [] s
    WellFormed { tag := if Text.trim s = [] then none else some (Text.trim s), id, classes, attributes } := by
  obtain ⟨classes, distinct⟩ := takeClasses_names [] s (List.forall_mem_nil _) List.nodup_nil
  obtain ⟨attributes, distinct'⟩ := takeAttributes_names [] (takeClasses [] s).2 (List.forall_mem_nil _) List.nodup_nil
  exact ⟨named, classes, distinct, fun a member => (attributes a member).1, distinct',
    fun a member => (attributes a member).2, isTag_trim _⟩

/-- Every query that is read is well-formed. -/
theorem wellFormed_parse (s : Text) : (parse s).WellFormed := by
  rw [parse]
  cases taken : takeMarked '#' false s with
  | none => exact wellFormed_of_id (fun name missing => absurd missing (Option.not_mem_none name)) s
  | some found =>
    refine wellFormed_of_id (fun name same => ?_) found.2
    obtain rfl := Option.some.inj same
    exact isMarkedName_of_takeMarked taken

/-! ## What is written -/

/-- A constraint as a part of a selector, its value between double quotes. -/
def partOf (constraint : Text × Option Text) : Part :=
  .bracketed constraint.1 (constraint.2.map (.quoted '"'))

/-- The parts of a query, but for its tag. -/
def markedParts (q : Query) : List Part :=
  q.id.toList.map (.marked '#') ++ q.classes.map (.marked '.') ++ q.attributes.map partOf

/-- The parts of a query, in the order in which they are written. -/
def parts (q : Query) : List Part := q.tag.toList.map .tag ++ q.markedParts

theorem text_partOf (constraint : Text × Option Text) : (partOf constraint).text = attributeText constraint := by
  obtain ⟨name, _ | value⟩ := constraint
  · rfl
  · simp [partOf, Part.text, attributeText, Quoting.text]

theorem textOf_parts {q : Query} (constrained : q.isWildcard = false) : textOf q.parts = q.text := by
  have tag (tag : Option Text) : textOf (tag.toList.map .tag) = tag.getD [] := by
    cases tag <;> simp [textOf, Part.text]
  have id (id : Option Text) : textOf (id.toList.map (.marked '#')) = id.elim [] ('#' :: ·) := by
    cases id <;> simp [textOf, Part.text]
  have classes (names : List Text) : textOf (names.map (.marked '.')) = names.flatMap ('.' :: ·) := by
    rw [textOf, List.flatMap_map]
    rfl
  have attributes (constraints : List (Text × Option Text)) :
      textOf (constraints.map partOf) = constraints.flatMap attributeText := by
    rw [textOf, List.flatMap_map, funext text_partOf]
  rw [text, if_neg (by rw [constrained]; exact Bool.false_ne_true), parts, markedParts]
  simp only [textOf_append, tag, id, classes, attributes, List.append_assoc]

theorem tagsOf_markedParts (q : Query) : ∀ p ∈ q.markedParts, p.tag? = none := by
  intro p member
  simp only [markedParts, List.mem_append, List.mem_map] at member
  obtain ((⟨_, -, rfl⟩ | ⟨_, -, rfl⟩) | ⟨_, -, rfl⟩) := member <;> rfl

theorem filterMap_parts {α : Type} (f : Part → Option α) (q : Query) :
    q.parts.filterMap f = q.tag.toList.filterMap (f ∘ .tag) ++ (q.id.toList.filterMap (f ∘ .marked '#') ++
      (q.classes.filterMap (f ∘ .marked '.') ++ q.attributes.filterMap (f ∘ partOf))) := by
  simp only [parts, markedParts, List.filterMap_append, List.filterMap_map, List.append_assoc]

theorem tagsOf_parts (q : Query) : tagsOf q.parts = q.tag.toList := by
  simp [tagsOf, filterMap_parts, Function.comp_def, Part.tag?, partOf]

theorem idsOf_parts (q : Query) : idsOf q.parts = q.id.toList := by
  simp [idsOf, filterMap_parts, Function.comp_def, Part.under?, partOf]

theorem classesOf_parts (q : Query) : classesOf q.parts = q.classes := by
  simp [classesOf, filterMap_parts, Function.comp_def, Part.under?, partOf]

theorem constraintsOf_parts (q : Query) : constraintsOf q.parts = q.attributes := by
  simp [constraintsOf, filterMap_parts, Function.comp_def, Part.constraint?, partOf, Quoting.value]

theorem eraseDups_of_nodup {names : List Text} (distinct : names.Nodup) : names.eraseDups = names := by
  induction names using List.reverseRecOn with
  | nil => rfl
  | append_singleton names name ih =>
    rw [← List.concat_eq_append, List.nodup_concat] at distinct
    rw [eraseDups_concat, ih distinct.2, noteClass_eq, if_neg distinct.1]

/-- Its parts ask for what a query asks. -/
theorem WellFormed.ofParts_parts {q : Query} (h : q.WellFormed) : ofParts q.parts = q := by
  have attributes := foldl_noteConstraint q.attributes
  rw [foldl_noteConstraint_of_nodup h.distinctNames] at attributes
  rw [ofParts, tagsOf_parts, idsOf_parts, classesOf_parts, constraintsOf_parts, ← attributes,
    eraseDups_of_nodup h.distinctClasses, Option.head?_toList, Option.head?_toList]

theorem WellFormed.proper_parts {q : Query} (h : q.WellFormed) (plain : q.PlainTag) : ∀ p ∈ q.parts, p.Proper := by
  intro p member
  simp only [parts, markedParts, List.mem_append, List.mem_map, Option.mem_toList] at member
  obtain ⟨tag, asked, rfl⟩ | (⟨name, asked, rfl⟩ | ⟨name, asked, rfl⟩) | ⟨constraint, asked, rfl⟩ := member
  · obtain ⟨nonempty, first, last⟩ := h.tag tag asked
    exact ⟨nonempty, first, last, plain tag asked⟩
  · exact ⟨.inl rfl, h.id name asked⟩
  · exact ⟨.inr rfl, h.classes name asked⟩
  · obtain ⟨named, chars⟩ := h.names constraint asked
    refine ⟨named, chars, fun v written => ?_⟩
    obtain ⟨value, given, rfl⟩ := Option.map_eq_some_iff.mp written
    exact ⟨.inl rfl, h.values constraint asked value given⟩

/-- Nothing stands before the tag, so that no name runs into it. -/
theorem isChain_parts (q : Query) : q.parts.IsChain Part.CanPrecede := by
  have follows (p q : Part) (other : q.tag? = none) : p.CanPrecede q := by
    rintro name rfl
    cases other
  have marked : q.markedParts.Pairwise Part.CanPrecede :=
    List.pairwise_of_forall_mem_list fun p _ r member => follows p r (q.tagsOf_markedParts r member)
  refine List.Pairwise.isChain ?_
  rw [parts]
  cases q.tag with
  | none => exact marked
  | some tag => exact List.pairwise_cons.mpr ⟨fun r member => follows _ r (q.tagsOf_markedParts r member), marked⟩

theorem WellFormed.isSelector_parts {q : Query} (h : q.WellFormed) (plain : q.PlainTag) : IsSelector q.parts where
  proper := h.proper_parts plain
  oneTag := by
    rw [tagsOf_parts]
    cases q.tag <;> simp
  oneId := by
    rw [idsOf_parts]
    cases q.id <;> simp
  apart := q.isChain_parts

/-! ## Reading and writing -/

/--
A query that is read is well-formed, whatever it is read from. If it asks for something, and its tag holds none
of the characters by which fragments are marked, then it is read again from what is written for it.
-/
theorem parse_text_parse (s : Text) :
    let q := parse s
    q.WellFormed ∧ (q.isWildcard = false → q.PlainTag → parse q.text = q) := by
  intro q
  have wellFormed := wellFormed_parse s
  refine ⟨wellFormed, fun constrained plain => ?_⟩
  rw [← textOf_parts constrained, parse_textOf (wellFormed.isSelector_parts plain), wellFormed.ofParts_parts]

/-- A value with marks and a quote in it, in front of the fragments that are written before it. -/
theorem parse_text_parse_quoted :
    (parse "[x:y='#f.0[\"'].b#a rect.b[z]".toList).WellFormed ∧
      parse "rect#a.b[x:y=\"#f.0[\"\"][z]".toList = parse "[x:y='#f.0[\"'].b#a rect.b[z]".toList := by
  have read : parse "[x:y='#f.0[\"'].b#a rect.b[z]".toList =
      ⟨some "rect".toList, some ['a'], [['b']], [("x:y".toList, some "#f.0[\"".toList), (['z'], none)]⟩ := by cbv
  obtain ⟨wellFormed, again⟩ := parse_text_parse "[x:y='#f.0[\"'].b#a rect.b[z]".toList
  rw [read] at again
  rw [read] at wellFormed ⊢
  exact ⟨wellFormed, again (by decide) (by decide)⟩

end Query
end SvgEdit
