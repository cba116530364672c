import SvgEdit.Proofs.ReadAgain
import SvgEdit.Proofs.SimpleDocuments

/-!
# Elements that are built

An element can be built without being read: it begins empty, is given attributes, and elements and runs
of text are put into it. Names are taken as they are given. What is written for the element is read as the
same element exactly if no attribute is without a name, and no empty tag is left with nothing to write in it.
-/
namespace SvgEdit

/-! ## Building -/

/-- Letters and digits of ASCII, `-`, `_`, `:` and `.`. -/
def isNameLetter (c : Char) : Bool := isSimpleChar c || c = '.'

/-- Nothing but such letters; a name may be empty. -/
def Lettered (name : Text) : Prop := ∀ c ∈ name, isNameLetter c = true

instance (name : Text) : Decidable (Lettered name) := inferInstanceAs (Decidable (∀ c ∈ name, _))

/-- A raw piece comes last. -/
def Content.EndsRaw (c : Content) : Prop := ∃ (front : Content) (run : Text), c = front.append (.raw run .nil)

/-- An element that is built: values are any texts, and no run of text is put next to another one. -/
inductive Element.Built : Element → Prop
  | new {name : Text} (lettered : Lettered name) : Built (.new name)
  | set {e : Element} {name : Text} (built : Built e) (lettered : Lettered name) (value : Text) :
      Built (e.setAttribute name value)
  | element {e inner : Element} (built : Built e) (within : Built inner) :
      Built (e.push (.element inner.tag inner.content .nil))
  | run {e : Element} {run : Text} (built : Built e) (nonempty : run ≠ []) (free : ∀ c ∈ run, endsRun c = false)
      (apart : ¬ e.content.EndsRaw) : Built (e.push (.raw run .nil))

/-- Every attribute has a name. -/
def Tag.Named (t : Tag) : Prop := ∀ a ∈ t.attributes, a.name ≠ []

instance (t : Tag) : Decidable t.Named := inferInstanceAs (Decidable (∀ a ∈ t.attributes, _))

/-- Every attribute has a name, and without a name of its own an element has an attribute or something inside. -/
structure Element.Nameable (e : Element) : Prop where
  attributes : e.tag.Named
  nameless : e.name = [] → e.tag.attributes ≠ [] ∨ e.content ≠ .nil

instance (e : Element) : Decidable e.Nameable :=
  decidable_of_iff (e.tag.Named ∧ (e.name = [] → e.tag.attributes ≠ [] ∨ e.content ≠ .nil))
    ⟨fun ⟨attributes, nameless⟩ => ⟨attributes, nameless⟩, fun h => ⟨h.attributes, h.nameless⟩⟩

/-! ## What is built -/

/-- What holds of the tag of an element that is built. -/
structure Tag.Made (t : Tag) : Prop where
  name : Lettered t.name
  keys : ∀ a ∈ t.attributes, Lettered a.name
  once : (t.attributes.map (·.name)).Nodup
  unspelled : ∀ a ∈ t.attributes, a.spelling = none

/-- What holds of the content of an element that is built. -/
def Content.Made : Content → Prop
  | nil => True
  | raw run next => run ≠ [] ∧ (∀ c ∈ run, endsRun c = false) ∧ next.beginsRaw = false ∧ next.Made
  | element tag inside next => tag.Made ∧ (tag.selfClosing = true ↔ inside = nil) ∧ inside.Made ∧ next.Made

theorem Tag.Made.set {t : Tag} (h : t.Made) {name : Text} (lettered : Lettered name) (value : Text) :
    Tag.Made { t with attributes := t.attributes.set name value } := by
  refine ⟨h.name, fun a member => ?_, ?_, fun a member => ?_⟩
  · rcases Attributes.mem_set member with member | rfl
    · exact h.keys a member
    · exact lettered
  · rw [Attributes.map_name_set]
    split
    · exact h.once
    · next new =>
      rw [List.nodup_append_comm]
      exact List.nodup_cons.mpr ⟨new, h.once⟩
  · rcases Attributes.mem_set member with member | rfl
    · exact h.unspelled a member
    · rfl

namespace Content

theorem append_ne_nil {c d : Content} (nonempty : d ≠ nil) : c.append d ≠ nil := by
  cases c with
  | nil => exact nonempty
  | raw | element => exact fun same => nomatch same

theorem Made.append {c d : Content} (left : c.Made) (right : d.Made) (apart : c.EndsRaw → d.beginsRaw = false) :
    (c.append d).Made := by
  induction c with
  | nil => exact right
  | raw run next ih =>
    obtain ⟨nonempty, free, other, left⟩ := left
    refine ⟨nonempty, free, ?_, ih left fun ⟨front, last, ends⟩ => apart ⟨.raw run front, last, by rw [ends]; rfl⟩⟩
    cases next with
    | nil => exact apart ⟨.nil, run, rfl⟩
    | raw | element => exact other
  | element tag inside next _ ih =>
    obtain ⟨made, closing, within, left⟩ := left
    exact ⟨made, closing, within,
      ih left fun ⟨front, last, ends⟩ => apart ⟨.element tag inside front, last, by rw [ends]; rfl⟩⟩

end Content

/-- The element alone, as a content. -/
def Element.alone (e : Element) : Content := .element e.tag e.content .nil

theorem Element.made_push {e : Element} {more : Content} (made : e.alone.Made) (more_made : more.Made) (nonempty : more ≠ .nil)
    (apart : e.content.EndsRaw → more.beginsRaw = false) : (e.push more).alone.Made := by
  obtain ⟨tag, -, within, -⟩ := made
  refine ⟨⟨tag.name, tag.keys, tag.once, tag.unspelled⟩, ?_, within.append more_made apart, trivial⟩
  exact ⟨fun closing => absurd closing Bool.false_ne_true, fun same => absurd same (Content.append_ne_nil nonempty)⟩

theorem Element.Built.made {e : Element} (built : e.Built) : e.alone.Made := by
  induction built with
  | new lettered =>
    exact ⟨⟨lettered, fun _ member => absurd member List.not_mem_nil, List.nodup_nil,
      fun _ member => absurd member List.not_mem_nil⟩, ⟨fun _ => rfl, fun _ => rfl⟩, trivial, trivial⟩
  | set _ lettered value ih =>
    obtain ⟨tag, closing, within, -⟩ := ih
    exact ⟨tag.set lettered value, closing, within, trivial⟩
  | element _ _ ih inner => exact made_push ih inner (fun same => nomatch same) fun _ => rfl
  | run _ nonempty free apart ih =>
    exact made_push ih ⟨nonempty, free, rfl, trivial⟩ (fun same => nomatch same) fun ends => absurd ends apart

/-! ## Tags -/

theorem isPlainChar_of_isNameLetter {c : Char} (letter : isNameLetter c = true) : isPlainChar c = true := by
  rcases Bool.or_eq_true _ _ ▸ letter with simple | point
  · exact (letter_of_isSimpleChar simple).plain
  · obtain rfl := of_decide_eq_true point
    rfl

theorem isNameLetter_ne {c d : Char} (letter : isNameLetter c = true) (special : isNameLetter d = false) : c ≠ d := by
  rintro rfl
  rw [letter] at special
  cases special

namespace Lettered

variable {name : Text}

theorem unmarked (h : Lettered name) : ∀ c ∈ name, c ≠ '"' ∧ c ≠ '\'' ∧ c ≠ '>' := fun c member =>
  ⟨isNameLetter_ne (h c member) rfl, isNameLetter_ne (h c member) rfl, isNameLetter_ne (h c member) rfl⟩

theorem noSpace (h : Lettered name) : ∀ c ∈ name, isSpace c = false := fun c member =>
  (isPlainChar_iff.mp (isPlainChar_of_isNameLetter (h c member))).1

theorem isKey (h : Lettered name) (named : name ≠ []) : IsKey name := by
  obtain ⟨first, rest, rfl⟩ := List.exists_cons_of_ne_nil named
  refine ⟨first, rest, rfl, h.noSpace first List.mem_cons_self, fun c member => ?_⟩
  have noSpace := h.noSpace c (List.mem_cons_of_mem first member)
  have noEquals : c ≠ '=' := isNameLetter_ne (h c (List.mem_cons_of_mem first member)) rfl
  simp [endsKey, noSpace, noEquals]

end Lettered

/-- What was set is written escaped, between double quotes. -/
theorem Attribute.written_of_unspelled {a : Attribute} (unspelled : a.spelling = none) :
    a.written.spelling = ⟨escape a.value, .double⟩ := by
  rw [Attribute.written, unspelled]
  rfl

namespace Tag.Made

variable {t : Tag}

theorem values (h : t.Made) : ∀ a ∈ t.attributes, a.written.spelling.quote.char ∉ a.written.spelling.raw := by
  intro a member
  rw [Attribute.written_of_unspelled (h.unspelled a member)]
  exact not_mem_escape (.inr rfl)

theorem balanced_source (h : t.Made) {a : Attribute} (member : a ∈ t.attributes) : Balanced a.source := by
  have blank : Balanced [' '] := balanced_of_unmarked (by decide)
  have equals : Balanced ['='] := balanced_of_unmarked (by decide)
  have name := balanced_of_unmarked (h.keys a member).unmarked
  have value := balanced_value a.written.spelling.quote (h.values a member)
  rw [a.source_eq]
  exact blank.append (name.append (equals.append value))

theorem balanced (h : t.Made) : Balanced t.inside := by
  refine (balanced_of_unmarked h.name.unmarked).append ?_
  have parts : ∀ a ∈ t.attributes, Balanced a.source := fun a member => h.balanced_source member
  generalize t.attributes = as at parts
  induction as with
  | nil => exact balanced_nil
  | cons a as ih =>
    obtain ⟨here, later⟩ := List.forall_mem_cons.mp parts
    exact here.append (ih later)

theorem closes {s : Text} (h : Balanced s) : Closes none s := (cutTag_eq_some_iff.mp (h.cutTag [])).2

theorem getLast?_inside (h : t.Made) : t.inside.getLast? ≠ some '/' := by
  intro last
  rw [Tag.inside, List.getLast?_append] at last
  rcases t.attributes.eq_nil_or_concat with none | ⟨front, a, whole⟩
  · rw [none] at last
    exact isNameLetter_ne (h.name '/' (List.mem_of_getLast? last)) rfl rfl
  · have mark : t.attributes.source.getLast? = some a.written.spelling.quote.char := by
      rw [whole, Attributes.source, List.concat_eq_append, List.flatMap_append, List.getLast?_append]
      simp [a.getLast?_source]
    rw [mark] at last
    have slash : a.written.spelling.quote.char ≠ '/' := by cases a.written.spelling.quote <;> decide
    exact slash (Option.some.inj last)

theorem wasRead (h : t.Made) (named : t.Named) : t.WasRead := by
  refine ⟨h.name.noSpace, fun c head => ?_, fun a member => (h.keys a member).isKey (named a member), h.once,
    fun a member => ?_⟩
  · rw [Tag.inside, List.head?_append] at head
    cases same : t.name.head? with
    | none =>
      rw [same] at head
      obtain rfl := Tag.WasRead.head?_source t c head
      decide
    | some d =>
      rw [same] at head
      obtain rfl := Option.some.inj head
      have letter := h.name d (List.mem_of_mem_head? same)
      exact ⟨isNameLetter_ne letter rfl, isNameLetter_ne letter rfl, isNameLetter_ne letter rfl⟩
  · rw [Attribute.written_of_unspelled (h.unspelled a member)]
    exact unescape_escape a.value

theorem paired (h : t.Made) (named : t.Named) : t.Paired :=
  ⟨h.wasRead named, fun _ => closes (balanced_of_unmarked h.name.unmarked)⟩

/-- All that can be lost is that something is written in the tag. -/
theorem readsAgain_iff (h : t.Made) : t.ReadsAgain ↔ (t.selfClosing = true → t.inside ≠ []) :=
  ⟨fun again => again.kind.named, fun named => ⟨h.values, closes h.balanced, fun _ => h.getLast?_inside, named⟩⟩

end Tag.Made

theorem Tag.inside_ne_nil_iff (t : Tag) : t.inside ≠ [] ↔ (t.name = [] → t.attributes ≠ []) := by
  have source : t.attributes.source = [] ↔ t.attributes = [] := by
    cases t.attributes with
    | nil => simp [Attributes.source]
    | cons a as => simp [Attributes.source_cons, a.source_eq]
  rw [Tag.inside, ne_eq, List.append_eq_nil_iff, source, not_and]

/-! ## Content -/

/-- No run of text stands at the end of the pieces, or none at the beginning of those that follow. -/
theorem Apart.append {ps qs : List Piece} (left : Apart ps) (right : Apart qs)
    (between : (∀ p ∈ ps.getLast?, p.isRun = false) ∨ ∀ q ∈ qs.head?, q.isRun = false) : Apart (ps ++ qs) := by
  refine List.isChain_append.mpr ⟨left, right, fun p last q head run => ?_⟩
  rcases between with none | none
  · rw [none p last] at run
    cases run
  · exact none q head

theorem Piece.stands_text {run : Text} (nonempty : run ≠ []) (free : ∀ c ∈ run, endsRun c = false) :
    (Piece.text run).Stands := by
  obtain ⟨c, rest, rfl⟩ := List.exists_cons_of_ne_nil nonempty
  refine ⟨rfl, ⟨c, rest, rfl, fun more ends => ?_⟩, rfl⟩
  obtain ⟨first, free⟩ := List.forall_mem_cons.mp free
  have inside : ∀ d ∈ rest, (!endsRun d) = true := fun d member => by rw [free d member]; rfl
  have stop : ∀ d ∈ more.head?, (!endsRun d) = false := fun d head => by rw [ends rfl d head]; rfl
  rw [read_text first, Text.takeWhile_append_of_stop inside stop, Text.dropWhile_append_of_stop inside stop]

/-- What is built is written in pieces that stay apart. -/
theorem Content.Made.exists_writesBy {c : Content} (h : c.Made) {n : Nat}
    (named : ∀ entry ∈ c.elementsFrom n, entry.2.tag.Named) :
    ∃ ps, WritesBy Tag.Paired ps c ∧ Apart ps ∧ (c.beginsRaw = false → ∀ p ∈ ps.head?, p.isRun = false) := by
  induction c generalizing n with
  | nil => exact ⟨[], .nil, .nil, fun _ _ head => nomatch head⟩
  | raw run next ih =>
    obtain ⟨nonempty, free, other, made⟩ := h
    obtain ⟨ps, writes, apart, first⟩ := ih made named
    refine ⟨_, .raw (Piece.stands_text nonempty free) writes, ?_, fun begins => nomatch begins⟩
    exact Apart.append (.singleton _) apart (.inr (first other))
  | element tag inside next within ih =>
    obtain ⟨made, closing, madeInside, madeNext⟩ := h
    obtain ⟨here, below, after⟩ := Content.forall_elementsFrom_element.mp named
    obtain ⟨qs, writes', apart', -⟩ := ih madeNext after
    cases kind : tag.selfClosing with
    | true =>
      obtain rfl := closing.mp kind
      refine ⟨_, .empty (made.paired here) kind writes', ?_, fun _ p head => Option.some.inj head ▸ rfl⟩
      exact Apart.append (.singleton _) apart' (.inl fun p last => Option.some.inj last ▸ rfl)
    | false =>
      obtain ⟨ps, writes, apart, -⟩ := within madeInside (n := 0) below
      refine ⟨_, .element (made.paired here) kind writes writes', ?_, fun _ p head => Option.some.inj head ▸ rfl⟩
      have ending : Apart (.endTag tag.name :: qs) :=
        Apart.append (.singleton _) apart' (.inl fun p last => Option.some.inj last ▸ rfl)
      exact Apart.append (.singleton (.startTag tag.inside))
        (apart.append ending (.inr fun q head => Option.some.inj head ▸ rfl)) (.inl fun p last => Option.some.inj last ▸ rfl)

/-! ## Reading what was built -/

/-- An element with its path, with the spelling of values forgotten. -/
def unspelledEntry (entry : Path × Element) : Path × Element := (entry.1, entry.2.unspelled)

namespace Content

theorem elementsFrom_unspelled (c : Content) (place : Nat) :
    c.unspelled.elementsFrom place = (c.elementsFrom place).map unspelledEntry := by
  induction c generalizing place with
  | nil => rfl
  | raw source next ih => exact ih (place + 1)
  | element tag inside next within ih =>
    simp only [unspelled, elementsFrom, List.map_append, List.map_cons, List.map_map, within, ih]
    rfl

/-- Spelling aside, equal contents have names for the same attributes. -/
theorem named_of_unspelled {c d : Content} (alike : c.unspelled = d.unspelled) {place : Nat}
    (named : ∀ entry ∈ c.elementsFrom place, entry.2.tag.Named) :
    ∀ entry ∈ d.elementsFrom place, entry.2.tag.Named := by
  have forgotten (c : Content) : (∀ entry ∈ c.unspelled.elementsFrom place, entry.2.tag.Named) ↔
      ∀ entry ∈ c.elementsFrom place, entry.2.tag.Named := by
    rw [elementsFrom_unspelled, List.forall_mem_map]
    exact forall₂_congr fun entry _ => List.forall_mem_map
  exact (forgotten d).mp (alike ▸ (forgotten c).mpr named)

theorem Made.forall_tag {c : Content} (h : c.Made) {place : Nat} : ∀ entry ∈ c.elementsFrom place,
    entry.2.tag.Made ∧ (entry.2.tag.selfClosing = true ↔ entry.2.content = .nil) := by
  induction c generalizing place with
  | nil => exact fun _ member => absurd member List.not_mem_nil
  | raw run next ih => exact ih h.2.2.2
  | element tag inside next within ih =>
    obtain ⟨made, closing, madeInside, madeNext⟩ := h
    exact forall_elementsFrom_element.mpr ⟨⟨made, closing⟩, within madeInside, ih madeNext⟩

end Content

theorem Element.forall_alone_iff (e : Element) {P : Element → Prop} :
    (∀ entry ∈ e.alone.elementsFrom 0, P entry.2) ↔ ∀ entry ∈ e.elements, P entry.2 := by
  rw [alone, Content.forall_elementsFrom_element, elements, List.forall_mem_cons]
  exact and_congr_right fun _ => and_iff_left fun _ member => absurd member List.not_mem_nil

theorem Element.nameable_iff {e : Element} (made : e.tag.Made) (closing : e.tag.selfClosing = true ↔ e.content = .nil) :
    e.Nameable ↔ e.tag.Named ∧ e.tag.ReadsAgain := by
  rw [made.readsAgain_iff, Tag.inside_ne_nil_iff, closing]
  constructor
  · rintro ⟨attributes, nameless⟩
    exact ⟨attributes, fun empty name => (nameless name).resolve_right (not_not_intro empty)⟩
  · rintro ⟨attributes, written⟩
    exact ⟨attributes, fun name => (em (e.content = .nil)).imp (written · name) id⟩

theorem Element.forall_nameable_iff {e : Element} (made : e.alone.Made) : (∀ entry ∈ e.elements, entry.2.Nameable) ↔
    (∀ entry ∈ e.alone.elementsFrom 0, entry.2.tag.Named) ∧ ∀ entry ∈ e.elements, entry.2.tag.ReadsAgain := by
  rw [e.forall_alone_iff (P := fun x => x.tag.Named), ← forall₂_and]
  refine forall₂_congr fun entry member => ?_
  obtain ⟨made, closing⟩ := (e.forall_alone_iff (P := fun x => x.tag.Made ∧ (x.tag.selfClosing = true ↔ x.content = .nil))).mp
    made.forall_tag entry member
  exact nameable_iff made closing

/-- As a document of its own, an element is written in pieces that stay apart. -/
theorem Element.exists_writesDocumentBy {e : Element} (made : e.alone.Made)
    (named : ∀ entry ∈ e.alone.elementsFrom 0, entry.2.tag.Named) :
    ∃ ps, WritesDocumentBy Tag.Paired [] ps ⟨[], e, []⟩ ∧ Apart ps := by
  obtain ⟨ps, writes, apart, -⟩ := made.exists_writesBy named
  exact ⟨ps, ⟨[], ps, [], by simp, fun _ member => absurd member List.not_mem_nil,
    fun _ member => absurd member List.not_mem_nil, writes, rfl, rfl⟩, apart⟩

/-- Attributes of a document that was read have names. -/
theorem Document.named_of_parse {s : Text} {d : Document} (parsed : Document.parse s = .ok d) :
    ∀ entry ∈ d.root.alone.elementsFrom 0, entry.2.tag.Named := by
  obtain ⟨ps, cut, ⟨front, middle, back, rfl, -, -, builds, -, -⟩⟩ := Document.parse_eq_ok_iff.mp parsed
  refine builds.forall_tag (P := Tag.Named) fun inside selfClosing e member tag a listed => ?_
  have begins : BeginsTag inside := by
    refine (cut.readsBack _ (List.mem_append_right _ (List.mem_append_left _ member))).beginsTag ?_
    cases selfClosing with
    | true => exact .inr rfl
    | false => exact .inl rfl
  obtain ⟨first, rest, name, -⟩ := (wasRead_of_tagElement tag begins).keys a listed
  exact name ▸ List.cons_ne_nil first rest

/--
What is written for an element that was built is read as the same element, with nothing before and after it,
exactly if the element and all elements inside it are nameable.
-/
theorem built_reads_back_iff {e : Element} (built : e.Built) :
    (∃ r, Document.parse e.source = .ok r ∧ r.prolog = [] ∧ r.root.unspelled = e.unspelled ∧ r.epilog = []) ↔
      ∀ entry ∈ e.elements, entry.2.Nameable := by
  have made := built.made
  have source : Document.source ⟨[], e, []⟩ = e.source := by simp [Document.source]
  rw [Element.forall_nameable_iff made, ← source]
  constructor
  · rintro ⟨r, parsed, prolog, root, epilog⟩
    have alike : r.unspelled = Document.unspelled ⟨[], e, []⟩ := by
      rw [Document.unspelled, Document.unspelled, prolog, root, epilog]
    obtain ⟨tags, contents⟩ := Element.mk.inj root
    have roots : r.root.alone.unspelled = e.alone.unspelled := by
      rw [Element.alone, Content.unspelled, tags, contents]
      rfl
    have named := Content.named_of_unspelled roots (Document.named_of_parse parsed)
    obtain ⟨ps, writes, -⟩ := Element.exists_writesDocumentBy made named
    obtain ⟨mark, body⟩ := writes.splitMark_source (.inl rfl)
    obtain ⟨qs, cut, builds⟩ := Document.parse_eq_ok_iff.mp parsed
    rw [mark] at builds
    rw [body] at cut
    exact ⟨named, writes.readsAgain builds cut.readsBack alike cut.source.symm⟩
  · rintro ⟨named, again⟩
    obtain ⟨ps, writes, apart⟩ := Element.exists_writesDocumentBy made named
    obtain ⟨mark, body⟩ := writes.splitMark_source (.inl rfl)
    obtain ⟨back, r, builds, alike⟩ := writes.exists_builds again
    obtain ⟨prolog, root, epilog⟩ := Document.mk.inj alike
    refine ⟨r, Document.parse_eq_ok_iff.mpr ?_, prolog, root, epilog⟩
    rw [mark, body]
    exact ⟨ps, cut_of_readsBack back apart, builds⟩

/-- An element with markup in a value, a run of text, and inside it an element without a name but with an attribute. -/
def assembled : Element :=
  let inner := (Element.new []).setAttribute "d".toList "1\t2".toList
  (((Element.new "svg:g.1".toList).setAttribute "a.b".toList "\"><x a='&".toList).push (.raw "1 > 0".toList .nil)).push
    (.element inner.tag inner.content .nil)

theorem built_reads_back_iff_assembled : assembled.Built ∧ (∀ entry ∈ assembled.elements, entry.2.Nameable) ∧
    ∃ r, Document.parse assembled.source = .ok r ∧ r.prolog = [] ∧ r.root.unspelled = assembled.unspelled ∧ r.epilog = [] := by
  have inner : ((Element.new []).setAttribute "d".toList "1\t2".toList).Built := .set (.new (by decide)) (by decide) _
  have outer : ((Element.new "svg:g.1".toList).setAttribute "a.b".toList "\"><x a='&".toList).Built :=
    .set (.new (by decide)) (by decide) _
  have built : assembled.Built := by
    refine .element (.run outer (by decide) (by decide) ?_) inner
    rintro ⟨front, run, ends⟩
    exact Content.append_ne_nil (d := .raw run .nil) (fun same => nomatch same) ends.symm
  have nameable : ∀ entry ∈ assembled.elements, entry.2.Nameable := by decide
  exact ⟨built, nameable, (built_reads_back_iff built).mpr nameable⟩

/-- An element without a name is written like an end tag, and what is written for a nameless attribute is no attribute. -/
theorem nameless_is_not_read_back :
    ((Element.new []).Built ∧ ¬ ∃ r, Document.parse (Element.new []).source = .ok r) ∧
      let unkeyed := (Element.new "a".toList).setAttribute [] "1".toList
      unkeyed.Built ∧ ¬ ∃ r, Document.parse unkeyed.source = .ok r := by
  refine ⟨⟨.new (by decide), ?_⟩, .set (.new (by decide)) (by decide) _, ?_⟩
  · rintro ⟨r, parsed⟩
    have fault : (Document.parse (Element.new []).source).isOk = false := by cbv
    rw [parsed] at fault
    cases fault
  · rintro ⟨r, parsed⟩
    have fault : (Document.parse ((Element.new "a".toList).setAttribute [] "1".toList).source).isOk = false := by cbv
    rw [parsed] at fault
    cases fault

end SvgEdit
