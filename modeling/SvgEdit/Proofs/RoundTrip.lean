import SvgEdit.Proofs.Parsing
import SvgEdit.Proofs.Tags

/-!
# Reading what was written

A document with plain names is read back from its source, whatever values its attributes are given.
`Writes` lists the pieces of a source; setting an attribute changes one tag among them, and the
pieces stay apart.
-/
namespace SvgEdit

/-! ## Spelling everything -/

/-- The content with the spelling in which it is written. -/
def Content.spelled : Content → Content
  | nil => nil
  | raw source next => raw source next.spelled
  | element tag inside next => element tag.spelled inside.spelled next.spelled

/-- The document with the spelling in which it is written. -/
def Document.spelled (d : Document) : Document := { d with root := ⟨d.root.tag.spelled, d.root.content.spelled⟩ }

theorem Tag.enclose_spelled (t : Tag) (empty : Bool) (inside : Text) :
    t.spelled.enclose empty inside = t.enclose empty inside := by
  rw [enclose, enclose, spelled, Attributes.source_spelled]

namespace Content

theorem spelled_eq_nil_iff (c : Content) : c.spelled = nil ↔ c = nil := by
  cases c <;> simp [spelled]

theorem source_spelled (c : Content) : c.spelled.source = c.source := by
  induction c with
  | nil => rfl
  | raw source next ih => rw [spelled, Content.source, ih, Content.source]
  | element tag inside next within ih =>
    simp only [spelled, Content.source, spelled_eq_nil_iff, Tag.enclose_spelled, within, ih]

theorem unspelled_spelled (c : Content) : c.spelled.unspelled = c.unspelled := by
  induction c with
  | nil => rfl
  | raw source next ih => rw [spelled, unspelled, ih, unspelled]
  | element tag inside next within ih =>
    simp only [spelled, unspelled, Tag.spelled, Attributes.unspelled_spelled, within, ih]

end Content

theorem Document.source_spelled (d : Document) : d.spelled.source = d.source := by
  simp only [Document.source, Document.spelled, Element.source, Tag.enclose_spelled, Content.source_spelled,
    Content.spelled_eq_nil_iff]

theorem Document.unspelled_spelled (d : Document) : d.spelled.unspelled = d.unspelled := by
  simp only [Document.unspelled, Document.spelled, Element.unspelled, Tag.spelled, Attributes.unspelled_spelled,
    Content.unspelled_spelled]

/-! ## The pieces of a source -/

/-- A piece that is no tag and is read and kept as it stands. -/
structure Piece.Stands (p : Piece) : Prop where
  other : p.isTag = false
  back : p.ReadsBack
  kept : p.kept = p.source

/-- The pieces that a content is written in, if all its tags fit. -/
inductive WritesBy (fit : Tag → Prop) : List Piece → Content → Prop
  | nil : WritesBy fit [] .nil
  | raw {p : Piece} {ps : List Piece} {next : Content} (stands : p.Stands) (later : WritesBy fit ps next) :
      WritesBy fit (p :: ps) (.raw p.source next)
  | empty {tag : Tag} {ps : List Piece} {next : Content} (fits : fit tag) (closing : tag.selfClosing = true)
      (later : WritesBy fit ps next) : WritesBy fit (.emptyTag tag.inside :: ps) (.element tag .nil next)
  | element {tag : Tag} {ps qs : List Piece} {inner next : Content} (fits : fit tag)
      (going : tag.selfClosing = false) (within : WritesBy fit ps inner) (later : WritesBy fit qs next) :
      WritesBy fit (.startTag tag.inside :: (ps ++ .endTag tag.name :: qs)) (.element tag inner next)

/-- The pieces that a content is written in, if all its tags are read back. -/
abbrev Writes := WritesBy Tag.Writable

theorem WritesBy.source {fit : Tag → Prop} {ps : List Piece} {c : Content} (h : WritesBy fit ps c) :
    ps.flatMap Piece.source = c.source := by
  induction h with
  | nil => rfl
  | raw _ _ ih => rw [List.flatMap_cons, ih, Content.source]
  | empty _ closing _ ih =>
    rw [List.flatMap_cons, ih, Content.source, Tag.enclose, if_pos ⟨closing, by simp⟩]
    simp [Piece.source, Tag.inside]
  | element _ going _ _ within ih =>
    rw [List.flatMap_cons, List.flatMap_append, List.flatMap_cons, within, ih, Content.source, Tag.enclose,
      if_neg (by simp [going])]
    simp [Piece.source, Tag.inside]

theorem WritesBy.append {fit : Tag → Prop} {ps qs : List Piece} {c d : Content} (left : WritesBy fit ps c)
    (right : WritesBy fit qs d) : WritesBy fit (ps ++ qs) (c.append d) := by
  induction left with
  | nil => exact right
  | raw stands _ ih => exact .raw stands ih
  | empty writable closing _ ih => exact .empty writable closing ih
  | element writable going within _ _ ih =>
    rw [List.cons_append, List.append_assoc]
    exact .element writable going within ih

namespace Writes

theorem readsBack {ps : List Piece} {c : Content} (h : Writes ps c) : ∀ p ∈ ps, p.ReadsBack := by
  induction h with
  | nil => exact fun _ member => absurd member List.not_mem_nil
  | raw stands _ ih =>
    intro p member
    rcases List.mem_cons.mp member with rfl | member
    · exact stands.back
    · exact ih p member
  | empty writable _ _ ih =>
    intro p member
    rcases List.mem_cons.mp member with rfl | member
    · exact writable.readsBack_emptyTag
    · exact ih p member
  | element writable _ _ _ within ih =>
    intro p member
    rcases List.mem_cons.mp member with rfl | member
    · exact writable.readsBack_startTag
    · rcases List.mem_append.mp member with member | member
      · exact within p member
      · rcases List.mem_cons.mp member with rfl | member
        · exact writable.readsBack_endTag
        · exact ih p member

/-- What is written is read with the spelling in which it is written. -/
theorem builds {ps : List Piece} {c : Content} (h : Writes ps c) : Builds ps c.spelled := by
  induction h with
  | nil => exact .nil
  | raw stands _ ih =>
    have raw := Builds.raw stands.other ih
    rw [stands.kept] at raw
    exact raw
  | @empty tag _ _ writable closing _ ih =>
    have empty := Builds.empty (writable.tagElement_inside true) ih
    rw [← closing] at empty
    exact empty
  | @element tag _ _ _ _ writable going _ _ within ih =>
    have element := Builds.element (writable.tagElement_inside false) writable.endName within ih
    rw [← going] at element
    exact element

end Writes

/-! ## Setting an attribute -/

namespace Attributes

theorem map_name_set (as : Attributes) (name value : Text) :
    (as.set name value).map (·.name) = if name ∈ as.map (·.name) then as.map (·.name) else as.map (·.name) ++ [name] := by
  induction as with
  | nil => rfl
  | cons a as ih =>
    by_cases same : a.name = name
    · by_cases equal : a.value = value <;> simp [set, same, equal]
    · have other : name ≠ a.name := Ne.symm same
      rw [set, if_neg same, List.map_cons, ih, List.map_cons]
      by_cases later : name ∈ as.map (·.name) <;> simp only [List.mem_cons, other, later, if_true, if_false, false_or]
      rfl

theorem mem_set {as : Attributes} {name value : Text} {a : Attribute} (member : a ∈ as.set name value) :
    a ∈ as ∨ a = ⟨name, value, none⟩ := by
  induction as with
  | nil => exact .inr (List.mem_singleton.mp member)
  | cons b as ih =>
    rw [set] at member
    split at member
    · next same =>
      rcases List.mem_cons.mp member with rfl | member
      · split
        · exact .inl List.mem_cons_self
        · exact .inr (by rw [same])
      · exact .inl (List.mem_cons_of_mem b member)
    · rcases List.mem_cons.mp member with rfl | member
      · exact .inl List.mem_cons_self
      · exact (ih member).imp_left (List.mem_cons_of_mem b)

theorem Writable.set {as : Attributes} (h : as.Writable) {name : Text} (plain : Plain name) (value : Text) :
    (as.set name value).Writable := by
  refine ⟨fun a member => ?_, ?_, fun a member => ?_⟩
  · rcases mem_set member with member | rfl
    · exact h.plain a member
    · exact plain
  · rw [map_name_set]
    split
    · exact h.once
    · next new =>
      rw [List.nodup_append_comm]
      exact List.nodup_cons.mpr ⟨new, h.once⟩
  · rcases mem_set member with member | rfl
    · exact h.spelled a member
    · exact fun _ spelled => nomatch spelled

end Attributes

theorem Tag.Writable.set {t : Tag} (h : t.Writable) {name : Text} (plain : Plain name) (value : Text) :
    { t with attributes := t.attributes.set name value : Tag }.Writable :=
  ⟨h.plain, h.begins, h.attributes.set plain value⟩

/-- The element is still written in pieces of the same kinds after the change. -/
def KeepsPieces (f : Element → Element) : Prop :=
  ∀ e ps, Writes ps (.element e.tag e.content .nil) →
    ∃ qs, Writes qs (.element (f e).tag (f e).content .nil) ∧ qs.map Piece.isRun = ps.map Piece.isRun

theorem keepsPieces_setAttribute {name : Text} (plain : Plain name) (value : Text) :
    KeepsPieces (·.setAttribute name value) := by
  rintro ⟨tag, content⟩ ps writes
  dsimp only at writes
  generalize whole : Content.element tag content .nil = c at writes
  cases writes with
  | nil => cases whole
  | raw => cases whole
  | empty writable closing later =>
    obtain ⟨rfl, rfl, rfl⟩ := Content.element.inj whole
    exact ⟨_, .empty (writable.set plain value) closing later, rfl⟩
  | element writable going within later =>
    obtain ⟨rfl, rfl, rfl⟩ := Content.element.inj whole
    refine ⟨_, .element (writable.set plain value) going within later, ?_⟩
    simp [Piece.isRun]

theorem Writes.modify {f : Element → Element} (keeps : KeepsPieces f) {ps : List Piece} {c : Content}
    (h : Writes ps c) (n : Nat) :
    ∃ qs, Writes qs (c.modify f n) ∧ qs.map Piece.isRun = ps.map Piece.isRun := by
  induction h generalizing n with
  | nil => exact ⟨[], .nil, rfl⟩
  | @raw p ps next stands later ih =>
    cases n with
    | zero => exact ⟨_, .raw stands later, rfl⟩
    | succ n =>
      obtain ⟨qs, writes, same⟩ := ih n
      exact ⟨_, .raw stands writes, by rw [List.map_cons, same, List.map_cons]⟩
  | @empty tag ps next writable closing later ih =>
    cases n with
    | zero =>
      obtain ⟨qs, writes, same⟩ := keeps ⟨tag, .nil⟩ _ (.empty writable closing .nil)
      exact ⟨_, writes.append later, by rw [List.map_append, same]; rfl⟩
    | succ n =>
      obtain ⟨qs, writes, same⟩ := ih n
      exact ⟨_, .empty writable closing writes, by rw [List.map_cons, same, List.map_cons]⟩
  | @element tag ps qs inner next writable going within later _ ih =>
    cases n with
    | zero =>
      obtain ⟨rs, writes, same⟩ := keeps ⟨tag, inner⟩ _ (.element writable going within .nil)
      refine ⟨_, writes.append later, ?_⟩
      rw [List.map_append, same]
      simp
    | succ n =>
      obtain ⟨rs, writes, same⟩ := ih n
      refine ⟨_, .element writable going within writes, ?_⟩
      rw [List.map_cons, List.map_append, List.map_cons, same]
      simp

theorem KeepsPieces.modifyAt {f : Element → Element} (keeps : KeepsPieces f) (path : Path) :
    KeepsPieces (Element.modifyAt f path) := by
  induction path with
  | nil => exact keeps
  | cons n path ih =>
    rintro ⟨tag, content⟩ ps writes
    dsimp only at writes
    generalize whole : Content.element tag content .nil = c at writes
    cases writes with
    | nil => cases whole
    | raw => cases whole
    | empty writable closing later =>
      obtain ⟨rfl, rfl, rfl⟩ := Content.element.inj whole
      exact ⟨_, .empty writable closing later, rfl⟩
    | element writable going within later =>
      obtain ⟨rfl, rfl, rfl⟩ := Content.element.inj whole
      obtain ⟨qs, changed, same⟩ := Writes.modify ih within n
      refine ⟨_, .element writable going changed later, ?_⟩
      simp [Piece.isRun, same]

/-! ## Documents -/

/-- The pieces that a document is written in after a mark, if all its tags fit. -/
structure WritesDocumentBy (fit : Tag → Prop) (mark : Text) (ps : List Piece) (d : Document) : Prop where
  parts : ∃ front middle back, ps = front ++ (middle ++ back) ∧
    (∀ p ∈ front, p.isOutside = true ∧ p.Stands) ∧ (∀ p ∈ back, p.isOutside = true ∧ p.Stands) ∧
    WritesBy fit middle (.element d.root.tag d.root.content .nil) ∧
    d.prolog = (if mark = [] then [] else [mark]) ++ front.map Piece.source ∧ d.epilog = back.map Piece.source

/-- The pieces that a document is written in after a mark, if all its tags are read back. -/
abbrev WritesDocument := WritesDocumentBy Tag.Writable

/-- No byte order mark begins pieces outside of the root, as it is no blank. -/
theorem head?_source_ne_of_outside {ps : List Piece} (outside : ∀ p ∈ ps, p.isOutside = true ∧ p.ReadsBack) {s : Text}
    (less : ∀ c ∈ s.head?, c = '<') : ∀ c ∈ (ps.flatMap Piece.source ++ s).head?, c ≠ byteOrderMark := by
  rintro c head rfl
  cases ps with
  | nil => exact absurd (less _ head) (by decide)
  | cons p ps =>
    obtain ⟨blank, c, s, source, -⟩ := outside p List.mem_cons_self
    rw [List.flatMap_cons, source] at head
    obtain rfl := Option.some.inj head
    cases run : p.isRun with
    | true =>
      cases p with
      | text body =>
        rw [show body = byteOrderMark :: s from source] at blank
        revert blank
        simp [Piece.isOutside, Text.isBlankText, show Text.isBlank byteOrderMark = false by decide]
      | _ => cases run
    | false =>
      have ends := endsRuns_source run byteOrderMark (by rw [source]; rfl)
      exact absurd ends (by decide)

/-- A mark before a text that does not begin with one is split off, and nothing else. -/
theorem splitMark_of_unmarked {mark body : Text} (marked : mark = [] ∨ mark = [byteOrderMark])
    (first : ∀ c ∈ body.head?, c ≠ byteOrderMark) :
    (splitMark (mark ++ body)).1 = mark ∧ (splitMark (splitMark (mark ++ body)).2).2 = body := by
  have unmarked : splitMark body = ([], body) := by
    unfold splitMark
    split
    · next c rest => rw [if_neg (first c rfl)]
    · rfl
  rcases marked with rfl | rfl
  · rw [List.nil_append, unmarked, unmarked]
    exact ⟨rfl, rfl⟩
  · have cut : splitMark ([byteOrderMark] ++ body) = ([byteOrderMark], body) := by
      rw [List.singleton_append, splitMark, if_pos rfl]
    rw [cut, unmarked]
    exact ⟨rfl, rfl⟩

namespace WritesDocumentBy

variable {fit : Tag → Prop} {mark : Text} {ps : List Piece} {d : Document}

theorem source (h : WritesDocumentBy fit mark ps d) : d.source = mark ++ ps.flatMap Piece.source := by
  obtain ⟨front, middle, back, rfl, -, -, writes, prolog, epilog⟩ := h
  have root : d.root.source = middle.flatMap Piece.source := by
    rw [writes.source, Content.source, Content.source, List.append_nil]
    rfl
  have flat (qs : List Piece) : (qs.map Piece.source).flatten = qs.flatMap Piece.source := rfl
  rw [Document.source, prolog, epilog, root]
  by_cases none : mark = [] <;> simp [none, flat]

/-- No byte order mark begins the pieces. -/
theorem head?_source_ne (h : WritesDocumentBy fit mark ps d) : ∀ c ∈ (ps.flatMap Piece.source).head?, c ≠ byteOrderMark := by
  obtain ⟨front, middle, back, rfl, outside, -, writes, -⟩ := h
  rw [List.flatMap_append]
  refine head?_source_ne_of_outside (fun p member => ⟨(outside p member).1, (outside p member).2.back⟩) ?_
  rw [List.flatMap_append, writes.source]
  exact fun c head => (Option.some.inj head).symm

/-- What a document is written in after its mark is what is left of its source when marks are split off. -/
theorem splitMark_source (h : WritesDocumentBy fit mark ps d) (marked : mark = [] ∨ mark = [byteOrderMark]) :
    (splitMark d.source).1 = mark ∧ (splitMark (splitMark d.source).2).2 = ps.flatMap Piece.source := by
  rw [h.source]
  exact splitMark_of_unmarked marked h.head?_source_ne

end WritesDocumentBy

namespace WritesDocument

variable {mark : Text} {ps : List Piece} {d : Document}

theorem readsBack (h : WritesDocument mark ps d) : ∀ p ∈ ps, p.ReadsBack := by
  obtain ⟨front, middle, back, rfl, outside, outside', writes, -⟩ := h
  intro p member
  rcases List.mem_append.mp member with member | member
  · exact (outside p member).2.back
  · rcases List.mem_append.mp member with member | member
    · exact Writes.readsBack writes p member
    · exact (outside' p member).2.back

theorem builds (h : WritesDocument mark ps d) : BuildsDocument mark ps d.spelled := by
  obtain ⟨front, middle, back, rfl, outside, outside', writes, prolog, epilog⟩ := h
  have kept {qs : List Piece} (stand : ∀ q ∈ qs, q.isOutside = true ∧ q.Stands) :
      qs.map Piece.source = qs.map Piece.kept :=
    List.map_congr_left fun q member => (stand q member).2.kept.symm
  rw [kept outside] at prolog
  rw [kept outside'] at epilog
  exact ⟨front, middle, back, rfl, fun p member => (outside p member).1, fun p member => (outside' p member).1,
    Writes.builds writes, prolog, epilog⟩

theorem modifyAt {f : Element → Element} (keeps : KeepsPieces f) (h : WritesDocument mark ps d) (path : Path) :
    ∃ qs, WritesDocument mark qs (d.modifyAt path f) ∧ qs.map Piece.isRun = ps.map Piece.isRun := by
  obtain ⟨front, middle, back, rfl, outside, outside', writes, prolog, epilog⟩ := h
  obtain ⟨qs, changed, same⟩ := keeps.modifyAt path d.root middle writes
  exact ⟨_, ⟨front, qs, back, rfl, outside, outside', changed, prolog, epilog⟩, by simp [same]⟩

/-- The source of a document is read as the document with the spelling in which it is written. -/
theorem parse_source (h : WritesDocument mark ps d) (apart : Apart ps) (marked : mark = [] ∨ mark = [byteOrderMark]) :
    Document.parse d.source = .ok d.spelled := by
  rw [Document.parse_eq_ok_iff, (h.splitMark_source marked).1, (h.splitMark_source marked).2]
  exact ⟨ps, cut_of_readsBack h.readsBack apart, h.builds⟩

end WritesDocument

/-! ## Documents with plain names -/

/-- The name of a tag and those of its attributes are plain. -/
def Tag.PlainNames (t : Tag) : Prop := Plain t.name ∧ ∀ a ∈ t.attributes, Plain a.name

/-- All names are plain. -/
def Document.PlainNames (d : Document) : Prop := ∀ entry ∈ d.elements, entry.2.tag.PlainNames

theorem BeginsTag.of_prefix {front inside : Text} (h : BeginsTag inside) (starts : front <+: inside) :
    BeginsTag front := by
  intro c head
  obtain ⟨tail, rfl⟩ := List.head?_eq_some_iff.mp head
  obtain ⟨more, rfl⟩ := starts
  exact h c rfl

theorem writable_of_tagElement {inside : Text} {selfClosing : Bool} {e : Element}
    (tag : Assembly.tagElement inside selfClosing = .ok e) (begins : BeginsTag inside) (plain : e.tag.PlainNames) :
    e.tag.Writable := by
  obtain ⟨as, read, rfl⟩ := Assembly.tagElement_eq_ok_iff.mp tag
  exact ⟨plain.1, begins.of_prefix (List.takeWhile_prefix _), writable_of_readAttributes read plain.2⟩

theorem Piece.ReadsBack.beginsTag {inside : Text} {p : Piece} (h : p.ReadsBack)
    (tag : p = .startTag inside ∨ p = .emptyTag inside) : BeginsTag inside := by
  obtain ⟨c, s, source, read⟩ := h
  have less : c = '<' := by rcases tag with rfl | rfl <;> exact (List.cons.inj source).1.symm
  subst less
  refine beginsTag_of_read (read [] fun run => ?_) tag
  rcases tag with rfl | rfl <;> cases run

theorem Piece.ReadsBack.stands {p : Piece} (h : p.ReadsBack) (other : p.isTag = false) : p.settled.Stands := by
  refine ⟨?_, Piece.readsBack_settled h, ?_⟩
  · cases p <;> first | rfl | cases other
  · rw [Piece.kept_settled, Piece.source_settled]

/-- Pieces that were read are written again in pieces of the same kinds. -/
theorem Builds.writes {ps : List Piece} {c : Content} (h : Builds ps c) (back : ∀ p ∈ ps, p.ReadsBack) {n : Nat}
    (plain : ∀ entry ∈ c.elementsFrom n, entry.2.tag.PlainNames) :
    ∃ qs, Writes qs c ∧ qs.map Piece.isRun = ps.map Piece.isRun := by
  induction h generalizing n with
  | nil => exact ⟨[], .nil, rfl⟩
  | @raw p ps next other later ih =>
    obtain ⟨qs, writes, same⟩ := ih (fun q member => back q (List.mem_cons_of_mem p member)) plain
    have raw := WritesBy.raw ((back p List.mem_cons_self).stands other) writes
    rw [Piece.source_settled] at raw
    exact ⟨_, raw, by rw [List.map_cons, same, p.isRun_settled, List.map_cons]⟩
  | @empty inside e ps next tag later ih =>
    obtain ⟨here, -, after⟩ := Content.forall_elementsFrom_element.mp plain
    obtain ⟨qs, writes, same⟩ := ih (fun q member => back q (List.mem_cons_of_mem _ member)) after
    have begins := (back _ List.mem_cons_self).beginsTag (.inr rfl)
    have writable := writable_of_tagElement tag begins here
    obtain ⟨as, -, rfl⟩ := Assembly.tagElement_eq_ok_iff.mp tag
    exact ⟨_, .empty writable rfl writes, by rw [List.map_cons, same, List.map_cons]; rfl⟩
  | @element inside close e ps qs inner next tag closes _ _ within later =>
    obtain ⟨here, below, after⟩ := Content.forall_elementsFrom_element.mp plain
    obtain ⟨rs, writes, same⟩ := within (n := 0)
      (fun q member => back q (List.mem_cons_of_mem _ (List.mem_append_left _ member))) below
    obtain ⟨rs', writes', same'⟩ := later
      (fun q member => back q (List.mem_cons_of_mem _ (List.mem_append_right _ (List.mem_cons_of_mem _ member)))) after
    have begins := (back _ List.mem_cons_self).beginsTag (.inl rfl)
    have writable := writable_of_tagElement tag begins here
    obtain ⟨as, -, rfl⟩ := Assembly.tagElement_eq_ok_iff.mp tag
    refine ⟨_, .element writable rfl writes writes', ?_⟩
    simp [Piece.isRun, same, same']

theorem splitMark_fst (s : Text) : (splitMark s).1 = [] ∨ (splitMark s).1 = [byteOrderMark] := by
  unfold splitMark
  split
  · next c body =>
    by_cases mark : c = byteOrderMark
    · exact .inr (by rw [if_pos mark, mark])
    · exact .inl (by rw [if_neg mark])
  · exact .inl rfl

theorem Piece.isOutside_settled (p : Piece) : p.settled.isOutside = p.isOutside := by
  cases p <;> rfl

/-- A document that was read is written in pieces that stay apart, if its root is written in pieces of the same kinds. -/
theorem writesDocumentBy_of_parse {fit : Tag → Prop} {s : Text} {d : Document} (parsed : Document.parse s = .ok d)
    (root : ∀ ps, Builds ps (.element d.root.tag d.root.content .nil) → (∀ p ∈ ps, p.ReadsBack) →
      ∃ qs, WritesBy fit qs (.element d.root.tag d.root.content .nil) ∧ qs.map Piece.isRun = ps.map Piece.isRun) :
    ∃ ps, WritesDocumentBy fit (splitMark s).1 ps d ∧ Apart ps := by
  obtain ⟨ps, cut, ⟨front, middle, back, rfl, outside, outside', builds, prolog, epilog⟩⟩ :=
    Document.parse_eq_ok_iff.mp parsed
  have back' := cut.readsBack
  obtain ⟨qs, writes, same⟩ := root middle builds
    fun p member => back' p (List.mem_append_right _ (List.mem_append_left _ member))
  have settle {rs : List Piece} (outside : ∀ p ∈ rs, p.isOutside = true) (back : ∀ p ∈ rs, p.ReadsBack) :
      ∀ p ∈ rs.map Piece.settled, p.isOutside = true ∧ p.Stands := by
    intro p member
    obtain ⟨q, listed, rfl⟩ := List.mem_map.mp member
    have blank := outside q listed
    exact ⟨by rw [q.isOutside_settled, blank], (back q listed).stands (Piece.isTag_of_isOutside blank)⟩
  have kept (rs : List Piece) : rs.map Piece.kept = (rs.map Piece.settled).map Piece.source := by
    rw [List.map_map]
    exact List.map_congr_left fun p _ => p.source_settled.symm
  have runs (rs : List Piece) : (rs.map Piece.settled).map Piece.isRun = rs.map Piece.isRun := by
    rw [List.map_map]
    exact List.map_congr_left fun p _ => p.isRun_settled
  refine ⟨_, ⟨front.map Piece.settled, qs, back.map Piece.settled, rfl, ?_, ?_, writes, ?_, ?_⟩, ?_⟩
  · exact settle outside fun p member => back' p (List.mem_append_left _ member)
  · exact settle outside' fun p member => back' p (List.mem_append_right _ (List.mem_append_right _ member))
  · rw [prolog, kept]
  · rw [epilog, kept]
  · refine apart_of_same ?_ cut.apart
    simp only [List.map_append, runs, same]

/-- A document with plain names that was read is written in pieces that stay apart. -/
theorem writesDocument_of_parse {s : Text} {d : Document} (parsed : Document.parse s = .ok d)
    (plain : d.PlainNames) : ∃ ps, WritesDocument (splitMark s).1 ps d ∧ Apart ps := by
  refine writesDocumentBy_of_parse parsed fun ps builds back => builds.writes (n := 0) back fun entry member => ?_
  obtain ⟨path, listed⟩ := Document.exists_mem_elements member
  exact plain (path, entry.2) listed

/-! ## Edited documents -/

/-- A value for an attribute of the element that a path leads to. -/
structure Edit where
  path : Path
  name : Text
  value : Text

/-- The document after edits, one after the other. -/
def Document.edited (d : Document) (edits : List Edit) : Document :=
  edits.foldl (fun d edit => d.modifyAt edit.path (·.setAttribute edit.name edit.value)) d

/-- A document with plain names is read back after any edits under plain names. -/
theorem edited_reads_back {s : Text} {d : Document} {edits : List Edit} (parsed : Document.parse s = .ok d)
    (plain : d.PlainNames) (named : ∀ edit ∈ edits, Plain edit.name) :
    ∃ result, Document.parse (d.edited edits).source = .ok result ∧
      result.unspelled = (d.edited edits).unspelled ∧ result.source = (d.edited edits).source := by
  obtain ⟨ps, writes, apart⟩ := writesDocument_of_parse parsed plain
  obtain ⟨qs, writes', apart'⟩ : ∃ qs, WritesDocument (splitMark s).1 qs (d.edited edits) ∧ Apart qs := by
    clear parsed plain
    induction edits generalizing d ps with
    | nil => exact ⟨ps, writes, apart⟩
    | cons edit edits ih =>
      have keeps := keepsPieces_setAttribute (named edit List.mem_cons_self) edit.value
      obtain ⟨qs, changed, same⟩ := writes.modifyAt keeps edit.path
      exact ih (fun later member => named later (List.mem_cons_of_mem edit member)) qs changed
        (apart_of_same same apart)
  refine ⟨_, writes'.parse_source apart' (splitMark_fst s), ?_, ?_⟩
  · exact (d.edited edits).unspelled_spelled
  · exact (d.edited edits).source_spelled

/-- A document with a value between single quotes. -/
def singleQuoted : Document :=
  ⟨[], ⟨⟨"svg".toList, [], false⟩,
    .element ⟨"a".toList, [⟨"b".toList, "1".toList, some ⟨"1".toList, .single⟩⟩], true⟩ .nil .nil⟩, []⟩

theorem edited_reads_back_singleQuoted :
    let edits : List Edit := [⟨[0], "c".toList, "\"><x a='".toList⟩, ⟨[], "d".toList, "&amp;lt;".toList⟩]
    Document.parse singleQuoted.source = .ok singleQuoted ∧ singleQuoted.PlainNames ∧
      (∀ edit ∈ edits, Plain edit.name) ∧
      ∃ result, Document.parse (singleQuoted.edited edits).source = .ok result ∧
        result.unspelled = (singleQuoted.edited edits).unspelled ∧
        result.source = (singleQuoted.edited edits).source := by
  have parsed : Document.parse singleQuoted.source = .ok singleQuoted := by cbv
  have plain : singleQuoted.PlainNames := by
    unfold Document.PlainNames Tag.PlainNames
    decide
  have named : ∀ edit ∈ ([⟨[0], "c".toList, "\"><x a='".toList⟩, ⟨[], "d".toList, "&amp;lt;".toList⟩] : List Edit),
      Plain edit.name := by decide
  exact ⟨parsed, plain, named, edited_reads_back parsed plain named⟩

end SvgEdit
