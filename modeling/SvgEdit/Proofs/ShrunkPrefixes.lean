import SvgEdit.Proofs.PrefixScopes
import SvgEdit.Proofs.Shrinking
import SvgEdit.Proofs.SpelledDocuments

/-!
# Prefixes of shrunk documents

Shrinking takes the declarations of editors' names out of a document, and attributes without a value. In a
tidy document all other prefixes stay declared.
-/
namespace SvgEdit

/-! ## Attributes without a value -/

theorem unescapeFrom_pending_ne (position start : Nat) (body s : Text) :
    unescapeFrom position (some (start, body)) s ≠ .ok [] := by
  induction s generalizing position body with
  | nil => simp [unescapeFrom]
  | cons c s ih =>
    rw [unescapeFrom]
    split
    · split
      · cases unescapeFrom (position + 1) none s <;> simp [Except.map]
      · simp
    · split
      · simp
      · exact ih _ _

/-- Only an empty text stands for an empty value. -/
theorem unescape_eq_nil_iff {raw : Text} : unescape raw = .ok [] ↔ raw = [] := by
  refine ⟨fun empty => ?_, by rintro rfl; rfl⟩
  cases raw with
  | nil => rfl
  | cons c s =>
    rw [unescape, unescapeFrom] at empty
    split at empty
    · exact (unescapeFrom_pending_ne _ _ _ s empty).elim
    · cases later : unescapeFrom (0 + c.utf8Size) none s with
      | error => rw [later] at empty; cases empty
      | ok => rw [later] at empty; cases empty

theorem Spells.value_ne_nil_iff {w : WrittenAttribute} {a : Attribute} (h : Spells w a) :
    a.value ≠ [] ↔ w.spelling.raw ≠ [] := by
  have same : a.value = [] ↔ unescape w.spelling.raw = .ok [] := by
    rw [h.value, Except.ok.injEq]
  rw [ne_eq, same, unescape_eq_nil_iff]

/-! ## Spelled content -/

variable {exempt : List Text} {counts counts' : SpelledAttribute → Prop}

namespace SpelledTag

def names (t : SpelledTag) : List Text := t.name :: t.keys

def Declares (counts : SpelledAttribute → Prop) (t : SpelledTag) (p : Text) : Prop :=
  ∃ a ∈ t.attributes, counts a ∧ a.key = Shrink.namespaceStart ++ p

theorem ReadsAs.names {t : SpelledTag} {tag : Tag} (h : t.ReadsAs tag) : tag.names = t.names := by
  have spells : List.Forall₂ Spells (t.attributes.map SpelledAttribute.written) tag.attributes :=
    List.forall₂_map_left_iff.mpr h.attributes
  rw [Tag.names, SpelledTag.names, keys, h.name, names_of_spells spells, List.map_map]
  rfl

theorem ReadsAs.declares_iff {count : Attribute → Prop} (agree : ∀ a b, Spells a.written b → (count b ↔ counts a))
    {t : SpelledTag} {tag : Tag} (h : t.ReadsAs tag) (p : Text) : tag.Declares count p ↔ t.Declares counts p := by
  have spells := h.attributes
  unfold Tag.Declares Declares
  generalize t.attributes = as, tag.attributes = bs at spells
  induction spells with
  | nil => simp
  | @cons a b as bs spell _ ih =>
    have name : b.name = a.key := spell.name
    rw [List.exists_mem_cons_iff, List.exists_mem_cons_iff, agree a b spell, name]
    exact or_congr_right ih

/-- A tag that keeps its attributes keeps its declarations, but for those of exempt prefixes. -/
theorem Keeps.declares {drops : SpelledAttribute → Prop} {t t' : SpelledTag} (h : t.Keeps drops t')
    (dropped : ∀ a p, counts a → drops a → a.key = Shrink.namespaceStart ++ p → p ∈ exempt) {p : Text}
    (new : p ∉ exempt) (declares : t.Declares counts p) : t'.Declares (fun _ => True) p := by
  obtain ⟨a, member, count, key⟩ := declares
  have stays := h.kept a member fun drop => new (dropped a p count drop key)
  obtain ⟨b, member', same⟩ := List.mem_map.mp stays
  exact ⟨b, member', trivial, same.trans key⟩

theorem Keeps.names {drops : SpelledAttribute → Prop} {t t' : SpelledTag} (h : t.Keeps drops t') :
    ∀ name ∈ t'.names, name ∈ t.names ∨ ':' ∉ name := by
  refine List.forall_mem_cons.mpr ⟨.inl (h.name ▸ List.mem_cons_self), fun key member => ?_⟩
  exact (h.keys key member).imp_left (List.mem_cons_of_mem _)

end SpelledTag

namespace SpelledContent

/-- The prefixes of names are declared in the content, or known from outside. -/
def Declared (exempt : List Text) (counts : SpelledAttribute → Prop) : SpelledContent → (Text → Prop) → Prop
  | nil, _ => True
  | other _ next, known => next.Declared exempt counts known
  | empty t next, known =>
    PrefixesKnown exempt (fun p => known p ∨ t.Declares counts p) t.names ∧ next.Declared exempt counts known
  | element t _ inside next, known =>
    PrefixesKnown exempt (fun p => known p ∨ t.Declares counts p) t.names ∧
      inside.Declared exempt counts (fun p => known p ∨ t.Declares counts p) ∧ next.Declared exempt counts known

theorem ReadsAs.declared_iff {count : Attribute → Prop} (agree : ∀ a b, Spells a.written b → (count b ↔ counts a))
    {c : SpelledContent} {content : Content} (h : c.ReadsAs content) (known : Text → Prop) :
    content.Declared exempt count known ↔ c.Declared exempt counts known := by
  induction h generalizing known with
  | nil => exact Iff.rfl
  | other _ ih => exact ih known
  | empty here _ ih =>
    rw [Content.Declared, Declared, here.names, ih]
    simp only [here.declares_iff agree, Content.Declared, true_and]
  | element here _ _ ihWithin ihLater =>
    rw [Content.Declared, Declared, here.names, ihWithin, ihLater]
    simp only [here.declares_iff agree]

/-- Reduced content has its prefixes declared if its tags keep their declarations. -/
theorem Reduces.declared {keeps : SpelledTag → SpelledTag → Prop} {gone : Text → Prop}
    (tags : ∀ t t', keeps t t' → (∀ name ∈ t'.names, name ∈ t.names ∨ ':' ∉ name) ∧
      ∀ p, p ∉ exempt → t.Declares counts p → t'.Declares counts' p)
    {c c' : SpelledContent} (h : c.Reduces keeps gone c') {known known' : Text → Prop}
    (more : ∀ p, p ∉ exempt → known p → known' p) (declared : c.Declared exempt counts known) :
    c'.Declared exempt counts' known' := by
  -- what is known grows on both sides, so both are general in the induction
  have inner {t t' : SpelledTag} (tag : keeps t t') {known known' : Text → Prop}
      (more : ∀ p, p ∉ exempt → known p → known' p) (p : Text) (new : p ∉ exempt) :
      known p ∨ t.Declares counts p → known' p ∨ t'.Declares counts' p :=
    Or.imp (more p new) ((tags t t' tag).2 p new)
  induction h generalizing known known' with
  | nil => trivial
  | other _ _ ih => exact ih more declared
  | joined _ _ ih => exact ih more declared
  | noOther _ ih => exact ih more declared
  | empty tag _ ih => exact ⟨declared.1.mono (inner tag more) (tags _ _ tag).1, ih more declared.2⟩
  | noEmpty _ _ ih => exact ih more declared.2
  | element tag _ _ ihWithin ihLater =>
    exact ⟨declared.1.mono (inner tag more) (tags _ _ tag).1, ihWithin (inner tag more) declared.2.1,
      ihLater more declared.2.2⟩
  | noElement _ _ ih => exact ih more declared.2.2

end SpelledContent

/-! ## Shrunk documents -/

namespace Shrink

theorem Lasts.and {level : Level} {before before' after after' : SpelledContent → Prop}
    (left : Lasts level before after) (right : Lasts level before' after') :
    Lasts level (fun c => before c ∧ before' c) fun c => after c ∧ after' c where
  withoutMetadata h := And.imp (left.withoutMetadata h) (right.withoutMetadata h)
  withoutEmpty h := And.imp (left.withoutEmpty h) (right.withoutEmpty h)
  later h := And.imp (left.later h) (right.later h)

/-- Prefixes other than those of editors stay declared. -/
theorem Lasts.declared (level : Level) (editors : ∀ p ∈ editorNames, p ∈ exempt) :
    Lasts level (fun c => c.Declared exempt (·.raw ≠ []) fun _ => False)
      fun c => c.Declared exempt (fun _ => True) fun _ => False where
  withoutMetadata h := h.declared (fun t t' same => by subst same; exact ⟨fun _ => .inl, fun _ _ => id⟩) fun _ _ => id
  withoutEmpty h := h.declared (fun _ _ keeps => ⟨keeps.names, fun p =>
    keeps.declares fun _ _ some empty _ => absurd empty.1 some⟩) fun _ _ => id
  later h := by
    refine h.declared (fun _ _ keeps => ⟨keeps.names, fun p => keeps.declares fun a q _ drop key => ?_⟩) fun _ _ => id
    rcases drop with ⟨⟨name, listed, named⟩, -⟩ | style
    · rw [key] at named
      exact editors q (List.append_cancel_left named ▸ listed)
    · rw [style] at key
      exact absurd (congrArg List.head? key) (by simp [styleKey, namespaceStart])

/--
In a tidy document whose prefixes are declared with a value, those that are not editors' names are declared
after it is shrunk.
-/
theorem optimized_declares_prefixes {s : Text} {o : Options} {d : Document} (parsed : Document.parse s = .ok d)
    (tidy : ∀ p ∈ piecesOf s, p.Tidy o.level) (declares : DeclaresInTags s) (unnested : MetadataUnnested d.elements)
    (metadata : d.root.name ≠ metadataName) (group : o.level ≠ .light → d.root.name ≠ groupName)
    (declared : d.DeclaresPrefixes (reservedPrefixes ++ editorNames) (·.value ≠ [])) :
    ∃ d', Document.parse (optimize o s).document = .ok d' ∧
      d'.DeclaresPrefixes (reservedPrefixes ++ editorNames) fun _ => True := by
  obtain ⟨k, few, c, whole, meets, apart, rooted, cut⟩ := exists_content_of_parse parsed tidy unnested
  -- from the document that was read to the content that is spelled, where empty texts are empty values
  obtain ⟨before, behind, reads⟩ := SpelledContent.readsAs_of_parse (fun _ => Piece.isTag_of_commented)
    (fun t (ready : t.Ready _) => ready.fit) meets cut parsed
  have spelled := (reads.declared_iff (fun _ _ spells => spells.value_ne_nil_iff) _).mp
    ((Document.declaresPrefixes_iff before behind).mp declared)
  have lasts := (Lasts.rooted metadata group).and
    (Lasts.declared o.level fun p listed => List.mem_append_right reservedPrefixes listed)
  have shrunk := shrunk_holds lasts (fun _ known => ⟨_, known.1⟩) meets apart ⟨rooted, spelled⟩ few (whole ▸ declares)
  rw [← whole] at shrunk
  -- and back, from the content that is left to the document that is read of it
  obtain ⟨d', parsed', c', before', behind', spelled', reads'⟩ := shrunk.exists_readsAs
    (fun _ => Piece.solid_of_sound) (fun _ (sound : Piece.Sound _) => Piece.isTag_of_framed sound.framed) (fun _ => id)
  exact ⟨d', parsed', (Document.declaresPrefixes_iff before' behind').mpr
    ((reads'.declared_iff (fun _ _ _ => Iff.rfl) _).mpr spelled')⟩

/-- A document with a prefix in the name of an element and in that of an attribute. -/
def prefixed : Text := "<svg xmlns:p=\"u\"><p:path style=\"fill:red\" p:d=\"1.50\"/></svg>".toList

/-- The tags in it. -/
def prefixedRoot : SpelledTag := ⟨"svg".toList, [⟨[' '], "xmlns:p".toList, [], [], .double, "u".toList⟩], []⟩

def prefixedPath : SpelledTag :=
  ⟨"p:path".toList, [⟨[' '], styleKey, [], [], .double, "fill:red".toList⟩,
    ⟨[' '], "p:d".toList, [], [], .double, "1.50".toList⟩], []⟩

theorem optimized_declares_prefixes_prefixed :
    ∃ d, Document.parse prefixed = .ok d ∧ (∀ p ∈ piecesOf prefixed, p.Tidy .aggressive) ∧ DeclaresInTags prefixed ∧
      MetadataUnnested d.elements ∧ d.root.name ≠ metadataName ∧
      (Level.aggressive ≠ .light → d.root.name ≠ groupName) ∧
      d.DeclaresPrefixes (reservedPrefixes ++ editorNames) (·.value ≠ []) ∧
      ∃ d', Document.parse (optimize { level := .aggressive } prefixed).document = .ok d' ∧
        d'.DeclaresPrefixes (reservedPrefixes ++ editorNames) fun _ => True := by
  have pieces : piecesOf prefixed =
      [.startTag prefixedRoot.inside, .emptyTag prefixedPath.inside, .endTag "svg".toList] := by decide +kernel
  have tidy : ∀ p ∈ piecesOf prefixed, p.Tidy .aggressive := by
    have root : prefixedRoot.Tidy := SpelledTag.tidy_of_noEquals (by decide) (by decide) (by decide) (by decide)
    have path : prefixedPath.Tidy := SpelledTag.tidy_of_noEquals (by decide) (by decide) (by decide) (by decide)
    have rootStylable : prefixedRoot.Stylable := ⟨by decide, by decide, by decide, by decide⟩
    have pathStylable : prefixedPath.Stylable := ⟨by decide, by decide, by decide, by decide +kernel⟩
    rw [pieces]
    simp only [List.forall_mem_cons]
    refine ⟨⟨prefixedRoot, rfl, root, fun _ => rootStylable⟩, ⟨prefixedPath, rfl, path, fun _ => pathStylable, by decide⟩,
      fun named => absurd named (by decide), fun _ member => absurd member List.not_mem_nil⟩
  obtain ⟨d, parsed, names⟩ : ∃ d, Document.parse prefixed = .ok d ∧ MetadataUnnested d.elements ∧
      d.root.name ≠ metadataName ∧ d.root.name ≠ groupName ∧
      d.DeclaresPrefixes (reservedPrefixes ++ editorNames) (·.value ≠ []) := by
    refine ⟨⟨[], ⟨⟨"svg".toList, [⟨"xmlns:p".toList, "u".toList, some ⟨"u".toList, .double⟩⟩], false⟩,
      .element ⟨"p:path".toList, [⟨styleKey, "fill:red".toList, some ⟨"fill:red".toList, .double⟩⟩,
        ⟨"p:d".toList, "1.50".toList, some ⟨"1.50".toList, .double⟩⟩], true⟩ .nil .nil⟩, []⟩, by cbv, ?_, ?_, ?_, ?_⟩
    · unfold MetadataUnnested
      decide
    · decide
    · decide
    · decide
  obtain ⟨unnested, metadata, group, declared⟩ := names
  have declares : DeclaresInTags prefixed := by decide +kernel
  exact ⟨d, parsed, tidy, declares, unnested, metadata, fun _ => group, declared,
    optimized_declares_prefixes parsed tidy declares unnested metadata (fun _ => group) declared⟩

/-- The declaration of an editor's name goes, though an attribute uses it. -/
theorem light_undeclares_prefix :
    let s : Text := "<svg xmlns:inkscape=\"x\" inkscape:label=\"y\"/>".toList
    ∃ d d', Document.parse s = .ok d ∧ d.DeclaresPrefixes reservedPrefixes (fun _ => True) ∧
      Document.parse (optimize { level := .light } s).document = .ok d' ∧
      ¬ d'.DeclaresPrefixes reservedPrefixes fun _ => True := by
  have shrunk : (optimize { level := .light } "<svg xmlns:inkscape=\"x\" inkscape:label=\"y\"/>".toList).document =
      "<svg inkscape:label=\"y\"/>".toList := by decide +kernel
  dsimp only
  rw [shrunk]
  refine ⟨⟨[], ⟨⟨"svg".toList, [⟨"xmlns:inkscape".toList, "x".toList, some ⟨"x".toList, .double⟩⟩,
      ⟨"inkscape:label".toList, "y".toList, some ⟨"y".toList, .double⟩⟩], true⟩, .nil⟩, []⟩,
    ⟨[], ⟨⟨"svg".toList, [⟨"inkscape:label".toList, "y".toList, some ⟨"y".toList, .double⟩⟩], true⟩, .nil⟩, []⟩,
    by cbv, by decide, by cbv, by decide⟩

end Shrink
end SvgEdit
