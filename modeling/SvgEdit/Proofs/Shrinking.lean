import SvgEdit.Shrink.Report
import SvgEdit.Proofs.CondensedMarkup
import SvgEdit.Proofs.CondensingPasses
import SvgEdit.Proofs.EditorNamespaces
import SvgEdit.Proofs.EmptyGroups
import SvgEdit.Proofs.StyleLifting
import SvgEdit.Proofs.TidyDocuments

/-!
# Shrunk documents

A tidy document is accepted again after it is shrunk, whatever the level. Shrinking does not parse: in
a text that is accepted but not tidy, it finds markup where there is none, and can leave half of it.
-/
namespace SvgEdit
namespace Shrink

variable {s : Text}

/-! ## What lasts -/

/--
A fact about content that lasts while a text is shrunk at a level. It may be another one before the
attributes without a value are gone than after.
-/
structure Lasts (level : Level) (before after : SpelledContent → Prop) : Prop where
  withoutMetadata : ∀ {c c' : SpelledContent}, c.Reduces (· = ·) (· = metadataName) c' → before c → before c'
  withoutEmpty : ∀ {c c' : SpelledContent},
    c.Reduces (SpelledTag.Keeps SpelledAttribute.IsEmpty) (fun _ => False) c' → before c → after c'
  later : ∀ {c c' : SpelledContent}, c.Reduces (SpelledTag.Keeps fun a => a.DeclaresEditor ∨ a.key = styleKey)
    (fun name => level ≠ .light ∧ name = groupName) c' → after c → after c'

namespace Lasts

variable {level : Level} {before after : SpelledContent → Prop}

theorem withoutEditors (lasts : Lasts level before after) {c c' : SpelledContent}
    (h : c.Reduces (SpelledTag.Keeps SpelledAttribute.DeclaresEditor) (fun _ => False) c') : after c → after c' :=
  lasts.later (h.mono (fun _ _ keeps => keeps.mono fun _ => .inl) fun _ => False.elim)

theorem withoutStyles (lasts : Lasts level before after) {c c' : SpelledContent}
    (h : c.Reduces (SpelledTag.Keeps (·.key = styleKey)) (fun _ => False) c') : after c → after c' :=
  lasts.later (h.mono (fun _ _ keeps => keeps.mono fun _ => .inr) fun _ => False.elim)

theorem withoutGroups (lasts : Lasts level before after) (heavy : level ≠ .light) {c c' : SpelledContent}
    (h : c.Reduces (SpelledTag.Keeps fun _ => False) (· = groupName) c') : after c → after c' :=
  lasts.later (h.mono (fun _ _ keeps => keeps.mono fun _ => False.elim) fun _ group => ⟨heavy, group⟩)

theorem condensed (lasts : Lasts level before after) {c c' : SpelledContent}
    (h : c.Reduces (SpelledTag.Keeps fun _ => False) (fun _ => False) c') : after c → after c' :=
  lasts.later (h.mono (fun _ _ keeps => keeps.mono fun _ => False.elim) fun _ => False.elim)

/-- The root stays the root. -/
theorem rooted {name : Text} (metadata : name ≠ metadataName) (group : level ≠ .light → name ≠ groupName) :
    Lasts level (SpelledContent.Rooted name) (SpelledContent.Rooted name) where
  withoutMetadata h := h.rooted (fun _ _ same => congrArg SpelledTag.name same.symm) metadata
  withoutEmpty h := h.rooted (fun _ _ => SpelledTag.Keeps.name) id
  later h := h.rooted (fun _ _ => SpelledTag.Keeps.name) fun gone => group gone.1 gone.2

end Lasts

/-! ## Passes -/

variable {level : Level} {before after : SpelledContent → Prop}

theorem condensed_holds (lasts : Lasts level before after) {t : Text} (condensed : Condensed s t)
    (holds : Terms.Holds ⟨Piece.Sound, SpelledTag.Fit⟩ after s) : Terms.Holds ⟨Piece.Sound, SpelledTag.Fit⟩ after t :=
  Condensed.carries.holds (fun _ _ => Piece.sound_join) lasts.condensed holds condensed

theorem decimals_holds (lasts : Lasts level before after) (places : Option Nat)
    (holds : Terms.Holds ⟨Piece.Sound, SpelledTag.Fit⟩ after s) :
    Terms.Holds ⟨Piece.Sound, SpelledTag.Fit⟩ after (Pass.decimals.run places s) := by
  cases places with
  | none => exact holds
  | some places => exact condensed_holds lasts (condensed_shortenDecimals places s) holds

theorem blanks_holds (lasts : Lasts level before after) (holds : Terms.Holds ⟨Piece.Sound, SpelledTag.Fit⟩ after s) :
    Terms.Holds ⟨Piece.Sound, SpelledTag.Fit⟩ after (removeBlanks s) :=
  removeBlanks_induction (fun _ _ thinned => condensed_holds lasts thinned.condensed) holds

theorem styles_holds (lasts : Lasts .aggressive before after)
    (holds : Terms.Holds ⟨Piece.Inert .aggressive, SpelledTag.Ready (Level.aggressive = .aggressive)⟩ after s) :
    Terms.Holds ⟨Piece.Sound, SpelledTag.Fit⟩ after (liftStyles s) := by
  have stylable : Terms.Holds ⟨Piece.Inert .aggressive, SpelledTag.Ready True⟩ after s := by
    refine holds.mono (fun _ inert => ?_) fun t ready => ?_
    · exact inert
    · exact ⟨ready.tidy, ready.readable, fun _ => ready.stylable rfl⟩
  exact liftStyles_sweeps.holds (fun _ _ => Piece.sound_join) lasts.withoutStyles stylable

/-- What holds of the pieces that are read may be added to the terms of content with a root. -/
theorem holds_and_of_piecesOf {terms : Terms} (solid : ∀ p, terms.piece p → p.Solid)
    (noTag : ∀ p, terms.piece p → p.isTag = false) (fit : ∀ t, terms.tag t → t.Fit) {fact : SpelledContent → Prop}
    (rooted : ∀ c, fact c → ∃ name, c.Rooted name) {is : Piece → Prop}
    (all : ∀ p ∈ piecesOf s, p.isTag = false → is p) (holds : terms.Holds fact s) :
    Terms.Holds ⟨fun p => terms.piece p ∧ is p, terms.tag⟩ fact s := by
  obtain ⟨k, few, c, rfl, meets, apart, known⟩ := holds
  obtain ⟨name, root⟩ := rooted c known
  obtain ⟨cut, d, parsed⟩ := SpelledContent.exists_parse solid noTag fit meets apart root few
  rw [← cut.unique (Document.builds_piecesOf parsed).1] at all
  exact ⟨k, few, c, rfl, meets.and_of_pieces noTag all, apart, known⟩

/-- The passes that look at attributes. -/
theorem attributes_holds {styled : Prop} (lasts : Lasts level before after)
    (rooted : ∀ c, after c → ∃ name, c.Rooted name)
    (undeclared : ∀ p ∈ piecesOf (removeEmptyAttributes s), p.isTag = false → Undeclared p.body)
    (holds : Terms.Holds ⟨Piece.Clean level, SpelledTag.Ready styled⟩ before s) :
    Terms.Holds ⟨Piece.Inert level, SpelledTag.Ready styled⟩ after (removeEditorNamespaces (removeEmptyAttributes s)) := by
  have cleared := removeEmptyAttributes_sweeps.holds (fun _ _ => Piece.inert_join) lasts.withoutEmpty holds
  have refined := holds_and_of_piecesOf (fun _ (inert : Piece.Inert level _) => Piece.solid_of_sound inert.sound)
    (fun _ (inert : Piece.Inert level _) => Piece.isTag_of_framed inert.framed) (fun _ => SpelledTag.Ready.fit) rooted
    undeclared cleared
  exact removeEditorNamespaces_sweeps.holds (fun _ _ => Piece.inert_join) lasts.withoutEditors refined

/-- After comments and metadata are removed, the other passes of a level leave what can be read. -/
theorem passes_hold {o : Options} (lasts : Lasts o.level before after) (rooted : ∀ c, after c → ∃ name, c.Rooted name)
    (undeclared : ∀ p ∈ piecesOf (removeEmptyAttributes s), p.isTag = false → Undeclared p.body)
    (holds : Terms.Holds ⟨Piece.Clean o.level, SpelledTag.Ready (o.level = .aggressive)⟩ before s) :
    Terms.Holds ⟨Piece.Sound, SpelledTag.Fit⟩ after
      ((o.level.passes.drop 2).foldl (fun s pass => pass.run o.places s) s) := by
  have attributes := attributes_holds lasts rooted undeclared holds
  have fit {s : Text} (holds : Terms.Holds ⟨Piece.Inert o.level, SpelledTag.Ready (o.level = .aggressive)⟩ after s) :
      Terms.Holds ⟨Piece.Sound, SpelledTag.Fit⟩ after s :=
    holds.mono (fun _ => Piece.Inert.sound) fun _ => SpelledTag.Ready.fit
  have groups (heavy : o.level ≠ .light) := collapseGroups_holds heavy (lasts.withoutGroups heavy) attributes
  cases level : o.level with
  | light => exact blanks_holds lasts (fit attributes)
  | standard => exact blanks_holds lasts (decimals_holds lasts _ (fit (groups (by rw [level]; decide))))
  | aggressive =>
    have groups := groups (by rw [level]; decide)
    rw [level] at lasts groups
    exact blanks_holds lasts (decimals_holds lasts _ (styles_holds lasts groups))

/-! ## The whole -/

/-- What lasts is true of the content of the shrunk text, if it is true of the content of a tidy one. -/
theorem shrunk_holds {o : Options} (lasts : Lasts o.level before after) (rooted : ∀ c, after c → ∃ name, c.Rooted name)
    {c : SpelledContent} (meets : c.Meets (.tidy o.level)) (apart : c.MetadataApart) (known : before c)
    {k : Nat} (few : k ≤ 2) (declares : DeclaresInTags (List.replicate k byteOrderMark ++ c.source)) :
    Terms.Holds ⟨Piece.Sound, SpelledTag.Fit⟩ after
      (optimize o (List.replicate k byteOrderMark ++ c.source)).document := by
  have removed := SpelledContent.holds_withoutMetadata meets apart lasts.withoutMetadata known few
  have start (s : Text) : shrink o s = (o.level.passes.drop 2).foldl (fun s pass => pass.run o.places s)
      (removeMetadata (removeComments s)) := by
    rw [shrink]
    cases o.level <;> rfl
  rw [optimize, start]
  exact passes_hold lasts rooted declares removed

theorem exists_parse_of_holds {name : Text}
    (holds : Terms.Holds ⟨Piece.Sound, SpelledTag.Fit⟩ (SpelledContent.Rooted name) s) :
    ∃ d, Document.parse s = .ok d := by
  obtain ⟨k, few, c, rfl, meets, apart, rooted⟩ := holds
  exact (SpelledContent.exists_parse (fun _ => Piece.solid_of_sound)
    (fun _ (sound : Piece.Sound _) => Piece.isTag_of_framed sound.framed) (fun _ => id) meets apart rooted few).2

/-- A tidy document is accepted again after it is shrunk. -/
theorem optimized_is_accepted {o : Options} {d : Document} (parsed : Document.parse s = .ok d)
    (tidy : ∀ p ∈ piecesOf s, p.Tidy o.level) (declares : DeclaresInTags s) (unnested : MetadataUnnested d.elements)
    (metadata : d.root.name ≠ metadataName) (group : o.level ≠ .light → d.root.name ≠ groupName) :
    ∃ d', Document.parse (optimize o s).document = .ok d' := by
  obtain ⟨k, few, c, rfl, meets, apart, rooted, -⟩ := exists_content_of_parse parsed tidy unnested
  exact exists_parse_of_holds (shrunk_holds (.rooted metadata group) (fun _ root => ⟨_, root⟩) meets apart rooted few
    declares)

/-- A document with something for every pass, and with sections that look like markup but hold none. -/
def cluttered : Text :=
  "<?p a>b?><!DOCTYPE s [<!ENTITY>]>".toList ++ "<svg><!-- - --><metadata>m</metadata><g></g>".toList ++
    "<![CDATA[a<gap]]><path style=\"fill:red;x:y\" d=\"M 1.5000\" /></svg>".toList

/-- The tag of the path in it. -/
def clutteredPath : SpelledTag :=
  ⟨"path".toList, [⟨[' '], styleKey, [], [], .double, "fill:red;x:y".toList⟩,
    ⟨[' '], "d".toList, [], [], .double, "M 1.5000".toList⟩], [' ']⟩

/-- What it is read as. -/
def clutteredDocument : Document :=
  ⟨["<?p a>b?>".toList, "<!DOCTYPE s [<!ENTITY>]>".toList], ⟨⟨"svg".toList, [], false⟩,
    .raw "<!-- - -->".toList (.element ⟨metadataName, [], false⟩ (.raw "m".toList .nil)
      (.element ⟨groupName, [], false⟩ .nil (.raw "<![CDATA[a<gap]]>".toList
        (.element ⟨"path".toList, [⟨styleKey, "fill:red;x:y".toList, some ⟨"fill:red;x:y".toList, .double⟩⟩,
          ⟨"d".toList, "M 1.5000".toList, some ⟨"M 1.5000".toList, .double⟩⟩], true⟩ .nil .nil))))⟩, []⟩

theorem parse_cluttered : Document.parse cluttered = .ok clutteredDocument := by cbv

theorem optimized_is_accepted_cluttered :
    ∃ d, Document.parse cluttered = .ok d ∧ (∀ p ∈ piecesOf cluttered, p.Tidy .aggressive) ∧ DeclaresInTags cluttered ∧
      MetadataUnnested d.elements ∧ d.root.name ≠ metadataName ∧
      (Level.aggressive ≠ .light → d.root.name ≠ groupName) ∧
      ∃ d', Document.parse (optimize { level := .aggressive } cluttered).document = .ok d' := by
  have pieces : piecesOf cluttered = [.instruction "p a>b".toList,
      .doctype "DOCTYPE".toList " s [<!ENTITY>]".toList, .startTag "svg".toList, .comment " - ".toList,
      .startTag metadataName, .text "m".toList, .endTag metadataName, .startTag groupName, .endTag groupName,
      .characterData "a<gap".toList, .emptyTag clutteredPath.inside, .endTag "svg".toList] := by decide +kernel
  have simple {name : Text} (plain : Plain name) (begins : BeginsTag name) (noBlank : ∀ c ∈ name, Text.isBlank c = false)
      (noPoint : '.' ∉ name) : (Piece.startTag name).Tidy .aggressive :=
    Piece.tidy_startTag plain begins (steady_of_chars noBlank noPoint)
  have path : clutteredPath.Tidy := SpelledTag.tidy_of_noEquals (by decide) (by decide) (by decide) (by decide)
  have stylable : clutteredPath.Stylable := ⟨by decide, by decide, by decide, by decide +kernel⟩
  have instruction : (Piece.instruction "p a>b".toList).Tidy .aggressive :=
    Piece.tidy_section rfl (by decide) (by decide) (by decide) (by decide +kernel)
  have doctype : (Piece.doctype "DOCTYPE".toList " s [<!ENTITY>]".toList).Tidy .aggressive :=
    Piece.tidy_section rfl (by decide) (by decide) ⟨'s', by decide, by decide⟩ (by decide +kernel)
  have characterData : (Piece.characterData "a<gap".toList).Tidy .aggressive :=
    Piece.tidy_section rfl (by decide) (by decide) (by decide) (by decide +kernel)
  have tidy : ∀ p ∈ piecesOf cluttered, p.Tidy .aggressive := by
    rw [pieces]
    simp only [List.forall_mem_cons]
    exact ⟨instruction, doctype, simple (by decide) (by decide) (by decide) (by decide), trivial,
      simple (by decide) (by decide) (by decide) (by decide), trivial, fun _ => rfl,
      simple (by decide) (by decide) (by decide) (by decide), fun named => absurd named (by decide), characterData,
      ⟨clutteredPath, rfl, path, fun _ => stylable, by decide⟩, fun named => absurd named (by decide),
      fun _ member => absurd member List.not_mem_nil⟩
  have unnested : MetadataUnnested clutteredDocument.elements := by
    unfold MetadataUnnested
    decide
  have metadata : clutteredDocument.root.name ≠ metadataName := by decide
  have group : clutteredDocument.root.name ≠ groupName := by decide
  have declares : DeclaresInTags cluttered := by decide +kernel
  exact ⟨_, parse_cluttered, tidy, declares, unnested, metadata, fun _ => group,
    optimized_is_accepted parse_cluttered tidy declares unnested metadata fun _ => group⟩

/-! ## A text that is not tidy -/

/-- A comment seems to begin in one value and to end in another one, and half of the markup goes with it. -/
theorem light_breaks_markup :
    let s : Text := "<svg a=\"<!--\"><b c=\"-->\"/></svg>".toList
    (∃ d, Document.parse s = .ok d) ∧ (optimize { level := .light } s).document = "<svg/></svg>".toList ∧
      ∀ d, Document.parse (optimize { level := .light } s).document ≠ .ok d := by
  have shrunk : (optimize { level := .light } "<svg a=\"<!--\"><b c=\"-->\"/></svg>".toList).document =
      "<svg/></svg>".toList := by decide +kernel
  refine ⟨?_, shrunk, fun d parsed => ?_⟩
  · exact ⟨⟨[], ⟨⟨"svg".toList, [⟨"a".toList, "<!--".toList, some ⟨"<!--".toList, .double⟩⟩], false⟩,
      .element ⟨"b".toList, [⟨"c".toList, "-->".toList, some ⟨"-->".toList, .double⟩⟩], true⟩ .nil .nil⟩, []⟩, by cbv⟩
  · rw [shrunk] at parsed
    have rejected : (Document.parse "<svg/></svg>".toList).toOption = none := by decide +kernel
    rw [parsed] at rejected
    cases rejected

end Shrink
end SvgEdit
