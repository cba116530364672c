import SvgEdit.Proofs.EmptyAttributes
import SvgEdit.Proofs.JoinedRuns

/-!
# Tidy documents

A text that is accepted and whose pieces are tidy is the source of spelled content. Of its metadata
elements none that has an end tag stands inside of another one.
-/
namespace SvgEdit

/--
Nothing in the piece looks like markup that it is not, as far as a level looks for it: comments and metadata
before attributes without a value are removed, groups and styles after that. Metadata is an empty tag without
attributes or ends with an exact end tag.
-/
def Piece.Tidy (level : Shrink.Level) : Piece → Prop
  | comment _ | text _ | reference _ => True
  | startTag inside => ∃ t : SpelledTag, t.inside = inside ∧ t.Tidy ∧ (level = .aggressive → t.Stylable)
  | emptyTag inside =>
    ∃ t : SpelledTag, t.inside = inside ∧ t.Tidy ∧ (level = .aggressive → t.Stylable) ∧
      (t.name = metadataName → inside = metadataName)
  | endTag inside => endName inside = metadataName → inside = metadataName
  | p => Unmarked p.body ∧ p.cleared.Closed ∧ Untagged level p.cleared.body

/--
Outside of tags no declaration of an editor's name stands in the text, once comments, metadata and attributes
without a value are removed.
-/
def Shrink.DeclaresInTags (s : Text) : Prop :=
  ∀ p ∈ piecesOf (removeEmptyAttributes (removeMetadata (removeComments s))), p.isTag = false → Undeclared p.body

instance (s : Text) : Decidable (Shrink.DeclaresInTags s) :=
  inferInstanceAs (Decidable (∀ p ∈ piecesOf _, p.isTag = false → Shrink.Undeclared p.body))

/-- The metadata elements among the elements, except for empty tags, have no such element inside. -/
def MetadataUnnested (elements : List (Path × Element)) : Prop :=
  ∀ entry ∈ elements, entry.2.name = metadataName → ∀ inner ∈ entry.2.descendants, inner.2.name = metadataName →
    inner.2.tag.selfClosing = true

variable {level : Shrink.Level} {styled : Prop}

/-! ## Tags and other pieces -/

theorem Piece.Tidy.commented {p : Piece} (tidy : p.Tidy level) (back : p.ReadsBack) (noTag : p.isTag = false) :
    p.Commented level := by
  by_cases comment : p.isComment = true
  · cases p with
    | comment body => exact .inl ⟨body, rfl, back⟩
    | _ => cases comment
  have framed := framed_of_readsBack back noTag (by simpa using comment)
  cases p with
  | text => exact .inr ⟨framed, nofun, trivial, nofun⟩
  | reference => exact .inr ⟨framed, nofun, trivial, nofun⟩
  | comment => exact absurd rfl comment
  | startTag | emptyTag | endTag => cases noTag
  | _ => exact .inr ⟨framed, fun _ => tidy.1, tidy.2.1, fun _ => tidy.2.2⟩

/-- A start tag that is a name. -/
theorem Piece.tidy_startTag {name : Text} (plain : Plain name) (begins : BeginsTag name)
    (steady : Steady name) : (Piece.startTag name).Tidy level := by
  have noAttribute {is : SpelledAttribute → Prop} : ∀ a ∈ ([] : List SpelledAttribute), is a :=
    fun _ member => absurd member List.not_mem_nil
  refine ⟨⟨name, [], []⟩, by simp [SpelledTag.inside, SpelledTag.middle], ?_, fun _ => ?_⟩
  · exact ⟨⟨plain, begins, noAttribute, fun _ member => absurd member List.not_mem_nil⟩, steady, noAttribute⟩
  · exact ⟨noAttribute, fun _ => noAttribute, noAttribute, noAttribute⟩

/-- A section in which no attribute can stand. -/
theorem Piece.tidy_section {p : Piece} (isSection : p.isSection = true) (noEquals : '=' ∉ p.body)
    (unmarked : Unmarked p.body) (closed : p.Closed) (untagged : Untagged level p.body) : p.Tidy level := by
  have same := cleared_of_noEquals noEquals
  cases p with
  | characterData | doctype | instruction => exact ⟨unmarked, by rwa [same], by rwa [same]⟩
  | _ => cases isSection

theorem ready_of_tagElement {t : SpelledTag} {selfClosing : Bool} {e : Element}
    (tag : Assembly.tagElement t.inside selfClosing = .ok e) (tidy : t.Tidy) (stylable : styled → t.Stylable) :
    t.Ready styled ∧ e.name = t.name ∧ e.tag.selfClosing = selfClosing := by
  obtain ⟨as, read, rfl⟩ := Assembly.tagElement_eq_ok_iff.mp tag
  obtain ⟨once, references⟩ := tidy.proper.exists_readAttributes_iff.mp ⟨as, read⟩
  exact ⟨⟨tidy, ⟨once, references⟩, stylable⟩, tidy.proper.tagName_inside, rfl⟩

/-- An end tag holds the name and blanks. -/
theorem exists_of_endName {close name : Text} (plain : Plain name) (closes : Piece.endName close = name) :
    ∃ blanks, Spaces blanks ∧ close = name ++ blanks := by
  obtain ⟨tail, whole, blank⟩ := Text.exists_dropWhileEnd isSpace close
  rw [Piece.endName] at closes
  split at closes
  · next empty =>
    rw [empty, List.nil_append, closes] at whole
    obtain ⟨c, u, same⟩ := List.exists_cons_of_ne_nil plain.1
    have member : c ∈ name := by rw [same]; exact List.mem_cons_self
    have space := blank c (whole ▸ member)
    rw [plain.noSpace c member] at space
    cases space
  · rw [closes] at whole
    exact ⟨_, blank, whole⟩

/-! ## Spelled content -/

/-- What the pieces of a tidy text meet. -/
def Terms.tidy (level : Shrink.Level) : Terms := ⟨Piece.Commented level, SpelledTag.Ready (level = .aggressive)⟩

/-- Where an end tag of metadata stands, an element ends that is no empty tag. -/
theorem Builds.exists_metadata {ps : List Piece} {content : Content} (builds : Builds ps content)
    (ends : Piece.endTag metadataName ∈ ps) (n : Nat) :
    ∃ entry ∈ content.elementsFrom n, entry.2.name = metadataName ∧ entry.2.tag.selfClosing = false := by
  induction builds generalizing n with
  | nil => cases ends
  | raw other later ih =>
    rcases List.mem_cons.mp ends with rfl | ends
    · cases other
    · exact ih ends (n + 1)
  | empty tag later ih =>
    rcases List.mem_cons.mp ends with same | ends
    · cases same
    · obtain ⟨entry, listed, found⟩ := ih ends (n + 1)
      exact ⟨entry, List.mem_append_right _ listed, found⟩
  | @element inside close e ps qs inner next tag closes _ _ within later =>
    rcases List.mem_cons.mp ends with same | ends
    · cases same
    rcases List.mem_append.mp ends with ends | ends
    · obtain ⟨entry, listed, found⟩ := within ends 0
      exact ⟨(n :: entry.1, entry.2), List.mem_append_left _ (List.mem_cons_of_mem _ (List.mem_map_of_mem listed)), found⟩
    rcases List.mem_cons.mp ends with same | ends
    · obtain rfl := Piece.endTag.inj same
      refine ⟨_, List.mem_append_left _ List.mem_cons_self, closes.symm.trans (by decide), ?_⟩
      obtain ⟨as, -, rfl⟩ := Assembly.tagElement_eq_ok_iff.mp tag
      rfl
    · obtain ⟨entry, listed, found⟩ := later ends (n + 1)
      exact ⟨entry, List.mem_append_right _ listed, found⟩

namespace SpelledContent

/-- Tidy pieces that build something are the pieces of spelled content, with other content after it. -/
theorem exists_of_builds {ps : List Piece} {content : Content} (builds : Builds ps content)
    (tidy : ∀ p ∈ ps, p.Tidy level) (back : ∀ p ∈ ps, p.ReadsBack) {n : Nat}
    (unnested : MetadataUnnested (content.elementsFrom n)) (rest : SpelledContent)
    (meets : rest.Meets (.tidy level)) (apart : rest.MetadataApart) :
    ∃ c : SpelledContent, c.pieces = ps ++ rest.pieces ∧ c.Meets (.tidy level) ∧ c.MetadataApart := by
  induction builds generalizing n rest with
  | nil => exact ⟨rest, rfl, meets, apart⟩
  | @raw p ps next other later ih =>
    obtain ⟨c, same, meets', apart'⟩ := ih (fun q member => tidy q (List.mem_cons_of_mem p member))
      (fun q member => back q (List.mem_cons_of_mem p member)) unnested rest meets apart
    have here := (tidy p List.mem_cons_self).commented (back p List.mem_cons_self) other
    exact ⟨.other p c, by rw [pieces, same]; rfl, ⟨here, meets'⟩, apart'⟩
  | @empty inside e ps next tag later ih =>
    obtain ⟨c, same, meets', apart'⟩ := ih (fun q member => tidy q (List.mem_cons_of_mem _ member))
      (fun q member => back q (List.mem_cons_of_mem _ member))
      (fun entry member => unnested entry (List.mem_append_right _ member)) rest meets apart
    obtain ⟨t, rfl, here, stylable, named⟩ := tidy _ List.mem_cons_self
    obtain ⟨ready, -, -⟩ := ready_of_tagElement tag here stylable
    exact ⟨.empty t c, by rw [pieces, same]; rfl, ⟨ready, meets'⟩, named, apart'⟩
  | @element inside close e ps qs inner next tag closes builds _ within later =>
    have inEntry (entry : Path × Element) (member : entry ∈ inner.elementsFrom 0) :
        (n :: entry.1, entry.2) ∈ (Content.element e.tag inner next).elementsFrom n :=
      List.mem_append_left _ (List.mem_cons_of_mem _ (List.mem_map_of_mem member))
    obtain ⟨c, same, meets', apart'⟩ := within (n := 0)
      (fun q member => tidy q (List.mem_cons_of_mem _ (List.mem_append_left _ member)))
      (fun q member => back q (List.mem_cons_of_mem _ (List.mem_append_left _ member)))
      (fun entry member => unnested (n :: entry.1, entry.2) (inEntry entry member)) .nil trivial trivial
    obtain ⟨c', same', meets'', apart''⟩ := later
      (fun q member => tidy q (List.mem_cons_of_mem _ (List.mem_append_right _ (List.mem_cons_of_mem _ member))))
      (fun q member => back q (List.mem_cons_of_mem _ (List.mem_append_right _ (List.mem_cons_of_mem _ member))))
      (fun entry member => unnested entry (List.mem_append_right _ member)) rest meets apart
    obtain ⟨t, rfl, here, stylable⟩ := tidy _ List.mem_cons_self
    obtain ⟨ready, name, -⟩ := ready_of_tagElement tag here stylable
    obtain ⟨blanks, blank, rfl⟩ := exists_of_endName here.proper.name (closes.trans name)
    rw [pieces, List.append_nil] at same
    refine ⟨.element t blanks c c', ?_, ⟨⟨ready, blank⟩, meets', meets''⟩, fun named => ⟨?_, fun ends => ?_⟩,
      apart', apart''⟩
    · rw [pieces, same, same']
      simp
    · have exact := tidy (.endTag (t.name ++ blanks)) (by simp) ((closes.trans name).trans named)
      rw [named] at exact
      exact List.append_right_eq_self.mp exact
    · rw [same] at ends
      obtain ⟨entry, listed, metadata, going⟩ := builds.exists_metadata ends 0
      have closed := unnested _ (List.mem_append_left _ List.mem_cons_self) (name.trans named) entry listed metadata
      rw [going] at closed
      cases closed

/-- The same for pieces outside of the root. -/
theorem exists_of_outside {ps : List Piece} (outside : ∀ p ∈ ps, p.isOutside = true)
    (tidy : ∀ p ∈ ps, p.Tidy level) (back : ∀ p ∈ ps, p.ReadsBack) (rest : SpelledContent)
    (meets : rest.Meets (.tidy level)) (apart : rest.MetadataApart) :
    ∃ c : SpelledContent, c.pieces = ps ++ rest.pieces ∧ c.Meets (.tidy level) ∧ c.MetadataApart := by
  induction ps with
  | nil => exact ⟨rest, rfl, meets, apart⟩
  | cons p ps ih =>
    obtain ⟨c, same, meets', apart'⟩ := ih (fun q member => outside q (List.mem_cons_of_mem p member))
      (fun q member => tidy q (List.mem_cons_of_mem p member)) (fun q member => back q (List.mem_cons_of_mem p member))
    have here := (tidy p List.mem_cons_self).commented (back p List.mem_cons_self)
      (Piece.isTag_of_isOutside (outside p List.mem_cons_self))
    exact ⟨.other p c, by rw [pieces, same]; rfl, ⟨here, meets'⟩, apart'⟩

end SpelledContent

/-- An accepted text of tidy pieces is the source of spelled content, after byte order marks. -/
theorem exists_content_of_parse {s : Text} {d : Document} (parsed : Document.parse s = .ok d)
    (tidy : ∀ p ∈ piecesOf s, p.Tidy level) (unnested : MetadataUnnested d.elements) :
    ∃ k ≤ 2, ∃ c : SpelledContent, s = List.replicate k byteOrderMark ++ c.source ∧
      c.Meets (.tidy level) ∧ c.MetadataApart ∧ c.Rooted d.root.name ∧ Cut (bodyOf s) c.pieces := by
  obtain ⟨cut, builds⟩ := Document.builds_piecesOf parsed
  have ran := builds.run
  have back := cut.readsBack
  obtain ⟨front, middle, rest, parts, outside, outside', inner, -⟩ := builds
  rw [parts] at tidy cut ran back
  simp only [List.forall_mem_append] at tidy back
  obtain ⟨c, same, meets, apart⟩ := SpelledContent.exists_of_outside outside' tidy.2.2 back.2.2 .nil
    trivial trivial
  have unnested' : MetadataUnnested ((Content.element d.root.tag d.root.content .nil).elementsFrom 0) := by
    intro entry member
    obtain ⟨path, listed⟩ := Document.exists_mem_elements member
    exact unnested (path, entry.2) listed
  obtain ⟨c', same', meets', apart'⟩ := SpelledContent.exists_of_builds inner tidy.2.1 back.2.1 unnested' c meets apart
  obtain ⟨c'', same'', meets'', apart''⟩ := SpelledContent.exists_of_outside outside tidy.1 back.1 c' meets' apart'
  rw [same', same, SpelledContent.pieces, List.append_nil] at same''
  obtain ⟨k, few, whole⟩ := exists_marks s
  refine ⟨k, few, c'', ?_, meets'', apart'', ?_, same'' ▸ cut⟩
  · rw [SpelledContent.source, same'', ← cut.source]
    exact whole
  · exact (SpelledContent.run_rooted_iff (fun _ => Piece.isTag_of_commented) (fun t (ready : t.Ready _) => ready.fit)
      meets'').mp (same'' ▸ ran)

end SvgEdit
