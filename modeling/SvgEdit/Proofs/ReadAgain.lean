import SvgEdit.Proofs.ReadTags

/-!
# Documents read again

A document that was read is read again from its source, as an equal document, exactly if all its tags
are. The walk goes along the pieces: from the pieces that are written to what they build, and from what
was built to where the pieces that were read begin and end.
-/
namespace SvgEdit

/-! ## Pieces that are written -/

/-- A tag that was read, and whose end tag closes if it has one. -/
structure Tag.Paired (t : Tag) : Prop where
  read : t.WasRead
  close : t.selfClosing = false → Closes none t.name

theorem filter_endName (inside : Text) : (Piece.endName inside).filter (!isSpace ·) = inside.filter (!isSpace ·) := by
  have drop (s : Text) : (s.dropWhile isSpace).filter (!isSpace ·) = s.filter (!isSpace ·) := by
    induction s with
    | nil => rfl
    | cons c s ih =>
      by_cases space : isSpace c = true
      · rw [List.dropWhile_cons_of_pos space, ih, List.filter_cons_of_neg (by simp [space])]
      · rw [List.dropWhile_cons_of_neg space]
  rw [Piece.endName]
  split
  · rfl
  · rw [Text.dropWhileEnd, List.filter_reverse, drop, ← List.filter_reverse, List.reverse_reverse]

theorem Tag.WasRead.endName_name {t : Tag} (h : t.WasRead) : Piece.endName t.name = t.name := by
  have same : Text.dropWhileEnd isSpace t.name = t.name :=
    Text.dropWhileEnd_of_last fun c last => h.name c (List.mem_of_getLast? last)
  rw [Piece.endName, same]
  split <;> rfl

theorem readsBack_endTag_of_closes {name : Text} (closes : Closes none name) : (Piece.endTag name).ReadsBack := by
  refine ⟨'<', _, rfl, fun rest _ => ?_⟩
  have cut : cutTag none (name ++ '>' :: rest) = some (name, rest) := cutTag_eq_some_iff.mpr ⟨rfl, closes⟩
  simpa using read_endTag cut

/-- What was read is written in pieces of the same kinds. -/
theorem Builds.writesBy {ps : List Piece} {c : Content} (h : Builds ps c) (back : ∀ p ∈ ps, p.ReadsBack) :
    ∃ qs, WritesBy Tag.Paired qs c ∧ qs.map Piece.isRun = ps.map Piece.isRun := by
  induction h with
  | nil => exact ⟨[], .nil, rfl⟩
  | @raw p ps next other later ih =>
    obtain ⟨here, back⟩ := List.forall_mem_cons.mp back
    obtain ⟨qs, writes, same⟩ := ih back
    have raw := WritesBy.raw (here.stands other) writes
    rw [Piece.source_settled] at raw
    exact ⟨_, raw, by rw [List.map_cons, same, p.isRun_settled, List.map_cons]⟩
  | @empty inside e ps next tag later ih =>
    obtain ⟨here, back⟩ := List.forall_mem_cons.mp back
    obtain ⟨qs, writes, same⟩ := ih back
    have read := wasRead_of_tagElement tag (here.beginsTag (.inr rfl))
    obtain ⟨as, -, rfl⟩ := Assembly.tagElement_eq_ok_iff.mp tag
    exact ⟨_, .empty ⟨read, fun going => nomatch going⟩ rfl writes, by rw [List.map_cons, same, List.map_cons]; rfl⟩
  | @element inside close e ps qs inner next tag closes _ _ within later =>
    obtain ⟨here, back⟩ := List.forall_mem_cons.mp back
    obtain ⟨inner, back⟩ := List.forall_mem_append.mp back
    obtain ⟨ending, back⟩ := List.forall_mem_cons.mp back
    obtain ⟨rs, writes, same⟩ := within inner
    obtain ⟨rs', writes', same'⟩ := later back
    have read := wasRead_of_tagElement tag (here.beginsTag (.inl rfl))
    have name : Closes none e.tag.name := by
      rw [show e.tag.name = Piece.endName close from closes.symm]
      exact closes_of_filter_eq (filter_endName close).symm (ending.closes.2.2 rfl)
    obtain ⟨as, -, rfl⟩ := Assembly.tagElement_eq_ok_iff.mp tag
    refine ⟨_, .element ⟨read, fun _ => name⟩ rfl writes writes', ?_⟩
    simp [Piece.isRun, same, same']

namespace WritesBy

variable {qs : List Piece} {c : Content}

/-! ## Reading what is written -/

/-- If all tags are read again, then so is the content. -/
theorem exists_builds (h : WritesBy Tag.Paired qs c) {n : Nat}
    (again : ∀ entry ∈ c.elementsFrom n, entry.2.tag.ReadsAgain) :
    (∀ q ∈ qs, q.ReadsBack) ∧ ∃ c', Builds qs c' ∧ c'.unspelled = c.unspelled := by
  induction h generalizing n with
  | nil => exact ⟨fun _ member => absurd member List.not_mem_nil, .nil, .nil, rfl⟩
  | @raw p qs next stands _ ih =>
    obtain ⟨back, c', builds, same⟩ := ih (n := n + 1) again
    refine ⟨List.forall_mem_cons.mpr ⟨stands.back, back⟩, _, .raw stands.other builds, ?_⟩
    rw [stands.kept, Content.unspelled, same, Content.unspelled]
  | @empty tag qs next paired closing _ ih =>
    obtain ⟨here, -, after⟩ := Content.forall_elementsFrom_element.mp again
    obtain ⟨back, c', builds, same⟩ := ih after
    obtain ⟨as, element, same'⟩ := here.exists_tagElement paired.read
    have opening := here.readsBack_opening paired.read
    rw [Tag.opening, closing, if_pos rfl] at opening
    rw [closing] at element
    refine ⟨List.forall_mem_cons.mpr ⟨opening, back⟩, _, .empty element builds, ?_⟩
    simp only [Content.unspelled, same, same', closing]
  | @element tag qs rs inner next paired going _ _ within later =>
    obtain ⟨here, below, after⟩ := Content.forall_elementsFrom_element.mp again
    obtain ⟨back, c', builds, same⟩ := within (n := 0) below
    obtain ⟨back', c'', builds', same'⟩ := later after
    obtain ⟨as, element, same''⟩ := here.exists_tagElement paired.read
    have opening := here.readsBack_opening paired.read
    rw [Tag.opening, going, if_neg (by decide)] at opening
    rw [going] at element
    have ending := readsBack_endTag_of_closes (paired.close going)
    refine ⟨List.forall_mem_cons.mpr ⟨opening, List.forall_mem_append.mpr ⟨back, List.forall_mem_cons.mpr ⟨ending, back'⟩⟩⟩,
      _, .element element paired.read.endName_name builds builds', ?_⟩
    simp only [Content.unspelled, same, same', same'', going]

/-! ## What reading tells -/

/-- A raw piece that is read with what is kept of it where a piece stands ends where that piece ends. -/
theorem source_eq_of_kept {p q : Piece} (other : p.isTag = false) (back : p.ReadsBack) (stands : q.Stands)
    (kept : p.kept = q.source) {u v : Text} (same : p.source ++ u = q.source ++ v) : p.source = q.source := by
  cases p with
  | doctype keyword content =>
    obtain ⟨c, s, source, read⟩ := back
    obtain ⟨c', s', source', read'⟩ := stands.back
    have markup : q.isRun = false := by
      have first : c' = '<' := by
        rw [source'] at kept
        exact (List.cons.inj kept).1.symm
      rw [isRun_of_read (read' [] fun _ _ head => nomatch head), first]
      rfl
    rw [source, source', List.cons_append, List.cons_append] at same
    obtain ⟨rfl, tails⟩ := List.cons.inj same
    have here := read u fun run => nomatch run
    rw [tails, read' v fun run => by rw [markup] at run; cases run] at here
    rw [(Prod.mk.inj (Except.ok.inj here)).1]
  | startTag | emptyTag | endTag => cases other
  | _ => exact kept

section Opening

variable {t : Tag} {inside : Text} {kind : Bool} {e : Element} (tag : Assembly.tagElement inside kind = .ok e)
  (alike : ({ e.tag with attributes := e.tag.attributes.unspelled } : Tag) =
    { t with attributes := t.attributes.unspelled })

include tag alike

theorem selfClosing_of_alike : t.selfClosing = kind := by
  obtain ⟨-, -, closing⟩ := Tag.mk.inj alike
  obtain ⟨as, -, rfl⟩ := Assembly.tagElement_eq_ok_iff.mp tag
  exact closing.symm

/-- An equal tag that is read where a tag opens ends where the written one ends. -/
theorem readsAgain_opening (read : t.WasRead)
    (back : (if kind then Piece.emptyTag inside else .startTag inside).ReadsBack) {u v : Text}
    (same : (if kind then Piece.emptyTag inside else .startTag inside).source ++ u = t.opening.source ++ v) :
    u = v ∧ t.ReadsAgain := by
  obtain ⟨name, attributes, -⟩ := Tag.mk.inj alike
  obtain rfl := selfClosing_of_alike tag alike
  unfold Tag.opening at same
  cases kind : t.selfClosing with
  | true =>
    have whole : inside ++ '/' :: '>' :: u = t.inside ++ '/' :: '>' :: v := by simpa [kind, Piece.source] using same
    obtain ⟨rfl, again⟩ := read.readsAgain tag name attributes back whole rfl
    exact ⟨by simpa using whole, again⟩
  | false =>
    have whole : inside ++ '>' :: u = t.inside ++ '>' :: v := by simpa [kind, Piece.source] using same
    obtain ⟨rfl, again⟩ := read.readsAgain tag name attributes back whole rfl
    exact ⟨by simpa using whole, again⟩

end Opening

/-- If an equal content is read where a content is written, then all its tags are read again. -/
theorem readsAgain (h : WritesBy Tag.Paired qs c) {ps : List Piece} {c' : Content} (builds : Builds ps c')
    (alike : c'.unspelled = c.unspelled) (back : ∀ p ∈ ps, p.ReadsBack) {u v : Text}
    (same : ps.flatMap Piece.source ++ u = qs.flatMap Piece.source ++ v) (n : Nat) :
    u = v ∧ ∀ entry ∈ c.elementsFrom n, entry.2.tag.ReadsAgain := by
  induction h generalizing ps c' u v n with
  | nil =>
    cases builds with
    | nil => exact ⟨same, fun _ member => absurd member List.not_mem_nil⟩
    | raw | empty | element => cases alike
  | @raw q qs next stands _ ih =>
    cases builds with
    | nil | empty | element => cases alike
    | @raw p ps next' other builds =>
      obtain ⟨kept, alike⟩ := Content.raw.inj alike
      obtain ⟨here, back⟩ := List.forall_mem_cons.mp back
      rw [List.flatMap_cons, List.flatMap_cons, List.append_assoc, List.append_assoc] at same
      have sources := source_eq_of_kept other here stands kept same
      rw [sources] at same
      exact ih builds alike back (List.append_cancel_left same) (n + 1)
  | @empty tag qs next paired closing _ ih =>
    cases builds with
    | nil | raw => cases alike
    | @empty inside e ps next' element builds =>
      obtain ⟨tags, -, alike⟩ := Content.element.inj alike
      obtain ⟨here, others⟩ := List.forall_mem_cons.mp back
      obtain ⟨rest, again⟩ := readsAgain_opening element tags paired.read here
        (by simpa [Tag.opening, closing, Piece.source] using same)
      obtain ⟨rest, later⟩ := ih builds alike others rest (n + 1)
      exact ⟨rest, Content.forall_elementsFrom_element.mpr
        ⟨again, fun _ member => absurd member List.not_mem_nil, later⟩⟩
    | @element inside close e ps ps' inner' next' element _ _ _ =>
      obtain ⟨tags, -, -⟩ := Content.element.inj alike
      exact absurd ((selfClosing_of_alike element tags).symm.trans closing) Bool.false_ne_true
  | @element tag qs rs inner next paired going _ _ within later =>
    cases builds with
    | nil | raw => cases alike
    | @empty inside e ps next' element _ =>
      obtain ⟨tags, -, -⟩ := Content.element.inj alike
      exact absurd (going.symm.trans (selfClosing_of_alike element tags)) Bool.false_ne_true
    | @element inside close e ps ps' inner' next' element closes builds builds' =>
      obtain ⟨tags, alike, alike'⟩ := Content.element.inj alike
      obtain ⟨here, others⟩ := List.forall_mem_cons.mp back
      obtain ⟨inner_, others⟩ := List.forall_mem_append.mp others
      obtain ⟨ending, after⟩ := List.forall_mem_cons.mp others
      obtain ⟨rest, again⟩ := readsAgain_opening element tags paired.read here
        (by simpa [Tag.opening, going, Piece.source] using same)
      obtain ⟨rest, below⟩ := within builds alike inner_ rest 0
      have rest : close ++ '>' :: (ps'.flatMap Piece.source ++ u) = tag.name ++ '>' :: (rs.flatMap Piece.source ++ v) := by
        simpa using rest
      obtain ⟨-, rest⟩ := (ending.closes.2.2 rfl).append_inj (paired.close going) rest
      obtain ⟨rest, behind⟩ := later builds' alike' after rest (n + 1)
      exact ⟨rest, Content.forall_elementsFrom_element.mpr ⟨again, below, behind⟩⟩

end WritesBy

/-! ## Documents -/

/-- The content that begins with the raw texts. -/
def Content.after (texts : List Text) (c : Content) : Content := texts.foldr Content.raw c

namespace Content

theorem unspelled_after (texts : List Text) (c : Content) : (after texts c).unspelled = after texts c.unspelled := by
  induction texts with
  | nil => rfl
  | cons t texts ih => exact congrArg (raw t) ih

theorem elementsFrom_after (texts : List Text) (c : Content) (n : Nat) :
    (after texts c).elementsFrom n = c.elementsFrom (n + texts.length) := by
  induction texts generalizing n with
  | nil => rfl
  | cons t texts ih =>
    rw [List.length_cons, Nat.add_comm texts.length 1, ← Nat.add_assoc]
    exact ih (n + 1)

end Content

theorem Builds.after {ps qs : List Piece} {c : Content} (outside : ∀ p ∈ ps, p.isOutside = true) (h : Builds qs c) :
    Builds (ps ++ qs) (.after (ps.map Piece.kept) c) := by
  induction ps with
  | nil => exact h
  | cons p ps ih =>
    obtain ⟨here, outside⟩ := List.forall_mem_cons.mp outside
    exact .raw (Piece.isTag_of_isOutside here) (ih outside)

theorem WritesBy.after {fit : Tag → Prop} {ps qs : List Piece} {c : Content} (stands : ∀ p ∈ ps, p.isOutside = true ∧ p.Stands)
    (h : WritesBy fit qs c) : WritesBy fit (ps ++ qs) (.after (ps.map Piece.source) c) := by
  induction ps with
  | nil => exact h
  | cons p ps ih =>
    obtain ⟨here, stands⟩ := List.forall_mem_cons.mp stands
    exact .raw here.2 (ih stands)

namespace WritesDocumentBy

variable {mark : Text} {ps : List Piece} {d : Document}

/-- If all tags are read again, then so is the document. -/
theorem exists_builds (h : WritesDocumentBy Tag.Paired mark ps d) (again : ∀ entry ∈ d.elements, entry.2.tag.ReadsAgain) :
    (∀ p ∈ ps, p.ReadsBack) ∧ ∃ r, BuildsDocument mark ps r ∧ r.unspelled = d.unspelled := by
  obtain ⟨front, middle, back, rfl, outside, outside', writes, prolog, epilog⟩ := h
  obtain ⟨read, c, builds, same⟩ := writes.exists_builds (n := 0) fun entry member => by
    obtain ⟨path, listed⟩ := Document.exists_mem_elements member
    exact again (path, entry.2) listed
  obtain ⟨tag, content, rfl⟩ : ∃ tag content, c = .element tag content .nil := by
    cases c with
    | nil | raw => cases same
    | element tag content next =>
      cases next with
      | nil => exact ⟨tag, content, rfl⟩
      | raw | element => cases (Content.element.inj same).2.2
  have kept {qs : List Piece} (stand : ∀ q ∈ qs, q.isOutside = true ∧ q.Stands) : qs.map Piece.source = qs.map Piece.kept :=
    List.map_congr_left fun q member => (stand q member).2.kept.symm
  refine ⟨?_, ⟨d.prolog, ⟨tag, content⟩, d.epilog⟩, ⟨front, middle, back, rfl, fun p member => (outside p member).1,
    fun p member => (outside' p member).1, builds, by rw [prolog, kept outside], by rw [epilog, kept outside']⟩, ?_⟩
  · simp only [List.forall_mem_append]
    exact ⟨fun p member => (outside p member).2.back, read, fun p member => (outside' p member).2.back⟩
  · obtain ⟨tags, contents, -⟩ := Content.element.inj same
    simp only [Document.unspelled, Element.unspelled]
    rw [tags, contents]

/-- If an equal document is read from what a document is written in, then all its tags are read again. -/
theorem readsAgain (h : WritesDocumentBy Tag.Paired mark ps d) {qs : List Piece} {r : Document}
    (builds : BuildsDocument mark qs r) (back : ∀ q ∈ qs, q.ReadsBack) (alike : r.unspelled = d.unspelled)
    (same : qs.flatMap Piece.source = ps.flatMap Piece.source) : ∀ entry ∈ d.elements, entry.2.tag.ReadsAgain := by
  obtain ⟨front, middle, behind, rfl, outside, outside', writes, prolog, epilog⟩ := h
  obtain ⟨front', middle', behind', rfl, blank, blank', builds, prolog', epilog'⟩ := builds
  obtain ⟨prologs, roots, epilogs⟩ := Document.mk.inj alike
  obtain ⟨tags, contents⟩ := Element.mk.inj roots
  have before : front'.map Piece.kept = front.map Piece.source :=
    List.append_cancel_left (prolog'.symm.trans (prologs.trans prolog))
  have after : behind'.map Piece.kept = behind.map Piece.source := epilog'.symm.trans (epilogs.trans epilog)
  -- all of the document as one content, for the walk along its pieces
  have whole := (writes.append (WritesBy.after outside' .nil)).after outside
  have whole' := (builds.append (Builds.after blank' .nil)).after blank
  rw [List.append_nil] at whole whole'
  have equal : (Content.after (front'.map Piece.kept) (.element r.root.tag r.root.content (.after (behind'.map Piece.kept) .nil))).unspelled =
      (Content.after (front.map Piece.source) (.element d.root.tag d.root.content (.after (behind.map Piece.source) .nil))).unspelled := by
    simp only [Content.unspelled_after, Content.unspelled]
    rw [before, after, tags, contents]
  obtain ⟨-, again⟩ := whole.readsAgain whole' equal back (u := []) (v := []) (by rw [same]) 0
  rw [Content.elementsFrom_after] at again
  obtain ⟨root, below, -⟩ := Content.forall_elementsFrom_element.mp again
  exact List.forall_mem_cons.mpr ⟨root, below⟩

end WritesDocumentBy

/--
A document that was read is read from its source as an equal document exactly if each of its tags is told
apart again.
-/
theorem source_reads_again_iff {s : Text} {d : Document} (parsed : Document.parse s = .ok d) :
    (∃ r, Document.parse d.source = .ok r ∧ r.unspelled = d.unspelled) ↔
      ∀ entry ∈ d.elements, entry.2.tag.ReadsAgain := by
  obtain ⟨ps, writes, apart⟩ := writesDocumentBy_of_parse parsed fun ps builds back => builds.writesBy back
  obtain ⟨mark, body⟩ := writes.splitMark_source (splitMark_fst s)
  simp only [Document.parse_eq_ok_iff, mark, body]
  constructor
  · rintro ⟨r, ⟨qs, cut, builds⟩, alike⟩
    exact writes.readsAgain builds cut.readsBack alike cut.source.symm
  · intro again
    obtain ⟨back, r, builds, alike⟩ := writes.exists_builds again
    exact ⟨r, ⟨ps, cut_of_readsBack back apart, builds⟩, alike⟩

/-- A document with quotes in names, slashes in names and keys, and a key that begins with an equals sign. -/
def tangled : Document :=
  ⟨[], ⟨⟨"svg".toList, [⟨"a/".toList, "\"".toList, some ⟨"\"".toList, .single⟩⟩,
      ⟨"=b".toList, "&'c'".toList, some ⟨"&amp;'c'".toList, .double⟩⟩], false⟩,
    .element ⟨"g/".toList, [], true⟩ .nil
      (.element ⟨"\"q>\"".toList, [⟨"d".toList, "2".toList, some ⟨"2".toList, .single⟩⟩], false⟩ .nil .nil)⟩, []⟩

theorem source_reads_again_iff_tangled :
    let s := "<svg a/='\"' =b = \"&amp;'c'\"><g/ /><\"q>\" d='2' ></\"q>\" ></svg>".toList
    Document.parse s = .ok tangled ∧ (∀ entry ∈ tangled.elements, entry.2.tag.ReadsAgain) ∧
      ∃ r, Document.parse tangled.source = .ok r ∧ r.unspelled = tangled.unspelled := by
  have parsed : Document.parse "<svg a/='\"' =b = \"&amp;'c'\"><g/ /><\"q>\" d='2' ></\"q>\" ></svg>".toList = .ok tangled := by cbv
  have again : ∀ entry ∈ tangled.elements, entry.2.tag.ReadsAgain := by decide
  exact ⟨parsed, again, (source_reads_again_iff parsed).mpr again⟩

/-- A quote between quotes of the other kind, after a key that begins with an equals sign. -/
def misquoted : Document :=
  ⟨[], ⟨⟨"svg".toList, [⟨"=a".toList, "\"".toList, some ⟨"\"".toList, .double⟩⟩], true⟩, .nil⟩, []⟩

/-- The quotes of such a value are taken for double ones, so that it is not read again. -/
theorem misquoted_is_not_read_again :
    Document.parse "<svg =a='\"'/>".toList = .ok misquoted ∧ ¬ ∃ r, Document.parse misquoted.source = .ok r := by
  refine ⟨by cbv, ?_⟩
  rintro ⟨r, read⟩
  have fault : (Document.parse misquoted.source).isOk = false := by cbv
  rw [read] at fault
  cases fault

/-! ## Tags that were read -/

/-- What holds of each tag that was read holds of each tag of the content. -/
theorem Builds.forall_tag {ps : List Piece} {c : Content} (h : Builds ps c) {P : Tag → Prop} {n : Nat}
    (tags : ∀ inside selfClosing e, (if selfClosing then Piece.emptyTag inside else .startTag inside) ∈ ps →
      Assembly.tagElement inside selfClosing = .ok e → P e.tag) : ∀ entry ∈ c.elementsFrom n, P entry.2.tag := by
  induction h generalizing n with
  | nil => exact fun _ member => absurd member List.not_mem_nil
  | raw _ _ ih => exact ih (n := n + 1) fun inside closing e member => tags inside closing e (List.mem_cons_of_mem _ member)
  | empty tag _ ih =>
    have here : P _ := tags _ true _ List.mem_cons_self tag
    exact Content.forall_elementsFrom_element.mpr ⟨here,
      fun _ member => absurd member List.not_mem_nil, ih fun inside closing e member => tags inside closing e (List.mem_cons_of_mem _ member)⟩
  | element tag _ _ _ within later =>
    have here : P _ := tags _ false _ List.mem_cons_self tag
    refine Content.forall_elementsFrom_element.mpr ⟨here, ?_, ?_⟩
    · exact within fun inside closing e member =>
        tags inside closing e (List.mem_cons_of_mem _ (List.mem_append_left _ member))
    · exact later fun inside closing e member =>
        tags inside closing e (List.mem_cons_of_mem _ (List.mem_append_right _ (List.mem_cons_of_mem _ member)))

end SvgEdit
