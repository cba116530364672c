import SvgEdit.Proofs.PieceSources

/-!
# Tags that were read, written again

A tag that was read may have a name or keys that hold quotes, slashes or equals signs. Written with one
blank before each key, it is read as the same tag exactly if it is told apart again: quotes pair up, no
value holds the mark it stands between, and no slash changes its kind.
-/
namespace SvgEdit

/-! ## Quotes that pair up -/

/-- Read after `quote` was opened, the text leaves no quote open, and each `>` in it stands in quotes. -/
def Closes : (quote : Option Char) → Text → Prop
  | quote, [] => quote = none
  | quote, c :: s => ¬ (quote = none ∧ c = '>') ∧ Closes (quoteAfter quote c) s

instance decidableCloses : (quote : Option Char) → (s : Text) → Decidable (Closes quote s)
  | quote, [] => inferInstanceAs (Decidable (quote = none))
  | quote, c :: s =>
    have := decidableCloses (quoteAfter quote c) s
    inferInstanceAs (Decidable (_ ∧ _))

/-- The inside of a tag is what closes before the first `>` that may end it. -/
theorem cutTag_eq_some_iff {quote : Option Char} {s inside rest : Text} :
    cutTag quote s = some (inside, rest) ↔ s = inside ++ '>' :: rest ∧ Closes quote inside := by
  induction s generalizing quote inside with
  | nil => simp [cutTag]
  | cons c s ih =>
    rw [cutTag]
    by_cases ends : quote = none ∧ c = '>'
    · rw [if_pos ends]
      obtain ⟨rfl, rfl⟩ := ends
      cases inside with
      | nil => simp [Closes, eq_comm]
      | cons d inside =>
        constructor
        · intro found
          cases (Prod.mk.inj (Option.some.inj found)).1
        · rintro ⟨same, going, -⟩
          exact absurd ⟨rfl, (List.cons.inj same).1.symm⟩ going
    · rw [if_neg ends, Option.map_eq_some_iff]
      cases inside with
      | nil =>
        simp only [Closes, List.nil_append, List.cons.injEq]
        constructor
        · rintro ⟨⟨i, r⟩, -, same⟩
          cases same
        · rintro ⟨⟨rfl, -⟩, rfl⟩
          exact absurd ⟨rfl, rfl⟩ ends
      | cons d inside =>
        simp only [Closes, List.cons_append, List.cons.injEq, Prod.exists, Prod.mk.injEq]
        constructor
        · rintro ⟨i, r, inner, ⟨rfl, rfl⟩, rfl⟩
          obtain ⟨same, closes⟩ := ih.mp inner
          exact ⟨⟨rfl, same⟩, ends, closes⟩
        · rintro ⟨⟨rfl, same⟩, -, closes⟩
          exact ⟨inside, rest, ih.mpr ⟨same, closes⟩, ⟨rfl, rfl⟩, rfl⟩

/-- A tag has one end only. -/
theorem Closes.append_inj {inside inside' s s' : Text} (closes : Closes none inside) (closes' : Closes none inside')
    (same : inside ++ '>' :: s = inside' ++ '>' :: s') : inside = inside' ∧ s = s' := by
  have cut : cutTag none (inside ++ '>' :: s) = some (inside, s) := cutTag_eq_some_iff.mpr ⟨rfl, closes⟩
  have cut' : cutTag none (inside ++ '>' :: s) = some (inside', s') := cutTag_eq_some_iff.mpr ⟨same, closes'⟩
  exact Prod.mk.inj (Option.some.inj (cut.symm.trans cut'))

/-- The quote that is open is a mark that was just met, or was open before. -/
theorem quoteAfter_eq_some {quote : Option Char} {c q : Char} (h : quoteAfter quote c = some q) :
    (q = '"' ∨ q = '\'') ∨ quote = some q := by
  cases quote with
  | none =>
    rw [quoteAfter] at h
    split at h
    · next mark => exact .inl (Option.some.inj h ▸ mark)
    · cases h
  | some q' =>
    rw [quoteAfter] at h
    split at h
    · cases h
    · exact .inr h

/-- Blanks do not matter. -/
theorem closes_filter {quote : Option Char} (mark : ∀ q ∈ quote, isSpace q = false) (s : Text) :
    Closes quote (s.filter (!isSpace ·)) ↔ Closes quote s := by
  induction s generalizing quote with
  | nil => rfl
  | cons c s ih =>
    cases space : isSpace c with
    | true =>
      have notGreater : c ≠ '>' := by
        rintro rfl
        cases space
      have same : quoteAfter quote c = quote := by
        cases quote with
        | none =>
          have unmarked : ¬ (c = '"' ∨ c = '\'') := by
            rintro (rfl | rfl) <;> exact absurd space (by decide)
          exact if_neg unmarked
        | some q =>
          have other : c ≠ q := by
            rintro rfl
            rw [mark c rfl] at space
            cases space
          exact if_neg other
      rw [List.filter_cons_of_neg (by simp [space]), Closes, same, ih mark]
      simp [notGreater]
    | false =>
      rw [List.filter_cons_of_pos (by simp [space]), Closes, Closes, ih]
      intro q opened
      rcases quoteAfter_eq_some opened with (rfl | rfl) | before
      · rfl
      · rfl
      · exact mark q before

/-- Texts that differ in blanks only close alike. -/
theorem closes_of_filter_eq {s t : Text} (same : s.filter (!isSpace ·) = t.filter (!isSpace ·)) (h : Closes none s) :
    Closes none t := by
  have unopened : ∀ q ∈ (none : Option Char), isSpace q = false := fun _ mark => nomatch mark
  rw [← closes_filter unopened] at h ⊢
  rwa [← same]

theorem closes_append_slash {s : Text} : Closes none (s ++ ['/']) ↔ Closes none s := by
  suffices general : ∀ quote, (∀ q ∈ quote, q ≠ '/') → (Closes quote (s ++ ['/']) ↔ Closes quote s) from
    general none fun _ mark => nomatch mark
  induction s with
  | nil =>
    intro quote mark
    cases quote with
    | none => simp [Closes, quoteAfter]
    | some q => simp [Closes, quoteAfter, Ne.symm (mark q rfl)]
  | cons c s ih =>
    intro quote mark
    rw [List.cons_append, Closes, Closes, ih]
    intro q opened
    rcases quoteAfter_eq_some opened with (rfl | rfl) | before
    · decide
    · decide
    · exact mark q before

/-! ## Tags that were read -/

/-- A key as it is read: its first character is no blank, and no other one ends it. -/
def IsKey (key : Text) : Prop := ∃ first rest, key = first :: rest ∧ isSpace first = false ∧ ∀ c ∈ rest, endsKey c = false

/-- What holds of every tag that was read. -/
structure Tag.WasRead (t : Tag) : Prop where
  name : ∀ c ∈ t.name, isSpace c = false
  begins : BeginsTag t.inside
  keys : ∀ a ∈ t.attributes, IsKey a.name
  once : (t.attributes.map (·.name)).Nodup
  values : ∀ a ∈ t.attributes, unescape a.written.spelling.raw = .ok a.value

/-- The attribute has the value that is written, in whichever quotes. -/
structure ReadsAs (w : WrittenAttribute) (a : Attribute) : Prop where
  name : a.name = w.key
  raw : a.written.spelling.raw = w.spelling.raw
  value : unescape w.spelling.raw = .ok a.value

theorem readsAs_of_unescapeAll {written : List WrittenAttribute} {marks : List QuoteMark} {as : Attributes}
    (h : unescapeAll written marks = .ok as) : List.Forall₂ ReadsAs written as := by
  induction written generalizing marks as with
  | nil =>
    obtain rfl := Except.ok.inj h
    exact .nil
  | cons w written ih =>
    obtain ⟨value, rest, read, later, rfl⟩ := unescapeAll_cons_eq_ok_iff.mp h
    exact .cons ⟨rfl, rfl, read⟩ (ih later)

/-- Whatever marks are found, the values are those that are written. -/
theorem exists_unescapeAll {written : List WrittenAttribute} {as : Attributes} (reads : List.Forall₂ ReadsAs written as)
    (marks : List QuoteMark) : ∃ as', unescapeAll written marks = .ok as' ∧ Attributes.unspelled as' = as.unspelled := by
  induction reads generalizing marks with
  | nil => exact ⟨[], rfl, rfl⟩
  | @cons w a written as read _ ih =>
    obtain ⟨as', later, same⟩ := ih marks.tail
    refine ⟨_, unescapeAll_cons_eq_ok_iff.mpr ⟨a.value, as', read.value, later, rfl⟩, ?_⟩
    rw [Attributes.unspelled, List.map_cons, ← Attributes.unspelled, same, Attributes.unspelled, Attributes.unspelled,
      List.map_cons]
    simp [Attribute.unspelled, read.name]

theorem values_of_readsAs {written : List WrittenAttribute} {as : Attributes} (reads : List.Forall₂ ReadsAs written as) :
    ∀ a ∈ as, unescape a.written.spelling.raw = .ok a.value := by
  induction reads with
  | nil => exact fun _ member => absurd member List.not_mem_nil
  | cons read _ ih => exact List.forall_mem_cons.mpr ⟨by rw [read.raw, read.value], ih⟩

theorem isKey_of_splits {seen : List Text} {s : Text} {written : List WrittenAttribute} (splits : Splits seen s written) :
    ∀ w ∈ written, IsKey w.key := by
  induction splits with
  | done => exact fun _ member => absurd member List.not_mem_nil
  | @assign _ _ _ key _ _ first _ _ _ begins _ assigns _ ih =>
    exact List.forall_mem_cons.mpr ⟨⟨first, key, rfl, begins, assigns.key⟩, ih⟩

theorem tagName_append_tagAttributes (inside : Text) : tagName inside ++ tagAttributes inside = inside :=
  List.takeWhile_append_dropWhile

theorem wasRead_of_tagElement {inside : Text} {selfClosing : Bool} {e : Element}
    (tag : Assembly.tagElement inside selfClosing = .ok e) (begins : BeginsTag inside) : e.tag.WasRead := by
  obtain ⟨as, read, rfl⟩ := Assembly.tagElement_eq_ok_iff.mp tag
  obtain ⟨written, splits, values⟩ := readAttributes_eq_ok_iff.mp read
  have reads := readsAs_of_unescapeAll values
  have names : as.map (·.name) = written.map (·.key) := names_of_unescapeAll values
  refine ⟨fun c member => ?_, fun c head => ?_, fun a member => ?_, ?_, values_of_readsAs reads⟩
  · simpa using List.mem_takeWhile_imp member
  · cases same : tagName inside with
    | nil =>
      cases as with
      | nil =>
        rw [Tag.inside, same] at head
        cases head
      | cons a as =>
        rw [Tag.inside, same, Attributes.source_cons, a.source_eq] at head
        obtain rfl := Option.some.inj head
        decide
    | cons d name =>
      rw [Tag.inside, same] at head
      exact begins c (by rw [← tagName_append_tagAttributes inside, same]; exact head)
  · have listed : a.name ∈ written.map (·.key) := names ▸ List.mem_map_of_mem member
    obtain ⟨w, listed, same⟩ := List.mem_map.mp listed
    exact same ▸ isKey_of_splits splits w listed
  · change (as.map (·.name)).Nodup
    rw [names]
    simpa using splits.once List.nodup_nil

/-! ## Reading a tag again -/

/-- The end of the tag tells its kind. -/
structure Tag.KeepsKind (t : Tag) : Prop where
  /-- No slash at the end of a start tag makes it an empty one. -/
  going : t.selfClosing = false → t.inside.getLast? ≠ some '/'
  /-- The slash of an empty tag is not that of an end tag. -/
  named : t.selfClosing = true → t.inside ≠ []

/-- What makes a tag be read from what is written for it. -/
structure Tag.ReadsAgain (t : Tag) : Prop where
  /-- No value holds the mark it stands between. -/
  values : ∀ a ∈ t.attributes, a.written.spelling.quote.char ∉ a.written.spelling.raw
  closes : Closes none t.inside
  kind : t.KeepsKind

instance Tag.decidableKeepsKind (t : Tag) : Decidable t.KeepsKind :=
  decidable_of_iff ((t.selfClosing = false → t.inside.getLast? ≠ some '/') ∧ (t.selfClosing = true → t.inside ≠ []))
    ⟨fun ⟨going, named⟩ => ⟨going, named⟩, fun h => ⟨h.going, h.named⟩⟩

instance Tag.decidableReadsAgain (t : Tag) : Decidable t.ReadsAgain :=
  decidable_of_iff ((∀ a ∈ t.attributes, a.written.spelling.quote.char ∉ a.written.spelling.raw) ∧
    Closes none t.inside ∧ t.KeepsKind) ⟨fun ⟨values, closes, kind⟩ => ⟨values, closes, kind⟩,
      fun h => ⟨h.values, h.closes, h.kind⟩⟩

/-- The piece that is written where the tag opens. -/
def Tag.opening (t : Tag) : Piece := if t.selfClosing then .emptyTag t.inside else .startTag t.inside

namespace Tag.WasRead

variable {t : Tag}

theorem head?_source (t : Tag) : ∀ c ∈ t.attributes.source.head?, c = ' ' := by
  intro c head
  cases same : t.attributes with
  | nil =>
    rw [same] at head
    cases head
  | cons a as =>
    rw [same, Attributes.source_cons, a.source_eq] at head
    exact (Option.some.inj head).symm

theorem tagName_inside (h : t.WasRead) : tagName t.inside = t.name := by
  refine Text.takeWhile_append_of_stop (fun c member => by rw [h.name c member]; rfl) fun c head => ?_
  rw [head?_source t c head]
  rfl

theorem tagAttributes_inside (h : t.WasRead) : tagAttributes t.inside = t.attributes.source := by
  refine Text.dropWhile_append_of_stop (fun c member => by rw [h.name c member]; rfl) fun c head => ?_
  rw [head?_source t c head]
  rfl

end Tag.WasRead

/-- Attributes as they are written are split again, if no value holds the mark it stands between. -/
theorem splits_source {seen : List Text} {as : Attributes} (keys : ∀ a ∈ as, IsKey a.name)
    (once : (seen ++ as.map (·.name)).Nodup) (values : ∀ a ∈ as, a.written.spelling.quote.char ∉ a.written.spelling.raw) :
    Splits seen as.source (as.map Attribute.written) := by
  induction as generalizing seen with
  | nil => exact .done fun _ member => absurd member List.not_mem_nil
  | cons a as ih =>
    obtain ⟨keyed, keys⟩ := List.forall_mem_cons.mp keys
    obtain ⟨value, values⟩ := List.forall_mem_cons.mp values
    obtain ⟨first, rest, name, begins, inKey⟩ := keyed
    have none : Spaces [] := fun _ member => absurd member List.not_mem_nil
    have one : Spaces [' '] := by unfold Spaces; decide
    rw [List.map_cons, List.append_cons] at once
    have later := ih keys once values
    have new : first :: rest ∉ seen := fun member =>
      (List.nodup_append.mp (List.nodup_append.mp once).1).2.2 _ member _ (List.mem_singleton_self _) name.symm
    rw [name] at later
    have source : Attributes.source (a :: as) = [' '] ++ first :: (rest ++ [] ++ '=' ::
        ([] ++ a.written.spelling.quote.char :: (a.written.spelling.raw ++ a.written.spelling.quote.char :: Attributes.source as))) := by
      rw [Attributes.source_cons, a.source_eq, name]
      simp
    have written : a.written = ⟨first :: rest, a.written.spelling⟩ := by rw [← name]; rfl
    rw [source, List.map_cons, written]
    exact .assign one begins new ⟨⟨[], [], rfl, none, none⟩, inKey, value⟩ later

namespace Tag.ReadsAgain

variable {t : Tag}

/-- The tag is read with the same names and values, and as the same kind of tag. -/
theorem exists_tagElement (again : t.ReadsAgain) (h : t.WasRead) :
    ∃ as, Assembly.tagElement t.inside t.selfClosing = .ok ⟨⟨t.name, as, t.selfClosing⟩, .nil⟩ ∧
      Attributes.unspelled as = t.attributes.unspelled := by
  have splits : Splits [] (tagAttributes t.inside) (t.attributes.map Attribute.written) := by
    rw [h.tagAttributes_inside]
    exact splits_source h.keys (by simpa using h.once) again.values
  have reads : List.Forall₂ ReadsAs (t.attributes.map Attribute.written) t.attributes := by
    rw [List.forall₂_map_left_iff, List.forall₂_same]
    exact fun a member => ⟨rfl, rfl, h.values a member⟩
  obtain ⟨as, values, same⟩ := exists_unescapeAll reads (quoteMarks (tagAttributes t.inside))
  refine ⟨as, Assembly.tagElement_eq_ok_iff.mpr ⟨as, readAttributes_eq_ok_iff.mpr ⟨_, splits, values⟩, ?_⟩, same⟩
  rw [h.tagName_inside]

theorem readsBack_opening (again : t.ReadsAgain) (h : t.WasRead) : t.opening.ReadsBack := by
  unfold opening
  cases kind : t.selfClosing with
  | true =>
    refine ⟨'<', _, rfl, fun rest _ => ?_⟩
    have cut : cutTag none (t.inside ++ '/' :: '>' :: rest) = some (t.inside ++ ['/'], rest) :=
      cutTag_eq_some_iff.mpr ⟨by simp, closes_append_slash.mpr again.closes⟩
    simpa using read_emptyTag (again.kind.named kind) h.begins cut
  | false =>
    refine ⟨'<', _, rfl, fun rest _ => ?_⟩
    have cut : cutTag none (t.inside ++ '>' :: rest) = some (t.inside, rest) := cutTag_eq_some_iff.mpr ⟨rfl, again.closes⟩
    simpa using read_startTag h.begins (again.kind.going kind) cut

end Tag.ReadsAgain

/-! ## What reading a tag again tells -/

namespace Piece

/-- What is read as a tag closes, and its end is that of its kind. -/
theorem ReadsBack.closes {p : Piece} (h : p.ReadsBack) {inside : Text} :
    (p = .startTag inside → Closes none inside ∧ inside.getLast? ≠ some '/') ∧
      (p = .emptyTag inside → Closes none inside ∧ inside ≠ []) ∧ (p = .endTag inside → Closes none inside) := by
  obtain ⟨c, s, source, read⟩ := h
  by_cases tag : p.isTag = true
  · have less : c = '<' := by
      cases p <;> first | exact (List.cons.inj source).1.symm | cases tag
    subst less
    have run : p.isRun = true → EndsRuns [] := fun _ _ head => nomatch head
    rcases read_less_cases (read [] run) with ⟨t, same, declaration⟩ | ⟨t, same, instruction⟩ | ⟨-, tag'⟩
    · obtain ⟨-, -, -, other, -⟩ := readDeclaration_append declaration
      rw [other] at tag
      cases tag
    · obtain ⟨-, -, -, other, -⟩ := readInstruction_append instruction
      rw [other] at tag
      cases tag
    · rcases readTag_cases tag' with ⟨inside', rfl, tail, -, cut⟩ | ⟨inside', rfl, nonempty, -, cut⟩ |
        ⟨inside', rfl, last, -, cut⟩
      · refine ⟨(nomatch ·), (nomatch ·), fun same => ?_⟩
        exact Piece.endTag.inj same ▸ (cutTag_eq_some_iff.mp cut).2
      · refine ⟨(nomatch ·), fun same => ?_, (nomatch ·)⟩
        exact Piece.emptyTag.inj same ▸ ⟨closes_append_slash.mp (cutTag_eq_some_iff.mp cut).2, nonempty⟩
      · refine ⟨fun same => ?_, (nomatch ·), (nomatch ·)⟩
        exact Piece.startTag.inj same ▸ ⟨(cutTag_eq_some_iff.mp cut).2, last⟩
  · refine ⟨?_, ?_, ?_⟩ <;> (rintro rfl; exact absurd rfl tag)

end Piece

/-- A value that is read goes on to be read where more follows. -/
theorem unescapeFrom_append {position : Nat} {pending : Option (Nat × Text)} {s value : Text}
    (read : unescapeFrom position pending s = .ok value) (more : Text) :
    ∃ later, unescapeFrom position pending (s ++ more) = (unescapeFrom later none more).map (value ++ ·) := by
  induction s generalizing position pending value with
  | nil =>
    cases pending with
    | none =>
      obtain rfl := Except.ok.inj read
      refine ⟨position, ?_⟩
      rw [List.nil_append]
      cases unescapeFrom position none more <;> rfl
    | some start => cases read
  | cons c s ih =>
    have longer {later : Nat} {d : Char} {value : Text} :
        ((unescapeFrom later none more).map (value ++ ·)).map (d :: ·) = (unescapeFrom later none more).map (d :: value ++ ·) := by
      cases unescapeFrom later none more <;> rfl
    rw [List.cons_append]
    cases pending with
    | none =>
      rw [unescapeFrom] at read ⊢
      split at read
      · next ampersand =>
        simp only [ampersand, if_true]
        exact ih read
      · next other =>
        obtain ⟨value, inner, rfl⟩ := map_eq_ok_iff.mp read
        obtain ⟨later, whole⟩ := ih inner
        exact ⟨later, by rw [if_neg other, whole, longer]⟩
    | some start =>
      obtain ⟨start, body⟩ := start
      rw [unescapeFrom] at read ⊢
      split at read
      · next ends =>
        split at read
        · next d character =>
          obtain ⟨value, inner, rfl⟩ := map_eq_ok_iff.mp read
          obtain ⟨later, whole⟩ := ih inner
          exact ⟨later, by rw [if_pos ends]; simp only [whole, longer]⟩
        · cases read
      · next going =>
        split at read
        · cases read
        · next other =>
          rw [if_neg going, if_neg other]
          exact ih read

/-- A value does not stay the same if a mark and more are added to it. -/
theorem unescape_append_ne {raw value more : Text} {quote : QuoteMark} (read : unescape raw = .ok value) :
    unescape (raw ++ quote.char :: more) ≠ .ok value := by
  intro same
  obtain ⟨later, whole⟩ := unescapeFrom_append read (quote.char :: more)
  have ampersand : quote.char ≠ '&' := by cases quote <;> decide
  rw [unescape, whole, unescapeFrom] at same
  simp only [ampersand, if_false] at same
  obtain ⟨longer, inner, equal⟩ := map_eq_ok_iff.mp same
  obtain ⟨rest, -, rfl⟩ := map_eq_ok_iff.mp inner
  have lengths := congrArg List.length equal
  simp at lengths

/-- Of two values that are read as the same one, none goes on beyond a mark that closes the other. -/
theorem unescape_append_inj {raw raw' value s s' : Text} {quote : QuoteMark} (closed : quote.char ∉ raw)
    (read : unescape raw = .ok value) (read' : unescape raw' = .ok value)
    (same : raw ++ quote.char :: s = raw' ++ quote.char :: s') : raw = raw' := by
  rcases List.append_eq_append_iff.mp same with ⟨more, longer, back⟩ | ⟨more, longer, back⟩
  · cases more with
    | nil => simpa using longer.symm
    | cons c more =>
      obtain ⟨rfl, -⟩ := List.cons.inj back
      exact absurd (longer ▸ read') (unescape_append_ne read)
  · cases more with
    | nil => simpa using longer
    | cons c more =>
      obtain ⟨rfl, -⟩ := List.cons.inj back
      exact absurd (by simp [longer]) closed

/-- An attribute that is read with the same name and value from where one is written is what was written. -/
theorem Assigns.eq_source {before s key raw rest : Text} {first : Char} {quote : QuoteMark} {a : Attribute}
    (assigns : Assigns s key raw quote rest) (blank : Spaces before) (begins : isSpace first = false)
    (name : a.name = first :: key) (read : unescape raw = .ok a.value)
    (written : unescape a.written.spelling.raw = .ok a.value) {u v : Text}
    (same : before ++ first :: s ++ u = a.source ++ v) :
    before ++ first :: s = a.source ++ rest ∧ rest ++ u = v ∧
      a.written.spelling.quote.char ∉ a.written.spelling.raw := by
  obtain ⟨⟨between, after, rfl, blank', blank''⟩, -, closed⟩ := assigns
  rw [a.source_eq, name] at same ⊢
  have one : Spaces [' '] := by unfold Spaces; decide
  have none : Spaces [] := fun _ member => absurd member List.not_mem_nil
  have same : before ++ first :: (key ++ (between ++ '=' :: (after ++ quote.char :: (raw ++ quote.char :: (rest ++ u))))) =
      [' '] ++ first :: (key ++ '=' :: a.written.spelling.quote.char ::
        (a.written.spelling.raw ++ a.written.spelling.quote.char :: v)) := by simpa using same
  obtain ⟨rfl, -, same⟩ := spaces_append_inj blank one begins begins same
  obtain ⟨rfl, -, same⟩ := spaces_append_inj blank' none rfl rfl (List.append_cancel_left same)
  obtain ⟨rfl, mark, same⟩ := spaces_append_inj blank'' none (isSpace_char _) (isSpace_char _) same
  have quotes : a.written.spelling.quote = quote := by
    revert mark
    cases a.written.spelling.quote <;> cases quote <;> decide
  rw [quotes] at same ⊢
  obtain rfl := unescape_append_inj closed read written same
  exact ⟨by simp, (List.cons.inj (List.append_cancel_left same)).2, closed⟩

/-- Attributes that are read with the same names and values from where they are written are what was written. -/
theorem Splits.eq_source {seen : List Text} {s : Text} {written : List WrittenAttribute} (splits : Splits seen s written)
    {as as' : Attributes} (reads : List.Forall₂ ReadsAs written as') (alike : Attributes.unspelled as' = as.unspelled)
    (keys : ∀ a ∈ as, IsKey a.name) (values : ∀ a ∈ as, unescape a.written.spelling.raw = .ok a.value) {u v : Text}
    (same : s ++ u = as.source ++ v) (stop : ∀ c ∈ v.head?, isSpace c = false) (stop' : v ≠ []) :
    s = as.source ∧ ∀ a ∈ as, a.written.spelling.quote.char ∉ a.written.spelling.raw := by
  induction splits generalizing as as' with
  | @done _ s blank =>
    cases reads
    obtain rfl : as = [] := by simpa [Attributes.unspelled] using alike
    refine ⟨?_, fun _ member => absurd member List.not_mem_nil⟩
    cases s with
    | nil => rfl
    | cons c s =>
      obtain ⟨d, v, rfl⟩ := List.exists_cons_of_ne_nil stop'
      obtain ⟨rfl, -⟩ := List.cons.inj same
      have first := stop c rfl
      rw [blank c List.mem_cons_self] at first
      cases first
  | @assign _ before s key raw rest first quote written blank begins new assigns splits ih =>
    cases reads with
    | @cons _ a' _ as' read reads =>
      cases as with
      | nil => simp [Attributes.unspelled] at alike
      | cons a as =>
        simp only [Attributes.unspelled, List.map_cons, List.cons.injEq] at alike
        obtain ⟨here, alike⟩ := alike
        have name : a.name = first :: key := (congrArg Attribute.name here).symm.trans read.name
        have value : a'.unspelled.value = a.unspelled.value := congrArg Attribute.value here
        have read' : unescape raw = .ok a.value := read.value.trans (congrArg Except.ok value)
        obtain ⟨-, keys⟩ := List.forall_mem_cons.mp keys
        obtain ⟨written', values⟩ := List.forall_mem_cons.mp values
        rw [Attributes.source_cons, List.append_assoc a.source] at same
        obtain ⟨source, rest', closed⟩ := assigns.eq_source blank begins name read' written' same
        obtain ⟨rfl, later⟩ := ih reads alike keys values rest'
        exact ⟨by rw [source, Attributes.source_cons], List.forall_mem_cons.mpr ⟨closed, later⟩⟩

/-- A tag that is read with the same names and values from where a tag is written is what was written there. -/
theorem Tag.WasRead.readsAgain {t : Tag} (h : t.WasRead) {inside : Text} {e : Element}
    (tag : Assembly.tagElement inside t.selfClosing = .ok e) (name : e.tag.name = t.name)
    (alike : e.tag.attributes.unspelled = t.attributes.unspelled)
    (back : (if t.selfClosing then Piece.emptyTag inside else .startTag inside).ReadsBack) {u v : Text} {c : Char}
    (same : inside ++ u = t.inside ++ c :: v) (stop : isSpace c = false) : inside = t.inside ∧ t.ReadsAgain := by
  obtain ⟨as, read, rfl⟩ := Assembly.tagElement_eq_ok_iff.mp tag
  obtain ⟨written, splits, unescaped⟩ := readAttributes_eq_ok_iff.mp read
  have whole := tagName_append_tagAttributes inside
  rw [show tagName inside = t.name from name] at whole
  have after : tagAttributes inside ++ u = t.attributes.source ++ c :: v := by
    rw [← whole, Tag.inside, List.append_assoc, List.append_assoc] at same
    exact List.append_cancel_left same
  obtain ⟨attributes, values⟩ := splits.eq_source (readsAs_of_unescapeAll unescaped) alike h.keys h.values after
    (fun d head => Option.some.inj head ▸ stop) (List.cons_ne_nil _ _)
  have inside_eq : inside = t.inside := by rw [← whole, attributes, Tag.inside]
  subst inside_eq
  refine ⟨rfl, ?_⟩
  cases kind : t.selfClosing with
  | true =>
    rw [kind, if_pos rfl] at back
    obtain ⟨closes, nonempty⟩ := back.closes.2.1 rfl
    exact ⟨values, closes, fun going => absurd (kind.symm.trans going) (by decide), fun _ => nonempty⟩
  | false =>
    rw [kind, if_neg (by decide)] at back
    obtain ⟨closes, last⟩ := back.closes.1 rfl
    exact ⟨values, closes, fun _ => last, fun closing => absurd (kind.symm.trans closing) (by decide)⟩

end SvgEdit
