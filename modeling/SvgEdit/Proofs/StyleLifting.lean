import SvgEdit.Proofs.FoundStyles
import SvgEdit.Proofs.NamesBeforeEquals
import SvgEdit.Proofs.Splitting

/-!
# Styles taken apart

In a stylable tag the style that is found is the value of its style attribute, and what is written
instead is a tag that can be read: no key stands twice, since the names of the other attributes are
among those that are not lifted.
-/
namespace SvgEdit

namespace Shrink

/-! ## Declarations -/

/-- A declaration consists of characters of the style. -/
theorem mem_of_mem_declarations {style : Text} {d : Declaration} (listed : d ∈ declarations style) :
    (∀ c ∈ d.property, c ∈ style) ∧ ∀ c ∈ d.value, c ∈ style := by
  obtain ⟨part, split, found⟩ := List.mem_filterMap.mp listed
  obtain ⟨⟨property, value⟩, cut, rfl⟩ := Option.map_eq_some_iff.mp found
  have whole := Text.eq_append_of_cut? cut
  have within := Text.mem_of_mem_splitOn split
  constructor
  · intro c member
    refine within c ?_
    rw [whole]
    exact List.mem_append_left _ (List.mem_append_left _ (Text.mem_of_mem_trim member))
  · intro c member
    refine within c ?_
    rw [whole]
    exact List.mem_append_right _ (Text.mem_of_mem_trim member)

/-! ## What is written -/

/-- A declaration as an attribute after one blank. -/
def liftedAttribute (d : Declaration) : SpelledAttribute := ⟨[' '], d.property, [], [], .double, d.value⟩

/-- What is left of the style, if anything. -/
def keptStyle (ds : List Declaration) : List SpelledAttribute :=
  if ds = [] then [] else [⟨[' '], styleKey, [], [], .double, Text.joinWith [';', ' '] (ds.map Declaration.text)⟩]

theorem source_lifted {ds : List Declaration} (nonempty : ds ≠ []) :
    ' ' :: Text.joinWith [' '] (ds.map Declaration.attribute) =
      (ds.map liftedAttribute).flatMap SpelledAttribute.source := by
  have single (d : Declaration) : (liftedAttribute d).source = ' ' :: d.attribute := by
    simp [liftedAttribute, SpelledAttribute.source, Declaration.attribute, QuoteMark.char]
  induction ds with
  | nil => exact absurd rfl nonempty
  | cons d ds ih =>
    cases ds with
    | nil => simp [Text.joinWith, single]
    | cons e ds =>
      have later := ih (List.cons_ne_nil e ds)
      have parts : (d :: e :: ds).map liftedAttribute = liftedAttribute d :: (e :: ds).map liftedAttribute := rfl
      rw [parts, List.flatMap_cons, ← later, single]
      simp [Text.joinWith, List.intercalate_cons_cons]

theorem source_keptStyle (ds : List Declaration) : (keptStyle ds).flatMap SpelledAttribute.source =
    if ds = [] then [] else
      ' ' :: (styleStart ++ '"' :: (Text.joinWith [';', ' '] (ds.map Declaration.text) ++ ['"'])) := by
  unfold keptStyle
  split
  · rfl
  · simp [SpelledAttribute.source, styleStart_eq, QuoteMark.char]

/-- What stands for a style among the given names: what is lifted out of it, then what is left of it. -/
def partsOfStyle (existing : List Text) (style : Text) : List SpelledAttribute :=
  ((declarations style).filter (isLiftable existing)).map liftedAttribute ++
    keptStyle ((declarations style).filter fun d => !isLiftable existing d)

/-- The parts are attributes after one blank, with characters of the style and what joins them in their values. -/
theorem mem_partsOfStyle {existing : List Text} {style : Text} {b : SpelledAttribute}
    (listed : b ∈ partsOfStyle existing style) : b = ⟨[' '], b.key, [], [], .double, b.raw⟩ ∧
      (b.key ∈ presentationProperties ∨ b.key = styleKey) ∧ ∀ c ∈ b.raw, c ∈ style ∨ c ∈ [';', ' ', ':'] := by
  rcases List.mem_append.mp listed with lifted | kept
  · obtain ⟨d, chosen, rfl⟩ := List.mem_map.mp lifted
    obtain ⟨declared, liftable⟩ := List.mem_filter.mp chosen
    rw [isLiftable, Bool.and_eq_true, List.contains_iff_mem] at liftable
    exact ⟨rfl, .inl liftable.1, fun c inside => .inl ((mem_of_mem_declarations declared).2 c inside)⟩
  · rw [keptStyle] at kept
    split at kept
    · exact absurd kept List.not_mem_nil
    obtain rfl := List.mem_singleton.mp kept
    refine ⟨rfl, .inr rfl, fun c inside => ?_⟩
    have joins : ∀ c ∈ [';', ' '], c ∈ [';', ' ', ':'] := by decide
    rcases Text.mem_of_mem_joinWith inside with between | ⟨part, parts, inside⟩
    · exact .inr (joins c between)
    obtain ⟨d, chosen, rfl⟩ := List.mem_map.mp parts
    obtain ⟨property, value⟩ := mem_of_mem_declarations (List.mem_filter.mp chosen).1
    rw [Declaration.text] at inside
    rcases List.mem_append.mp inside with inside | inside
    · exact .inl (property c inside)
    · rcases List.mem_cons.mp inside with rfl | inside
      · exact .inr (by decide)
      · exact .inl (value c inside)

/-- Something is lifted out of the style. -/
def Lifts (existing : List Text) (style : Text) : Prop :=
  isComputed style = false ∧ (declarations style).filter (isLiftable existing) ≠ []

/-- A tag with what is lifted out of its style: the attributes around the style stay. -/
theorem liftStyle?_of_lifts {name before style after : Text}
    (lifts : Lifts (namesBeforeEquals before ++ namesBeforeEquals after) style) : liftStyle? name before style after =
      some (name ++ before ++
        (partsOfStyle (namesBeforeEquals before ++ namesBeforeEquals after) style).flatMap SpelledAttribute.source ++
          after ++ ['>']) := by
  obtain ⟨plain, some⟩ := lifts
  rw [liftStyle?, if_neg (by simp [plain]), if_neg some, partsOfStyle, List.flatMap_append, ← source_lifted some,
    source_keptStyle]
  simp

theorem liftStyle?_of_not_lifts {name before style after : Text}
    (idle : ¬ Lifts (namesBeforeEquals before ++ namesBeforeEquals after) style) :
    liftStyle? name before style after = none := by
  rw [liftStyle?]
  split
  · rfl
  · next plain => exact if_pos (by_contra fun some => idle ⟨by simpa using plain, some⟩)

end Shrink

/-! ## A tag that can be read -/

theorem plain_of_mem_presentationProperties : ∀ name ∈ Shrink.presentationProperties, Plain name := by decide

theorem plain_styleKey : Plain styleKey := by decide

theorem steady_of_mem_presentationProperties {name : Text} (listed : name ∈ Shrink.presentationProperties) :
    Steady name := by
  have all : ∀ name ∈ Shrink.presentationProperties, (∀ c ∈ name, Text.isBlank c = false) ∧ '.' ∉ name := by decide
  exact steady_of_chars (all name listed).1 (all name listed).2

theorem isNamePart_of_mem_presentationProperties : ∀ name ∈ Shrink.presentationProperties, ∀ c ∈ name,
    Shrink.isNamePart c = true ∧ Text.isBlank c = false := by decide

namespace SpelledTag

/-- The tag with attributes in the place of its style. -/
def withStyle (t : SpelledTag) (front lifted back : List SpelledAttribute) : SpelledTag :=
  { t with attributes := front ++ (lifted ++ back) }

/-- An attribute after one blank, in double quotes. -/
theorem proper_attribute {key value : Text} (plain : Plain key) (steady : Steady key) (noQuote : '"' ∉ value)
    (noReference : '&' ∉ value) : SpelledAttribute.Proper ⟨[' '], key, [], [], .double, value⟩ ∧ Steady key ∧
      References value := by
  have blank : Spaces [' '] := fun c member => List.mem_singleton.mp member ▸ rfl
  have empty : Spaces [] := fun _ member => absurd member List.not_mem_nil
  exact ⟨⟨List.cons_ne_nil _ _, blank, plain, empty, empty, noQuote⟩, steady, references_of_free noReference⟩

/-- What is written for declarations whose characters are plain can be read. -/
theorem proper_lifted {style : Text} (free : Free ['"', '\'', '&'] style) (existing : List Text) :
    ∀ b ∈ Shrink.partsOfStyle existing style, b.Proper ∧ Steady b.key ∧ References b.raw := by
  intro b member
  obtain ⟨same, key, raw⟩ := Shrink.mem_partsOfStyle member
  have value : Free ['"', '\'', '&'] b.raw := by
    intro c inside
    have between : ∀ c ∈ [';', ' ', ':'], c ∉ ['"', '\'', '&'] := by decide
    exact (raw c inside).elim (free c) (between c)
  have named : Plain b.key ∧ Steady b.key := by
    rcases key with presented | style
    · exact ⟨plain_of_mem_presentationProperties _ presented, steady_of_mem_presentationProperties presented⟩
    · rw [style]
      exact ⟨plain_styleKey, steady_of_chars (by decide) (by decide)⟩
  rw [same]
  exact proper_attribute named.1 named.2 (value.not_mem (by decide)) (value.not_mem (by decide))

variable {t : SpelledTag} {front back : List SpelledAttribute} {a : SpelledAttribute}

theorem mem_withStyle {b : SpelledAttribute} (attributes : t.attributes = front ++ a :: back) {lifted : List SpelledAttribute}
    (listed : b ∈ (t.withStyle front lifted back).attributes) : b ∈ t.attributes ∨ b ∈ lifted := by
  simp only [withStyle, List.mem_append] at listed
  rw [attributes]
  rcases listed with inFront | new | inBack
  · exact .inl (List.mem_append_left _ inFront)
  · exact .inr new
  · exact .inl (List.mem_append_right _ (List.mem_cons_of_mem a inBack))

/-- What can be lifted is new in the tag, if the names that count are those of its attributes. -/
theorem not_mem_keys_of_isLiftable (attributes : t.attributes = front ++ a :: back) (key : a.key = styleKey)
    {existing : List Text} (known : ∀ b ∈ front ++ back, b.key ∈ Shrink.presentationProperties → b.key ∈ existing)
    {d : Shrink.Declaration} (liftable : Shrink.isLiftable existing d = true) : d.property ∉ t.keys := by
  rw [Shrink.isLiftable, Bool.and_eq_true, List.contains_iff_mem, Bool.not_eq_true', ← Bool.not_eq_true,
    List.contains_iff_mem] at liftable
  have style : styleKey ∉ Shrink.presentationProperties := by decide
  have fresh (b : SpelledAttribute) (member : b ∈ front ++ back) : b.key ≠ d.property := fun same =>
    liftable.2 (same ▸ known b member (same ▸ liftable.1))
  intro member
  obtain ⟨b, listed, same⟩ := List.mem_map.mp member
  rw [attributes] at listed
  rcases List.mem_append.mp listed with inFront | listed
  · exact fresh b (List.mem_append_left back inFront) same
  · rcases List.mem_cons.mp listed with rfl | inBack
    · exact style (key ▸ same ▸ liftable.1)
    · exact fresh b (List.mem_append_right front inBack) same

/-- No key stands twice in the tag that is written, if no property that is lifted is declared twice. -/
theorem nodup_keys_withStyle_iff (attributes : t.attributes = front ++ a :: back) (key : a.key = styleKey)
    (once : t.keys.Nodup) {lifted kept : List Shrink.Declaration} (fresh : ∀ d ∈ lifted, d.property ∉ t.keys) :
    (t.withStyle front (lifted.map Shrink.liftedAttribute ++ Shrink.keptStyle kept) back).keys.Nodup ↔
      (lifted.map Shrink.Declaration.property).Nodup := by
  have keptKeys : ((Shrink.keptStyle kept).map SpelledAttribute.key).Sublist [styleKey] := by
    rw [Shrink.keptStyle]
    split
    · exact List.nil_sublist _
    · exact List.Sublist.refl _
  have names : (lifted.map Shrink.liftedAttribute).map SpelledAttribute.key = lifted.map Shrink.Declaration.property := by
    rw [List.map_map]
    rfl
  rw [SpelledTag.keys, attributes, List.map_append, List.map_cons, key] at once
  have others : (front.map SpelledAttribute.key ++ ((Shrink.keptStyle kept).map SpelledAttribute.key ++
      back.map SpelledAttribute.key)).Sublist (front.map SpelledAttribute.key ++ styleKey :: back.map SpelledAttribute.key) :=
    (keptKeys.append_right _).append_left _
  -- the lifted names in front of all others
  have order : ∀ F L S B : List Text, (F ++ ((L ++ S) ++ B)).Perm (L ++ (F ++ (S ++ B))) := by
    intro F L S B
    rw [List.append_assoc]
    exact (List.perm_append_comm_assoc F L (S ++ B))
  rw [SpelledTag.keys, withStyle, List.map_append, List.map_append, List.map_append, names, (order _ _ _ _).nodup_iff]
  refine ⟨fun all => (List.nodup_append.mp all).1, fun lifts => List.nodup_append.mpr ⟨lifts, once.sublist others, ?_⟩⟩
  rintro x left y right rfl
  obtain ⟨d, chosen, rfl⟩ := List.mem_map.mp left
  refine fresh d chosen ?_
  have inside := others.subset right
  rwa [SpelledTag.keys, attributes, List.map_append, List.map_cons, key]

theorem fit_lifted (ready : t.Ready True) (attributes : t.attributes = front ++ a :: back) (key : a.key = styleKey)
    (existing : List Text)
    (known : ∀ b ∈ front ++ back, b.key ∈ Shrink.presentationProperties → b.key ∈ existing) :
    (t.withStyle front (Shrink.partsOfStyle existing a.raw) back).Fit := by
  have listed : a ∈ t.attributes := by simp [attributes]
  have stylable := ready.stylable trivial
  have fit := ready.fit
  have all : ∀ b ∈ (t.withStyle front (Shrink.partsOfStyle existing a.raw) back).attributes,
      b.Proper ∧ Steady b.key ∧ References b.raw := by
    intro b member
    rcases mem_withStyle attributes member with old | new
    · exact ⟨fit.proper.attributes b old, fit.keys b old, fit.readable.references b old⟩
    · exact proper_lifted (stylable.plain a listed key) existing b new
  refine ⟨⟨fit.proper.name, fit.proper.begins, fun b member => (all b member).1, fit.proper.blanks⟩, fit.name,
    fun b member => (all b member).2.1, ⟨?_, fun b member => (all b member).2.2⟩⟩
  refine (nodup_keys_withStyle_iff attributes key fit.readable.once fun d chosen =>
    not_mem_keys_of_isLiftable attributes key known (List.mem_filter.mp chosen).2).mpr ?_
  refine (stylable.once a listed key).sublist ((List.monotone_filter_right _ fun d liftable => ?_).map _)
  rw [Shrink.isLiftable, Bool.and_eq_true] at liftable
  exact liftable.1

/-- All that goes is the style, and no key that is new has a colon. -/
theorem keeps_lifted (attributes : t.attributes = front ++ a :: back) (key : a.key = styleKey) (existing : List Text) :
    t.Keeps (·.key = styleKey) (t.withStyle front (Shrink.partsOfStyle existing a.raw) back) := by
  refine ⟨rfl, fun key member => ?_, fun b member stays => List.mem_map_of_mem ?_⟩
  · obtain ⟨b, listed, rfl⟩ := List.mem_map.mp member
    rcases mem_withStyle attributes listed with old | new
    · exact .inl (List.mem_map_of_mem old)
    rcases List.mem_append.mp new with lifted | kept
    · obtain ⟨d, chosen, rfl⟩ := List.mem_map.mp lifted
      have liftable := (List.mem_filter.mp chosen).2
      rw [Shrink.isLiftable, Bool.and_eq_true, List.contains_iff_mem] at liftable
      have noColon : ∀ name ∈ Shrink.presentationProperties, ':' ∉ name := by decide
      exact .inr (noColon d.property liftable.1)
    · rw [Shrink.keptStyle] at kept
      split at kept
      · exact absurd kept List.not_mem_nil
      · rw [List.mem_singleton.mp kept]
        exact .inr (by decide : ':' ∉ styleKey)
  · rw [attributes] at member
    rcases List.mem_append.mp member with inFront | member
    · exact List.mem_append_left _ inFront
    · rcases List.mem_cons.mp member with rfl | inBack
      · exact absurd key stays
      · exact List.mem_append_right _ (List.mem_append_right _ inBack)

end SpelledTag

/-! ## The whole tag -/

theorem styledTag?_atMarkup : AtMarkup Shrink.styledTag? where
  elsewhere c s other := by
    unfold Shrink.styledTag?
    split
    · next same => exact absurd (List.cons.inj same).1 other
    · rfl
  declaration c s _ := by
    have none : Shrink.isNamePart '!' = false := by decide
    simp [Shrink.styledTag?, none]
  instruction s := by
    have none : Shrink.isNamePart '?' = false := by decide
    simp [Shrink.styledTag?, none]

/-- What is written for a tag whose name is followed by something else. -/
theorem styledTag?_tag (name : Text) {rest : Text} (stop : ∀ c ∈ rest.head?, Shrink.isNamePart c = false) :
    Shrink.styledTag? ('<' :: (name ++ rest)) =
      if name.takeWhile Shrink.isNamePart = [] then none
      else (Shrink.findStyle? (name.dropWhile Shrink.isNamePart ++ rest)).map fun (before, style, after, rest') =>
        match Shrink.liftStyle? (name.takeWhile Shrink.isNamePart) before style after with
        | some tag => ('<' :: tag, rest')
        | none => ('<' :: (name ++ rest).take ((name ++ rest).length - rest'.length), rest') := by
  obtain ⟨take, drop⟩ := takeWhile_append_of_head stop name
  rewrite [Shrink.styledTag?, take, drop]
  rfl

/-- Nothing is written for what looks like a tag up to the end of a section, without a style in it. -/
theorem styledTag?_eq_none {w front s : Text} (absent : w.takeWhile Shrink.isNamePart ≠ [] → ¬ Shrink.styleStart <:+: w)
    (stops : ∀ c ∈ front, c ∈ [']', '?']) : Shrink.styledTag? ('<' :: (w ++ (front ++ '>' :: s))) = none := by
  have marks : ∀ c ∈ ['>', ']', '?'], Shrink.isNamePart c = false ∧ Text.isBlank c = false ∧ c ≠ '=' ∧
      c ∉ Shrink.styleStart := by decide
  have head : ∀ c ∈ (front ++ '>' :: s).head?, c ∈ ['>', ']', '?'] := by
    intro c first
    cases front with
    | nil => exact Option.some.inj first ▸ List.mem_cons_self
    | cons d front => exact List.mem_cons_of_mem _ (Option.some.inj first ▸ stops d List.mem_cons_self)
  rw [styledTag?_tag w fun c first => (marks c (head c first)).1]
  split
  · rfl
  next named =>
  have inside : Text.Idle Shrink.styleStep (w.dropWhile Shrink.isNamePart) (front ++ '>' :: s) := by
    refine Shrink.idle_styleless (fun here => absent named (here.trans (List.dropWhile_suffix _).isInfix)) fun c first => ?_
    obtain ⟨noPart, noBlank, noEquals, noMark⟩ := marks c (head c first)
    exact ⟨⟨noBlank, noPart, noEquals⟩, noMark⟩
  have close : Text.Idle Shrink.styleStep front ('>' :: s) :=
    Shrink.idle_noBlanks_style (fun c member => (marks c (List.mem_cons_of_mem _ (stops c member))).2.1) _
  have none := Shrink.findStyle?_eq_none (Text.idle_append_iff.mpr ⟨inside, close⟩)
  rw [List.append_assoc] at none
  rw [none]
  rfl

/-- The same up to the first character that can end the tag, in the section or with it. -/
theorem styledTag?_of_not_beginsStyled {w front s : Text} (styleless : ¬ BeginsStyled ('<' :: w))
    (stops : ∀ c ∈ front, c ∈ [']', '?']) : Shrink.styledTag? ('<' :: (w ++ (front ++ '>' :: s))) = none := by
  have absent (named : (w.takeWhile (· ≠ '>')).takeWhile Shrink.isNamePart ≠ []) :
      ¬ Shrink.styleStart <:+: w.takeWhile (· ≠ '>') := fun here => by
    refine styleless ⟨⟨w, rfl⟩, ?_, ?_⟩
    · rw [List.takeWhile_cons_of_pos (by decide)]
      exact here.trans (List.suffix_cons '<' _).isInfix
    · cases w with
      | nil => exact absurd rfl named
      | cons c w =>
        refine ⟨c, rfl, by_contra fun noPart => named ?_⟩
        by_cases mark : c = '>' <;> simp [mark, noPart]
  cases rest : w.dropWhile (· ≠ '>') with
  | nil =>
    have none := styledTag?_eq_none absent stops (s := s)
    rwa [List.takeWhile_eq_self_iff.mpr (List.dropWhile_eq_nil_iff.mp rest)] at none
  | cons d rest' =>
    have whole : w.takeWhile (· ≠ '>') ++ d :: rest' = w := rest ▸ List.takeWhile_append_dropWhile
    obtain rfl : d = '>' := by
      have stop := List.head?_dropWhile_not (fun c : Char => decide (c ≠ '>')) w
      rw [rest] at stop
      simpa using stop
    have nothing : ∀ c ∈ ([] : Text), c ∈ [']', '?'] := fun _ member => absurd member List.not_mem_nil
    have none := styledTag?_eq_none absent nothing (s := rest' ++ (front ++ '>' :: s))
    rw [← whole]
    simpa using none

/-- A piece in which nothing looks like a tag with a style stays. -/
theorem Piece.Framed.idle_styledTag? {p : Piece} (framed : p.Framed)
    (styleless : p.isSection = true → ∀ w ∈ p.body.tails, ¬ BeginsStyled w) (s : Text) :
    Text.Idle Shrink.styledTag? p.source s := by
  refine styledTag?_atMarkup.idle_framed framed fun isSection => Text.idle_of_suffixes fun w ends nonempty => ?_
  obtain ⟨c, w, rfl⟩ := List.exists_cons_of_ne_nil nonempty
  by_cases less : c = '<'
  · subst less
    obtain ⟨front, closing, stops⟩ : ∃ front, p.closing = front ++ ['>'] ∧ ∀ c ∈ front, c ∈ [']', '?'] := by
      cases p with
      | characterData => exact ⟨[']', ']'], rfl, by decide⟩
      | doctype => exact ⟨[], rfl, by decide⟩
      | instruction => exact ⟨['?'], rfl, by decide⟩
      | _ => cases isSection
    have none := styledTag?_of_not_beginsStyled (styleless isSection _ ((List.mem_tails _ _).mpr ends)) stops (s := s)
    rw [closing]
    simpa using none
  · exact styledTag?_atMarkup.elsewhere c _ less

theorem idle_styles {as : List SpelledAttribute} (loose : ∀ a ∈ as, a.Loose) (styleless : ∀ a ∈ as, a.Styleless)
    (plain : ∀ a ∈ as, ¬ a.IsStyle) (s : Text) :
    Text.Idle Shrink.styleStep (as.flatMap SpelledAttribute.source) s := by
  induction as with
  | nil => trivial
  | cons a as ih =>
    rw [List.forall_mem_cons] at loose styleless plain
    rw [List.flatMap_cons, Text.idle_append_iff]
    exact ⟨loose.1.idle_styleAt? styleless.1 plain.1 _, ih loose.2 styleless.2 plain.2⟩

namespace SpelledTag

variable {t : SpelledTag}

/-- A tag of loose attributes, without a blank in its name and without `<` in its values. -/
structure Loose (t : SpelledTag) : Prop where
  name : Plain t.name
  noBlank : ∀ c ∈ t.name, Text.isBlank c = false
  attributes : ∀ a ∈ t.attributes, a.Loose
  noLess : ∀ a ∈ t.attributes, '<' ∉ a.raw
  blanks : ∀ c ∈ t.blanks, Text.isBlank c = true

theorem Tidy.loose (tidy : t.Tidy) : t.Loose :=
  ⟨tidy.proper.name, tidy.name.noBlank,
    fun a member => (tidy.proper.attributes a member).loose (tidy.attributes a member).key,
    fun a member => (tidy.attributes a member).noLess, tidy.proper.blanks.isBlank⟩

/-- The first attribute in the form of a style, which is what is found in the tag. -/
structure StyledAt (t : SpelledTag) (front : List SpelledAttribute) (a : SpelledAttribute) (back : List SpelledAttribute) :
    Prop where
  attributes : t.attributes = front ++ a :: back
  style : a.IsStyle
  plain : ∀ b ∈ front, ¬ b.IsStyle
  styleless : ∀ b ∈ front, b.Styleless
  free : Free ['"', '\''] a.raw
  noGreater : ∀ b ∈ t.attributes, '>' ∉ b.raw

namespace StyledAt

variable {front back : List SpelledAttribute} {a : SpelledAttribute}

theorem mem (styled : t.StyledAt front a back) : a ∈ t.attributes := by simp [styled.attributes]

theorem mem_of_front (styled : t.StyledAt front a back) : ∀ b ∈ front, b ∈ t.attributes := fun b member => by
  simp [styled.attributes, member]

theorem mem_of_back (styled : t.StyledAt front a back) : ∀ b ∈ back, b ∈ t.attributes := fun b member => by
  simp [styled.attributes, member]

end StyledAt

/-- All names that stand before an equals sign in front of the style and after it. -/
def namesAround (t : SpelledTag) (front back : List SpelledAttribute) (close : Text) : List Text :=
  Shrink.namesBeforeEquals (t.name.dropWhile Shrink.isNamePart ++ front.flatMap SpelledAttribute.source) ++
    Shrink.namesBeforeEquals (back.flatMap SpelledAttribute.source ++ (t.blanks ++ close))

/-- The keys of the other attributes are among the names around the style. -/
theorem mem_namesAround {front back : List SpelledAttribute} (close : Text) {b : SpelledAttribute}
    (listed : b ∈ front ++ back) (loose : b.Loose) (named : ∀ c ∈ b.key, Shrink.isNamePart c = true) :
    b.key ∈ t.namesAround front back close := by
  rcases List.mem_append.mp listed with inFront | inBack
  · have found := SpelledAttribute.mem_namesBeforeEquals inFront loose named (t.name.dropWhile Shrink.isNamePart) []
    rw [List.append_nil] at found
    exact List.mem_append_left _ found
  · exact List.mem_append_right _ (SpelledAttribute.mem_namesBeforeEquals inBack loose named [] (t.blanks ++ close))

namespace Loose

theorem not_mem_source (loose : t.Loose) {as : List SpelledAttribute} (part : ∀ a ∈ as, a ∈ t.attributes) {c : Char}
    (bracket : c = '<' ∨ c = '>') (absent : ∀ a ∈ t.attributes, c ∉ a.raw) :
    c ∉ as.flatMap SpelledAttribute.source := by
  intro member
  obtain ⟨a, listed, member⟩ := List.mem_flatMap.mp member
  exact (loose.attributes a (part a listed)).not_mem_source bracket (absent a (part a listed)) member

theorem noLess_inside (loose : t.Loose) : '<' ∉ t.inside := by
  have name : '<' ∉ t.name := fun member => absurd (loose.name.2 _ member) (by decide)
  have blanks : '<' ∉ t.blanks := fun member => absurd (loose.blanks _ member) (by decide)
  have middle := loose.not_mem_source (fun _ member => member) (.inl rfl) loose.noLess
  simpa [SpelledTag.inside, SpelledTag.middle, name, blanks] using middle

theorem noBlank_tail (loose : t.Loose) : ∀ c ∈ t.name.dropWhile Shrink.isNamePart, Text.isBlank c = false :=
  fun c member => loose.noBlank c ((List.dropWhile_suffix _).subset member)

/-- After its name, the tag does not go on with a part of a name. -/
theorem stop_rest (loose : t.Loose) {more : Text} (closes : more = [] ∨ more = ['/']) (s : Text) :
    ∀ c ∈ (t.middle ++ (t.blanks ++ (more ++ '>' :: s))).head?, Shrink.isNamePart c = false := by
  intro c head
  cases attributes : t.attributes with
  | cons a as =>
    have here := loose.attributes a (by rw [attributes]; exact List.mem_cons_self)
    obtain ⟨d, before, same⟩ := List.exists_cons_of_ne_nil here.apart
    rw [SpelledTag.middle, attributes, List.flatMap_cons, SpelledAttribute.source, same] at head
    obtain rfl := Option.some.inj head
    exact isNamePart_of_isBlank (here.before d (by rw [same]; exact List.mem_cons_self))
  | nil =>
    rw [SpelledTag.middle, attributes, List.flatMap_nil, List.nil_append] at head
    cases same : t.blanks with
    | cons d blanks =>
      rw [same] at head
      obtain rfl := Option.some.inj head
      exact isNamePart_of_isBlank (loose.blanks d (by rw [same]; exact List.mem_cons_self))
    | nil =>
      rw [same] at head
      rcases closes with rfl | rfl <;> exact Option.some.inj head ▸ (by decide)

/-- Without a style attribute no style is found. -/
theorem findStyle?_unstyled (loose : t.Loose) (plain : ∀ a ∈ t.attributes, ¬ a.IsStyle)
    (styleless : ∀ a ∈ t.attributes, a.Styleless) {more : Text} (closes : more = [] ∨ more = ['/']) (s : Text) :
    Shrink.findStyle? (t.name.dropWhile Shrink.isNamePart ++ (t.middle ++ (t.blanks ++ (more ++ '>' :: s)))) =
      none := by
  have front := Shrink.idle_noBlanks_style loose.noBlank_tail (t.middle ++ (t.blanks ++ (more ++ '>' :: s)))
  have middle := idle_styles loose.attributes styleless plain (t.blanks ++ (more ++ '>' :: s))
  have blanks : Text.Idle Shrink.styleStep t.blanks (more ++ '>' :: s) := by
    rcases closes with rfl | rfl
    · exact Shrink.idle_blanks_style loose.blanks (by decide) (by decide) s
    · exact Shrink.idle_blanks_style loose.blanks (by decide) (by decide) ('>' :: s)
  have close : Text.Idle Shrink.styleStep more ('>' :: s) := by
    rcases closes with rfl | rfl
    · trivial
    · exact Shrink.idle_noBlanks_style (by decide) _
  have all : Text.Idle Shrink.styleStep (t.name.dropWhile Shrink.isNamePart ++ (t.middle ++ (t.blanks ++ more)))
      ('>' :: s) := by
    simp only [Text.idle_append_iff, List.append_assoc]
    exact ⟨front, middle, blanks, close⟩
  have found := Shrink.findStyle?_eq_none all
  simpa using found

/-- The style attribute is what is found first. -/
theorem findStyle?_styled (loose : t.Loose) {front back : List SpelledAttribute} {a : SpelledAttribute}
    (styled : t.StyledAt front a back) {more : Text} (closes : more = [] ∨ more = ['/']) (s : Text) :
    Shrink.findStyle? (t.name.dropWhile Shrink.isNamePart ++ (t.middle ++ (t.blanks ++ (more ++ '>' :: s)))) =
      some (t.name.dropWhile Shrink.isNamePart ++ front.flatMap SpelledAttribute.source, a.raw,
        back.flatMap SpelledAttribute.source ++ (t.blanks ++ more), s) := by
  have here := loose.attributes a styled.mem
  have name : '>' ∉ t.name.dropWhile Shrink.isNamePart := fun member =>
    absurd (loose.name.2 _ ((List.dropWhile_suffix _).subset member)) (by decide)
  have before := loose.not_mem_source styled.mem_of_front (.inr rfl) styled.noGreater
  have after : '>' ∉ back.flatMap SpelledAttribute.source ++ (t.blanks ++ more) := by
    have blanks : '>' ∉ t.blanks := fun member => absurd (loose.blanks _ member) (by decide)
    have close : '>' ∉ more := by rcases closes with rfl | rfl <;> decide
    simp [loose.not_mem_source styled.mem_of_back (.inr rfl) styled.noGreater, blanks, close]
  have first : Shrink.findStyle? (a.source ++ (back.flatMap SpelledAttribute.source ++ (t.blanks ++ more) ++ '>' :: s)) =
      some ([], a.raw, back.flatMap SpelledAttribute.source ++ (t.blanks ++ more), s) := by
    have found := here.styleAt?_source styled.style styled.free after s
    obtain ⟨d, u, same⟩ := List.exists_cons_of_ne_nil here.apart
    rw [SpelledAttribute.source, same] at found ⊢
    exact Shrink.findStyle?_of_styleAt? found
  have idle := Text.idle_append_iff.mpr ⟨Shrink.idle_noBlanks_style loose.noBlank_tail _,
    idle_styles (fun b member => loose.attributes b (styled.mem_of_front b member)) styled.styleless styled.plain
      (a.source ++ (back.flatMap SpelledAttribute.source ++ (t.blanks ++ more) ++ '>' :: s))⟩
  have found := Shrink.findStyle?_of_idle idle (by simp [name, before])
  rw [first] at found
  have whole : t.name.dropWhile Shrink.isNamePart ++ (t.middle ++ (t.blanks ++ (more ++ '>' :: s))) =
      t.name.dropWhile Shrink.isNamePart ++ front.flatMap SpelledAttribute.source ++
        (a.source ++ (back.flatMap SpelledAttribute.source ++ (t.blanks ++ more) ++ '>' :: s)) := by
    simp [SpelledTag.middle, styled.attributes]
  rw [whole, found]
  simp

/-- What is written for the tag depends on what is found after its name. -/
theorem styledTag?_eq (loose : t.Loose) {more : Text} (closes : more = [] ∨ more = ['/']) (s : Text) :
    Shrink.styledTag? ('<' :: (t.inside ++ (more ++ ['>']) ++ s)) =
      if t.name.takeWhile Shrink.isNamePart = [] then none
      else (Shrink.findStyle? (t.name.dropWhile Shrink.isNamePart ++ (t.middle ++ (t.blanks ++ (more ++ '>' :: s))))).map
        fun (before, style, after, rest') =>
          match Shrink.liftStyle? (t.name.takeWhile Shrink.isNamePart) before style after with
          | some tag => ('<' :: tag, rest')
          | none => ('<' :: (t.inside ++ (more ++ ['>']) ++ s).take
              ((t.inside ++ (more ++ ['>']) ++ s).length - rest'.length), rest') := by
  have whole : t.inside ++ (more ++ ['>']) ++ s = t.name ++ (t.middle ++ (t.blanks ++ (more ++ '>' :: s))) := by
    simp [SpelledTag.inside]
  rw [whole]
  exact styledTag?_tag t.name (loose.stop_rest closes s)

/-- Where nothing is written for the tag, it stays. -/
theorem substitute_of_none (loose : t.Loose) {more : Text} (closes : more = [] ∨ more = ['/']) {s : Text}
    (missing : Shrink.styledTag? ('<' :: (t.inside ++ (more ++ ['>']) ++ s)) = none) :
    Text.substitute Shrink.styledTag? ('<' :: (t.inside ++ (more ++ ['>'])) ++ s) =
      '<' :: (t.inside ++ (more ++ ['>'])) ++ Text.substitute Shrink.styledTag? s := by
  have noLess : '<' ∉ t.inside ++ (more ++ ['>']) := by
    rcases closes with rfl | rfl <;> simp [loose.noLess_inside]
  exact (styledTag?_atMarkup.idle_markup missing noLess).substitute

/-- A tag without a style attribute stays. -/
theorem substitute_unstyled (loose : t.Loose) (plain : ∀ a ∈ t.attributes, ¬ a.IsStyle)
    (styleless : ∀ a ∈ t.attributes, a.Styleless) {more : Text} (closes : more = [] ∨ more = ['/']) (s : Text) :
    Text.substitute Shrink.styledTag? ('<' :: (t.inside ++ (more ++ ['>'])) ++ s) =
      '<' :: (t.inside ++ (more ++ ['>'])) ++ Text.substitute Shrink.styledTag? s := by
  refine loose.substitute_of_none closes ?_
  rw [loose.styledTag?_eq closes, loose.findStyle?_unstyled plain styleless closes]
  split <;> rfl

variable {front back : List SpelledAttribute} {a : SpelledAttribute}

/-- A tag stays if nothing is lifted out of its style, or if its name does not begin with a part of a name. -/
theorem substitute_of_not_lifts (loose : t.Loose) (styled : t.StyledAt front a back) {more : Text}
    (closes : more = [] ∨ more = ['/']) (s : Text)
    (idle : t.name.takeWhile Shrink.isNamePart = [] ∨ ¬ Shrink.Lifts (t.namesAround front back more) a.raw) :
    Text.substitute Shrink.styledTag? ('<' :: (t.inside ++ (more ++ ['>'])) ++ s) =
      '<' :: (t.inside ++ (more ++ ['>'])) ++ Text.substitute Shrink.styledTag? s := by
  have step := loose.styledTag?_eq closes s
  by_cases unnamed : t.name.takeWhile Shrink.isNamePart = []
  · rw [if_pos unnamed] at step
    exact loose.substitute_of_none closes step
  rw [if_neg unnamed, loose.findStyle?_styled styled closes, Option.map_some] at step
  dsimp only at step
  rw [Shrink.liftStyle?_of_not_lifts (idle.resolve_left unnamed)] at step
  have length : (t.inside ++ (more ++ ['>']) ++ s).length - s.length = (t.inside ++ (more ++ ['>'])).length := by
    rw [List.length_append]
    exact Nat.add_sub_cancel ..
  dsimp only at step
  rw [length, List.take_left] at step
  exact Text.substitute_cons_of_some step (List.suffix_append _ s).length_le

/-- A tag is written with the parts of its style in the place of the style. -/
theorem substitute_of_lifts (loose : t.Loose) (styled : t.StyledAt front a back) {more : Text}
    (closes : more = [] ∨ more = ['/']) (s : Text) (named : t.name.takeWhile Shrink.isNamePart ≠ [])
    (lifts : Shrink.Lifts (t.namesAround front back more) a.raw) :
    Text.substitute Shrink.styledTag? ('<' :: (t.inside ++ (more ++ ['>'])) ++ s) =
      '<' :: ((t.withStyle front (Shrink.partsOfStyle (t.namesAround front back more) a.raw) back).inside ++
        (more ++ ['>'])) ++ Text.substitute Shrink.styledTag? s := by
  have step := loose.styledTag?_eq closes s
  rw [if_neg named, loose.findStyle?_styled styled closes, Option.map_some] at step
  dsimp only at step
  rw [Shrink.liftStyle?_of_lifts lifts, ← namesAround] at step
  rw [List.cons_append, Text.substitute_cons_of_some step (List.suffix_append _ s).length_le]
  have name : t.name.takeWhile Shrink.isNamePart ++ t.name.dropWhile Shrink.isNamePart = t.name :=
    List.takeWhile_append_dropWhile
  simp only [SpelledTag.inside, withStyle, SpelledTag.middle, List.flatMap_append, List.append_assoc,
    List.cons_append, List.nil_append]
  rw [← List.append_assoc (t.name.takeWhile _), name]

end Loose

/-- What is written for a tag can be read. -/
theorem exists_styled (ready : t.Ready True) (more : Text) (closes : more = [] ∨ more = ['/']) (s : Text) :
    ∃ t' : SpelledTag, t'.Fit ∧ t.Keeps (·.key = styleKey) t' ∧
      Text.substitute Shrink.styledTag? ('<' :: (t.inside ++ (more ++ ['>'])) ++ s) =
        '<' :: (t'.inside ++ (more ++ ['>'])) ++ Text.substitute Shrink.styledTag? s := by
  have loose := ready.tidy.loose
  have stylable := ready.stylable trivial
  have styleless (a : SpelledAttribute) (listed : a ∈ t.attributes) : a.Styleless :=
    SpelledAttribute.styleless_of_not_infix (stylable.noStyle a listed)
  by_cases styled : ∃ a ∈ t.attributes, a.IsStyle
  · obtain ⟨a, listed, style⟩ := styled
    obtain ⟨front, back, attributes⟩ := List.append_of_mem listed
    have styled : t.StyledAt front a back := by
      refine ⟨attributes, style, fun b member other => ?_, fun b member => styleless b (by simp [attributes, member]),
        (stylable.plain a listed style.key).mono (by decide), stylable.noGreater (style.key ▸ List.mem_map_of_mem listed)⟩
      have once := ready.readable.once
      rw [SpelledTag.keys, attributes, List.map_append, List.map_cons, style.key] at once
      exact (List.nodup_append.mp once).2.2 styleKey (other.key ▸ List.mem_map_of_mem member) styleKey
        List.mem_cons_self rfl
    by_cases lifts : t.name.takeWhile Shrink.isNamePart ≠ [] ∧ Shrink.Lifts (t.namesAround front back more) a.raw
    · refine ⟨_, fit_lifted ready attributes style.key (t.namesAround front back more) fun b member presented => ?_,
        keeps_lifted attributes style.key _, loose.substitute_of_lifts styled closes s lifts.1 lifts.2⟩
      refine mem_namesAround more member (loose.attributes b ?_) fun c inside =>
        (isNamePart_of_mem_presentationProperties _ presented c inside).1
      exact (List.mem_append.mp member).elim (styled.mem_of_front b) (styled.mem_of_back b)
    · exact ⟨t, ready.fit, .refl t, loose.substitute_of_not_lifts styled closes s (by
        rwa [not_and_or, not_not] at lifts)⟩
  · have plain : ∀ a ∈ t.attributes, ¬ a.IsStyle := fun a member style => styled ⟨a, member, style⟩
    exact ⟨t, ready.fit, .refl t, loose.substitute_unstyled plain styleless closes s⟩

end SpelledTag

theorem liftStyles_sweeps : Sweeps Shrink.styledTag? ⟨Piece.Inert .aggressive, SpelledTag.Ready True⟩
    ⟨Piece.Sound, SpelledTag.Fit⟩ (·.key = styleKey) fun _ => False where
  mark s := styledTag?_atMarkup.elsewhere _ s (by decide)
  other p inert s _ := by
    have idle := inert.framed.idle_styledTag? (fun isSection => (inert.untagged isSection).style rfl) s
    exact ⟨p, inert.sound, id, idle.substitute⟩
  empty t ready s := by
    obtain ⟨t', fit, keeps, same⟩ := SpelledTag.exists_styled ready ['/'] (.inr rfl) s
    exact .inr ⟨t', fit, keeps, same⟩
  element t blanks inside ready _ _ s rest _ := by
    obtain ⟨t', fit, keeps, same⟩ := SpelledTag.exists_styled ready [] (.inl rfl) rest
    exact .inr ⟨t', fit, keeps, same⟩
  close t blanks ready blank s := by
    have unnamed : Shrink.isNamePart '/' = false := by decide
    have first : Shrink.styledTag? ('<' :: '/' :: (t.name ++ blanks ++ '>' :: s)) = none := by
      simp [Shrink.styledTag?, unnamed]
    exact (styledTag?_atMarkup.idle_endTag ready.tidy.proper.name blank first).substitute

end SvgEdit
