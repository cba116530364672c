import SvgEdit.Proofs.CondensingPasses
import SvgEdit.Proofs.LiftedStyles

/-!
# Properties declared more than once

What is lifted out of a style is new in the tag, but nothing compares the declarations of the style with each
other. A property that is declared more than once and lifted becomes as many attributes of one name.
-/
namespace SvgEdit

/-! ## Values that end like the beginning of a style -/

/-- The value ends with a blank and what a style begins with, so that its closing mark looks like an opening one. -/
def SpelledAttribute.EndsInStyle (a : SpelledAttribute) : Prop :=
  ∃ c, Text.isBlank c = true ∧ c :: Shrink.styleStart <:+ a.raw

/-- In a value without marks, only its end can look like the beginning of a style. -/
theorem SpelledAttribute.styleless_of_free {a : SpelledAttribute} (free : Free ['"', '\''] a.raw)
    (other : ¬ a.EndsInStyle) : a.Styleless := by
  have inside {u : Text} (free : Free ['"', '\''] u) : ∀ c ∈ u, (!Shrink.isQuote c) = true := by
    intro c member
    have marks := free c member
    simp only [List.mem_cons, not_or] at marks
    simp [Shrink.isQuote, marks]
  have stop {q : Char} (quote : Shrink.isQuote q = true) (u : Text) : ∀ c ∈ (q :: u).head?, (!Shrink.isQuote c) = false :=
    fun c head => by simp [← Option.some.inj head, quote]
  refine fun s => Text.idle_of_suffixes fun w ends _ => Shrink.styleStep_eq_none fun q value quote same => ?_
  rw [Shrink.afterBlanks?_append a.quote.bars] at same
  obtain ⟨rest, found, equal⟩ := Option.map_eq_some_iff.mp same
  obtain ⟨blanks, run, rfl, -⟩ := Shrink.afterBlanks?_eq_some_iff.mp found
  -- up to the first mark, both are the same
  have start := congrArg (List.takeWhile (!Shrink.isQuote ·)) equal
  rw [Text.takeWhile_append_of_stop (inside (free.of_mem fun c member =>
      ends.subset (List.mem_append_right blanks member))) (stop a.quote.isQuote s),
    Text.takeWhile_append_of_stop (inside (by decide)) (stop quote value)] at start
  obtain ⟨before, c, whole⟩ := (List.eq_nil_or_concat blanks).resolve_left run.nonempty
  refine other ⟨c, run.blank c (by simp [whole]), List.IsSuffix.trans ⟨before, ?_⟩ ends⟩
  rw [start, whole]
  simp

/-- Up to its style attribute, the tag has no value that ends like the beginning of a style. -/
def SpelledTag.Unmistaken (t : SpelledTag) : Prop :=
  ∀ front a back, t.attributes = front ++ a :: back → (∀ b ∈ front, ¬ b.IsStyle) → ¬ a.IsStyle → ¬ a.EndsInStyle

theorem SpelledTag.unmistaken_of_noEquals {t : SpelledTag} (noEquals : ∀ a ∈ t.attributes, '=' ∉ a.raw) :
    t.Unmistaken := by
  rintro front a back attributes - - ⟨c, -, ends⟩
  have inside : '=' ∈ c :: Shrink.styleStart := List.mem_cons_of_mem c (by decide)
  exact noEquals a (by simp [attributes]) (ends.subset inside)

/-! ## Declared once -/

theorem eq_of_count_map_le_one {α β : Type} [BEq β] [LawfulBEq β] {f : α → β} {l : List α} {x y : α}
    (few : (l.map f).count (f x) ≤ 1) (here : x ∈ l) (there : y ∈ l) (same : f y = f x) : y = x := by
  induction l with
  | nil => cases here
  | cons z l ih =>
    by_cases first : f z = f x
    · have later : f x ∉ l.map f := by
        rw [List.map_cons, first, List.count_cons_self] at few
        exact List.count_eq_zero.mp (by omega)
      have only (w : α) (listed : w ∈ z :: l) (same : f w = f x) : w = z :=
        (List.mem_cons.mp listed).resolve_right fun inside => later (same ▸ List.mem_map_of_mem inside)
      rw [only y there same, only x here rfl]
    · rw [List.map_cons, List.count_cons_of_ne first] at few
      have inside (w : α) (listed : w ∈ z :: l) (same : f w = f x) : w ∈ l :=
        (List.mem_cons.mp listed).resolve_left fun equal => first (equal ▸ same)
      exact ih few (inside x here rfl) (inside y there same)

namespace Shrink

/-- How often a property is declared in a list. -/
def timesDeclared (ds : List Declaration) (property : Text) : Nat := (ds.map fun d => d.trimmed.property).count property

/-- The value of the last declaration of a property. -/
def lastValue? (ds : List Declaration) (property : Text) : Option Text :=
  ((ds.map Declaration.trimmed).reverse.find? (·.property = property)).map Declaration.value

theorem timesDeclared_eq (ds : List Declaration) (property : Text) :
    timesDeclared ds property = ((ds.map Declaration.trimmed).map Declaration.property).count property := by
  rw [timesDeclared, List.map_map]
  rfl

/-- The only declaration of a property is the last one. -/
theorem lastValue?_eq {ds : List Declaration} {d : Declaration} (listed : d ∈ ds.map Declaration.trimmed)
    (few : timesDeclared ds d.property ≤ 1) : lastValue? ds d.property = some d.value := by
  have found : ((ds.map Declaration.trimmed).reverse.find? (·.property = d.property)).isSome = true := by
    rw [List.find?_isSome]
    exact ⟨d, List.mem_reverse.mpr listed, by simp⟩
  obtain ⟨e, last⟩ := Option.isSome_iff_exists.mp found
  have same : e.property = d.property := by simpa using List.find?_some last
  rw [timesDeclared_eq] at few
  have equal : e = d :=
    eq_of_count_map_le_one few listed (List.mem_reverse.mp (List.mem_of_find?_eq_some last)) same
  rw [lastValue?, last, equal]
  rfl

/-- What can be lifted is lifted as often as it is declared. -/
theorem count_lifted {existing : List Text} {ds : List Declaration} {d : Declaration}
    (liftable : isLiftable existing d = true) : ((ds.filter (isLiftable existing)).map Declaration.property).count d.property =
      (ds.map Declaration.property).count d.property := by
  have names : (ds.filter (isLiftable existing)).map Declaration.property = (ds.map Declaration.property).filter
      fun name => presentationProperties.contains name && !existing.contains name := by
    rw [List.filter_map]
    rfl
  rw [names]
  exact List.count_filter liftable

end Shrink

/-! ## Tags with doubled properties -/

namespace SpelledTag

variable {t : SpelledTag} {front back : List SpelledAttribute} {style : SpelledAttribute}

/-- An attribute of a key that the tag lacks is a declaration that was lifted. -/
theorem exists_lifted (attributes : t.attributes = front ++ style :: back) (key : style.key = styleKey)
    {existing : List Text} {b : SpelledAttribute}
    (listed : b ∈ (t.withStyle front (Shrink.partsOfStyle existing style.raw) back).attributes) (new : b.key ∉ t.keys) :
    ∃ d ∈ (Shrink.declarations style.raw).filter (Shrink.isLiftable existing), b = Shrink.liftedAttribute d := by
  have part := (mem_withStyle attributes listed).resolve_left fun old => new (List.mem_map_of_mem old)
  rcases List.mem_append.mp part with lifted | kept
  · obtain ⟨d, chosen, same⟩ := List.mem_map.mp lifted
    exact ⟨d, chosen, same.symm⟩
  · rw [Shrink.keptStyle] at kept
    split at kept
    · cases kept
    · obtain rfl := List.mem_singleton.mp kept
      exact absurd (List.mem_map.mpr ⟨style, by simp [attributes], key⟩) new

/-- What is lifted out of a style is lifted well if no property of it is declared more than once. -/
theorem lifted_well_iff (attributes : t.attributes = front ++ style :: back) (key : style.key = styleKey)
    (once : t.keys.Nodup) {existing : List Text}
    (known : ∀ b ∈ front ++ back, b.key ∈ Shrink.presentationProperties → b.key ∈ existing)
    {ds : List Shrink.Declaration} (declared : Shrink.declarations style.raw = ds.map Shrink.Declaration.trimmed)
    {t' : SpelledTag} (result : t' = t.withStyle front (Shrink.partsOfStyle existing style.raw) back) :
    (t'.keys.Nodup ∧ ∀ b ∈ t'.attributes, b.key ∉ t.keys → Shrink.lastValue? ds b.key = some b.raw) ↔
      ∀ name ∈ t'.keys, name ∉ t.keys → Shrink.timesDeclared ds name ≤ 1 := by
  have lifted {b : SpelledAttribute} (listed : b ∈ t'.attributes) (new : b.key ∉ t.keys) :=
    exists_lifted attributes key (result ▸ listed) new
  have nodup : t'.keys.Nodup ↔ (((Shrink.declarations style.raw).filter (Shrink.isLiftable existing)).map
      Shrink.Declaration.property).Nodup :=
    result ▸ nodup_keys_withStyle_iff attributes key once fun d chosen =>
      not_mem_keys_of_isLiftable attributes key known (List.mem_filter.mp chosen).2
  rw [nodup]
  constructor
  · rintro ⟨each, -⟩ name listed new
    obtain ⟨b, member, rfl⟩ := List.mem_map.mp listed
    obtain ⟨d, chosen, rfl⟩ := lifted member new
    have few := List.nodup_iff_count_le_one.mp each d.property
    rw [Shrink.count_lifted (List.mem_filter.mp chosen).2, declared, ← Shrink.timesDeclared_eq] at few
    exact few
  · intro few
    refine ⟨List.nodup_iff_count_le_one.mpr fun name => ?_, fun b member new => ?_⟩
    · by_cases some : name ∈ ((Shrink.declarations style.raw).filter (Shrink.isLiftable existing)).map
        Shrink.Declaration.property
      · obtain ⟨d, chosen, rfl⟩ := List.mem_map.mp some
        have listed : d.property ∈ t'.keys := by
          rw [result]
          refine List.mem_map.mpr ⟨Shrink.liftedAttribute d, ?_, rfl⟩
          exact List.mem_append_right _ (List.mem_append_left _ (List.mem_append_left _ (List.mem_map_of_mem chosen)))
        have less := few d.property listed
          (not_mem_keys_of_isLiftable attributes key known (List.mem_filter.mp chosen).2)
        rwa [Shrink.count_lifted (List.mem_filter.mp chosen).2, declared, ← Shrink.timesDeclared_eq]
      · rw [List.count_eq_zero.mpr some]
        exact Nat.zero_le 1
    · obtain ⟨d, chosen, rfl⟩ := lifted member new
      have listed := (List.mem_filter.mp chosen).1
      rw [declared] at listed
      exact Shrink.lastValue?_eq listed (few _ (List.mem_map_of_mem member) new)

/-- What is lifted out of a style without marks of markup leaves a loose tag, and a proper one if it was. -/
theorem loose_withStyle (loose : t.Loose) (attributes : t.attributes = front ++ style :: back)
    (free : Free ['"', '\'', '<', '>', '&'] style.raw) (existing : List Text) :
    (t.withStyle front (Shrink.partsOfStyle existing style.raw) back).Loose ∧
      (t.Proper → (t.withStyle front (Shrink.partsOfStyle existing style.raw) back).Proper) := by
  have parts := regular_partsOfStyle free existing
  refine ⟨⟨loose.name, loose.noBlank, fun b member => ?_, fun b member => ?_, loose.blanks⟩, fun proper =>
    ⟨proper.name, proper.begins, fun b member => ?_, proper.blanks⟩⟩
  · exact (mem_withStyle attributes member).elim (loose.attributes b) fun new => (parts b new).loose
  · exact (mem_withStyle attributes member).elim (loose.noLess b) fun new => (parts b new).raw.not_mem (by decide)
  · exact (mem_withStyle attributes member).elim (proper.attributes b) fun new =>
      (proper_lifted (free.mono (by decide)) existing b new).1

/-- The style attribute of a tag with distinct keys is what is found first, if no value is mistaken for it. -/
theorem Unmistaken.styledAt (unmistaken : t.Unmistaken) (once : t.keys.Nodup)
    (free : ∀ a ∈ t.attributes, Free ['"', '\'', '<', '>', '&'] a.raw)
    (attributes : t.attributes = front ++ style :: back) (is : style.IsStyle) : t.StyledAt front style back := by
  rw [SpelledTag.keys, attributes, List.map_append, List.map_cons, is.key] at once
  have plain : ∀ b ∈ front, ¬ b.IsStyle := fun b member other =>
    (List.nodup_append.mp once).2.2 styleKey (other.key ▸ List.mem_map_of_mem member) styleKey List.mem_cons_self rfl
  refine ⟨attributes, is, plain, fun b member => ?_, (free style (by simp [attributes])).mono (by decide),
    fun b member => (free b member).not_mem (by decide)⟩
  refine SpelledAttribute.styleless_of_free ((free b (by simp [attributes, member])).mono (by decide)) ?_
  obtain ⟨before, after, same⟩ := List.append_of_mem member
  rw [same] at attributes plain
  exact unmistaken before b (after ++ style :: back) (by simpa using attributes)
    (fun c inside => plain c (List.mem_append_left _ inside)) (plain b (by simp))

end SpelledTag

/--
Whatever list of declarations is the style of a tag with distinct names, its attributes have distinct names again,
each that is new with the value of its last declaration, exactly if no property that is lifted is declared more
than once. That is so where no value is mistaken for a style.
-/
theorem liftStyles_lifts_well_iff {t : SpelledTag} (loose : t.Loose) (once : t.keys.Nodup)
    (free : ∀ a ∈ t.attributes, Free ['"', '\'', '<', '>', '&'] a.raw) (unmistaken : t.Unmistaken)
    {ds : List Shrink.Declaration} (written : ∀ d ∈ ds, d.Written)
    (list : ∀ a ∈ t.attributes, a.key = styleKey → a.raw = Shrink.styleOf ds)
    {tag : Text → Piece} (kind : tag = .startTag ∨ tag = .emptyTag) (rest : Text) :
    ∃ t' : SpelledTag, Shrink.liftStyles ((tag t.inside).source ++ rest) =
        (tag t'.inside).source ++ Shrink.liftStyles rest ∧ t'.Loose ∧ (t.Proper → t'.Proper) ∧
      ((t'.keys.Nodup ∧ ∀ a ∈ t'.attributes, a.key ∉ t.keys → Shrink.lastValue? ds a.key = some a.raw) ↔
        ∀ name ∈ t'.keys, name ∉ t.keys → Shrink.timesDeclared ds name ≤ 1) := by
  obtain ⟨close, closes, source⟩ := exists_close kind
  simp only [source, Shrink.liftStyles]
  have same : (t.keys.Nodup ∧ ∀ a ∈ t.attributes, a.key ∉ t.keys → Shrink.lastValue? ds a.key = some a.raw) ↔
      ∀ name ∈ t.keys, name ∉ t.keys → Shrink.timesDeclared ds name ≤ 1 :=
    ⟨fun _ name listed new => absurd listed new, fun _ =>
      ⟨once, fun a listed new => absurd (List.mem_map_of_mem listed) new⟩⟩
  by_cases styled : ∃ a ∈ t.attributes, a.IsStyle
  · obtain ⟨style, listed, is⟩ := styled
    obtain ⟨front, back, attributes⟩ := List.append_of_mem listed
    have styled := unmistaken.styledAt once free attributes is
    by_cases lifts : t.name.takeWhile Shrink.isNamePart ≠ [] ∧ Shrink.Lifts (t.namesAround front back close) style.raw
    · have declared := Shrink.declarations_styleOf written
      rw [← list style listed is.key] at declared
      obtain ⟨loose', proper'⟩ := SpelledTag.loose_withStyle loose attributes (free style listed)
        (t.namesAround front back close)
      refine ⟨_, loose.substitute_of_lifts styled closes rest lifts.1 lifts.2, loose', proper',
        SpelledTag.lifted_well_iff attributes is.key once (fun b member presented => ?_) declared rfl⟩
      refine SpelledTag.mem_namesAround close member (loose.attributes b ?_) fun c inside =>
        (isNamePart_of_mem_presentationProperties _ presented c inside).1
      exact (List.mem_append.mp member).elim (styled.mem_of_front b) (styled.mem_of_back b)
    · exact ⟨t, loose.substitute_of_not_lifts styled closes rest (by rwa [not_and_or, not_not] at lifts), loose, id, same⟩
  · have plain : ∀ a ∈ t.attributes, ¬ a.IsStyle := fun a member is => styled ⟨a, member, is⟩
    have styleless (a : SpelledAttribute) (listed : a ∈ t.attributes) : a.Styleless := by
      refine SpelledAttribute.styleless_of_free ((free a listed).mono (by decide)) ?_
      obtain ⟨front, back, attributes⟩ := List.append_of_mem listed
      exact unmistaken front a back attributes (fun b member => plain b (by simp [attributes, member])) (plain a listed)
    exact ⟨t, loose.substitute_unstyled plain styleless closes rest, loose, id, same⟩

/-- A tag with a property that is declared twice in its style, but is an attribute already. -/
def filledRect : SpelledTag where
  name := "rect".toList
  attributes := [⟨" ".toList, "fill".toList, [], [], .double, "x".toList⟩,
    ⟨" ".toList, styleKey, [], [], .double, "fill:a;fill:b;stroke:c".toList⟩]
  blanks := []

/-- The declarations in the style of that tag. -/
def filledRectDeclarations : List Shrink.Declaration :=
  [⟨"fill".toList, "a".toList⟩, ⟨"fill".toList, "b".toList⟩, ⟨"stroke".toList, "c".toList⟩]

theorem liftStyles_lifts_well_iff_filledRect : filledRect.Regular ∧ ∃ t' : SpelledTag,
    Shrink.liftStyles (Piece.emptyTag filledRect.inside).source = (Piece.emptyTag t'.inside).source ∧
      t'.keys.Nodup := by
  have regular : filledRect.Regular := by decide
  have written : ∀ d ∈ filledRectDeclarations, d.Written := by decide
  have kind : Piece.emptyTag = .startTag ∨ Piece.emptyTag = .emptyTag := .inr rfl
  obtain ⟨t', result, -, -, well⟩ := liftStyles_lifts_well_iff regular.loose regular.once (by decide)
    (SpelledTag.unmistaken_of_noEquals (by decide)) written (by decide) kind []
  refine ⟨regular, t', ?_, (well.mpr fun name _ new => ?_).1⟩
  · rwa [List.append_nil, Shrink.liftStyles, Shrink.liftStyles, Text.substitute_nil, List.append_nil] at result
  · have other : "fill".toList ≠ name := fun same => new (same ▸ by decide)
    have names : filledRectDeclarations.map (fun d => d.trimmed.property) =
        ["fill".toList, "fill".toList, "stroke".toList] := by decide
    rw [Shrink.timesDeclared, names, List.count_cons_of_ne other, List.count_cons_of_ne other]
    exact List.count_le_length

/-- A property that is declared twice in the style. -/
def doublyFilled : SpelledTag where
  name := "svg".toList
  attributes := [⟨" ".toList, styleKey, [], [], .double, "fill:a;fill:b".toList⟩]
  blanks := []

/-- The property is lifted twice, and what is written cannot be read. -/
theorem liftStyles_lifts_twice : doublyFilled.Regular ∧
    Shrink.liftStyles (Piece.emptyTag doublyFilled.inside).source = "<svg fill=\"a\" fill=\"b\"/>".toList ∧
      (Document.parse (Piece.emptyTag doublyFilled.inside).source).isOk = true ∧
        (Document.parse "<svg fill=\"a\" fill=\"b\"/>".toList).isOk = false := by
  have regular : doublyFilled.Regular := by decide
  have attributes : doublyFilled.attributes = [] ++ doublyFilled.attributes[0] :: [] := rfl
  have names := regular.namesAround_eq attributes (by decide) (.inr rfl : ['/'] = [] ∨ ['/'] = ['/'])
  have lifts : Shrink.Lifts (doublyFilled.namesAround [] [] ['/']) doublyFilled.attributes[0].raw :=
    ⟨by decide, by rw [names]; decide⟩
  have result := regular.loose.substitute_of_lifts (regular.styledAt attributes rfl (by decide)) (.inr rfl) []
    (by decide) lifts
  rw [names, List.append_nil, Text.substitute_nil, List.append_nil] at result
  exact ⟨regular, result.trans (by decide), by cbv, by cbv⟩

end SvgEdit
