import SvgEdit.Proofs.StyleLifting
import SvgEdit.Proofs.SimpleDocuments

/-!
# Styles lifted out of regular tags

The style of a regular tag is a list of declarations. Those that can be lifted become attributes in the place
of the style, in order and with trimmed values; what is left of the style stands after them, and everything
else in the tag stays.
-/
namespace SvgEdit
namespace Shrink

/-! ## Lists of declarations -/

/-- A declaration as it may stand in a list: a colon ends its property, and a semicolon would end it. -/
structure Declaration.Written (d : Declaration) : Prop where
  noColon : ':' ∉ d.property
  property : ';' ∉ d.property
  value : ';' ∉ d.value

instance (d : Declaration) : Decidable d.Written :=
  decidable_of_iff (':' ∉ d.property ∧ ';' ∉ d.property ∧ ';' ∉ d.value)
    ⟨fun ⟨noColon, property, value⟩ => ⟨noColon, property, value⟩, fun h => ⟨h.noColon, h.property, h.value⟩⟩

/-- The declaration without blanks around its property and its value. -/
def Declaration.trimmed (d : Declaration) : Declaration := ⟨Text.trim d.property, Text.trim d.value⟩

/-- The declarations as they are written, one after the other. -/
def styleOf (ds : List Declaration) : Text := Text.joinWith [';'] (ds.map Declaration.text)

/-- What is read from a list of declarations is the list, trimmed. -/
theorem declarations_styleOf {ds : List Declaration} (written : ∀ d ∈ ds, d.Written) :
    declarations (styleOf ds) = ds.map Declaration.trimmed := by
  have part (d : Declaration) (member : d ∈ ds) : ((Text.cut? [':'] d.text).map fun found =>
      (⟨Text.trim found.1, Text.trim found.2⟩ : Declaration)) = some d.trimmed := by
    have cut := Text.cut?_of_lacks_head (written d member).noColon [] d.value
    rw [List.nil_append] at cut
    rw [Declaration.text, cut]
    rfl
  cases ds with
  | nil => rfl
  | cons d ds =>
    have apart : ∀ text ∈ (d :: ds).map Declaration.text, ';' ∉ text := by
      intro text member
      obtain ⟨e, listed, rfl⟩ := List.mem_map.mp member
      obtain ⟨-, property, value⟩ := written e listed
      simp [Declaration.text, property, value]
    rw [declarations, styleOf, Text.splitOn_joinWith (by simp) apart, List.filterMap_map]
    rw [← List.filterMap_eq_map]
    exact List.filterMap_congr part

theorem isComputed_eq_false {style : Text} (noVariable : ¬ "var(".toList <:+: style)
    (noCalculation : ¬ "calc(".toList <:+: style) : isComputed style = false := by
  have absent {mark : Text} (absent : ¬ mark <:+: style) : (Text.cut? mark style).isSome = false := by
    rw [Option.isSome_eq_false_iff, Option.isNone_iff_eq_none]
    by_contra found
    obtain ⟨⟨before, rest⟩, cut⟩ := Option.ne_none_iff_exists'.mp found
    exact absent ⟨before, rest, (Text.eq_append_of_cut? cut).symm⟩
  rw [isComputed, absent noVariable, absent noCalculation]
  rfl

end Shrink

/-! ## Regular tags -/

/-- After blanks, with a simple key and the value in quotes right after it, where no mark of markup stands. -/
structure SpelledAttribute.Regular (a : SpelledAttribute) : Prop where
  apart : a.before ≠ []
  before : ∀ c ∈ a.before, Text.isBlank c = true
  named : a.key ≠ []
  key : SimpleName a.key
  between : a.between = []
  after : a.after = []
  raw : Free ['"', '\'', '<', '>', '&'] a.raw

instance (a : SpelledAttribute) : Decidable a.Regular :=
  decidable_of_iff (a.before ≠ [] ∧ (∀ c ∈ a.before, Text.isBlank c = true) ∧ a.key ≠ [] ∧ SimpleName a.key ∧
      a.between = [] ∧ a.after = [] ∧ Free ['"', '\'', '<', '>', '&'] a.raw)
    ⟨fun ⟨apart, before, named, key, between, after, raw⟩ => ⟨apart, before, named, key, between, after, raw⟩,
      fun h => ⟨h.apart, h.before, h.named, h.key, h.between, h.after, h.raw⟩⟩

/-- A tag of regular attributes, no two of one key, with a simple name. -/
structure SpelledTag.Regular (t : SpelledTag) : Prop where
  named : t.name ≠ []
  name : SimpleName t.name
  attributes : ∀ a ∈ t.attributes, a.Regular
  once : t.keys.Nodup
  blanks : ∀ c ∈ t.blanks, Text.isBlank c = true

instance (t : SpelledTag) : Decidable t.Regular :=
  decidable_of_iff (t.name ≠ [] ∧ SimpleName t.name ∧ (∀ a ∈ t.attributes, a.Regular) ∧ t.keys.Nodup ∧
      ∀ c ∈ t.blanks, Text.isBlank c = true)
    ⟨fun ⟨named, name, attributes, once, blanks⟩ => ⟨named, name, attributes, once, blanks⟩,
      fun h => ⟨h.named, h.name, h.attributes, h.once, h.blanks⟩⟩

theorem SpelledAttribute.Regular.loose {a : SpelledAttribute} (regular : a.Regular) : a.Loose := by
  have quote : a.quote.char ∉ a.raw := regular.raw.not_mem (by cases a.quote <;> decide)
  have none {u : Text} (empty : u = []) : ∀ c ∈ u, Text.isBlank c = true := by
    rw [empty]
    exact fun c member => absurd member List.not_mem_nil
  exact ⟨regular.apart, regular.before, regular.key.plain regular.named, regular.key.noBlank, none regular.between,
    none regular.after, quote⟩

/-- The parts of a style without marks of markup are regular attributes. -/
theorem regular_partsOfStyle {style : Text} (free : Free ['"', '\'', '<', '>', '&'] style) (existing : List Text) :
    ∀ b ∈ Shrink.partsOfStyle existing style, b.Regular := by
  intro b member
  obtain ⟨same, key, raw⟩ := Shrink.mem_partsOfStyle member
  have simple : ∀ name ∈ Shrink.presentationProperties, name ≠ [] ∧ SimpleName name := by decide
  have named : b.key ≠ [] ∧ SimpleName b.key := by
    rcases key with presented | style
    · exact simple b.key presented
    · rw [style]
      decide
  have joins : ∀ c ∈ [';', ' ', ':'], c ∉ ['"', '\'', '<', '>', '&'] := by decide
  have blank : ∀ c ∈ [' '], Text.isBlank c = true := by decide
  rw [same]
  exact ⟨List.cons_ne_nil _ _, blank, named.1, named.2, rfl, rfl, fun c inside =>
    (raw c inside).elim (free c) (joins c)⟩

namespace SpelledTag

variable {t : SpelledTag} {front back : List SpelledAttribute} {style : SpelledAttribute}

/-- The tag with the declarations that can be lifted in the place of its style, and the others in one style after them. -/
def lifting (t : SpelledTag) (front : List SpelledAttribute) (ds : List Shrink.Declaration)
    (back : List SpelledAttribute) : SpelledTag :=
  t.withStyle front ((ds.filter (Shrink.isLiftable t.keys)).map Shrink.liftedAttribute ++
    Shrink.keptStyle (ds.filter (!Shrink.isLiftable t.keys ·))) back

namespace Regular

theorem loose (regular : t.Regular) : t.Loose :=
  ⟨regular.name.plain regular.named, regular.name.noBlank, fun a member => (regular.attributes a member).loose,
    fun a member => (regular.attributes a member).raw.not_mem (by decide), regular.blanks⟩

theorem takeWhile_name (regular : t.Regular) : t.name.takeWhile Shrink.isNamePart = t.name :=
  List.takeWhile_eq_self_iff.mpr fun c member => (letter_of_isSimpleChar (regular.name c member)).part

/-- The names around the style are the keys of the other attributes. -/
theorem namesAround_eq (regular : t.Regular) (attributes : t.attributes = front ++ style :: back)
    (noEquals : ∀ a ∈ front ++ back, '=' ∉ a.raw) {close : Text} (closes : close = [] ∨ close = ['/']) :
    t.namesAround front back close = (front ++ back).map SpelledAttribute.key := by
  have listed (a : SpelledAttribute) (member : a ∈ front ++ back) : a.Regular := by
    refine regular.attributes a ?_
    rw [attributes]
    exact (List.mem_append.mp member).elim (List.mem_append_left _) fun inBack =>
      List.mem_append_right _ (List.mem_cons_of_mem style inBack)
  have keys {as : List SpelledAttribute} (part : ∀ a ∈ as, a ∈ front ++ back) {s : Text} (rest : '=' ∉ s) :=
    SpelledAttribute.namesBeforeEquals_eq_keys (fun a (member : a ∈ as) => (listed a (part a member)).loose)
      (fun a member c inside => (letter_of_isSimpleChar ((listed a (part a member)).key c inside)).part)
      (fun a member => noEquals a (part a member)) rest
  have tail : t.name.dropWhile Shrink.isNamePart = [] := by
    rw [List.dropWhile_eq_nil_iff]
    exact fun c member => (letter_of_isSimpleChar (regular.name c member)).part
  have ending : '=' ∉ t.blanks ++ close := by
    have blanks : '=' ∉ t.blanks := fun member => absurd (regular.blanks _ member) (by decide)
    rcases closes with rfl | rfl <;> simp [blanks]
  have inFront := keys (fun a member => List.mem_append_left back member) (s := []) List.not_mem_nil
  rw [List.append_nil] at inFront
  rw [namesAround, tail, List.nil_append, inFront, keys (fun a member => List.mem_append_right front member) ending,
    List.map_append]

/-- What can be lifted among the names around the style is what the tag lacks. -/
theorem isLiftable_eq (attributes : t.attributes = front ++ style :: back) (key : style.key = styleKey) :
    Shrink.isLiftable ((front ++ back).map SpelledAttribute.key) = Shrink.isLiftable t.keys := by
  funext d
  have other : d.property ∈ Shrink.presentationProperties → d.property ≠ styleKey := by
    have absent : styleKey ∉ Shrink.presentationProperties := by decide
    exact fun presented same => absent (same ▸ presented)
  rw [Bool.eq_iff_iff, Shrink.isLiftable, Shrink.isLiftable, Bool.and_eq_true, Bool.and_eq_true, List.contains_iff_mem]
  refine and_congr_right fun presented => ?_
  simp [SpelledTag.keys, attributes, key, other presented]

theorem styledAt (regular : t.Regular) (attributes : t.attributes = front ++ style :: back)
    (key : style.key = styleKey) (noEquals : ∀ a ∈ front ++ back, '=' ∉ a.raw) : t.StyledAt front style back := by
  have listed : style ∈ t.attributes := by simp [attributes]
  have here := regular.attributes style listed
  have once := regular.once
  rw [SpelledTag.keys, attributes, List.map_append, List.map_cons, key] at once
  refine ⟨attributes, ⟨key, here.between, here.after⟩, fun b member other => ?_, fun b member => ?_,
    here.raw.mono (by decide), fun b member => (regular.attributes b member).raw.not_mem (by decide)⟩
  · exact (List.nodup_append.mp once).2.2 styleKey (other.key ▸ List.mem_map_of_mem member) styleKey
      List.mem_cons_self rfl
  · exact SpelledAttribute.styleless_of_not_infix fun inside =>
      noEquals b (List.mem_append_left back member) (inside.subset (by decide))

/-- The tag with what is lifted in it is regular, if no property is declared twice. -/
theorem lifting (regular : t.Regular) (attributes : t.attributes = front ++ style :: back)
    (key : style.key = styleKey) (once : ((Shrink.declarations style.raw).map Shrink.Declaration.property).Nodup) :
    (t.lifting front (Shrink.declarations style.raw) back).Regular := by
  have listed : style ∈ t.attributes := by simp [attributes]
  have parts := regular_partsOfStyle (regular.attributes style listed).raw ((front ++ back).map SpelledAttribute.key)
  rw [Shrink.partsOfStyle, isLiftable_eq attributes key] at parts
  refine ⟨regular.named, regular.name, fun b member => ?_, ?_, regular.blanks⟩
  · exact (mem_withStyle attributes member).elim (regular.attributes b) (parts b)
  · refine (nodup_keys_withStyle_iff attributes key regular.once fun d chosen => ?_).mpr
      (once.sublist (List.filter_sublist.map _))
    have new := (Bool.and_eq_true_iff.mp (List.mem_filter.mp chosen).2).2
    simpa using new

end Regular

end SpelledTag

/-- How start tags and empty tags end. -/
theorem exists_close {tag : Text → Piece} (kind : tag = .startTag ∨ tag = .emptyTag) :
    ∃ close, (close = [] ∨ close = ['/']) ∧ ∀ u, (tag u).source = '<' :: (u ++ (close ++ ['>'])) := by
  rcases kind with rfl | rfl
  · exact ⟨[], .inl rfl, fun u => rfl⟩
  · exact ⟨['/'], .inr rfl, fun u => rfl⟩

/--
In a regular tag with a list of declarations as its style, and with no equals sign in any other value, the
declarations that can be lifted stand as attributes in the place of the style, in order and with trimmed values.
The others stay in one style after them, all other attributes stay as they are, and no two attributes have one
name. If no declaration can be lifted, the tag stays.
-/
theorem liftStyles_regular_tag {t : SpelledTag} (regular : t.Regular) {front back : List SpelledAttribute}
    {style : SpelledAttribute} (attributes : t.attributes = front ++ style :: back) (key : style.key = styleKey)
    (noEquals : ∀ a ∈ front ++ back, '=' ∉ a.raw) {ds : List Shrink.Declaration} (written : ∀ d ∈ ds, d.Written)
    (list : style.raw = Shrink.styleOf ds) (once : (ds.map fun d => d.trimmed.property).Nodup)
    (noVariable : ¬ "var(".toList <:+: style.raw) (noCalculation : ¬ "calc(".toList <:+: style.raw)
    {tag : Text → Piece} (kind : tag = .startTag ∨ tag = .emptyTag) (rest : Text) :
    ∃ t' : SpelledTag, Shrink.liftStyles ((tag t.inside).source ++ rest) =
        (tag t'.inside).source ++ Shrink.liftStyles rest ∧ t'.Regular ∧
      ((∀ d ∈ ds, Shrink.isLiftable t.keys d.trimmed = false) → t' = t) ∧
      ((∃ d ∈ ds, Shrink.isLiftable t.keys d.trimmed = true) → t' = t.lifting front (ds.map Shrink.Declaration.trimmed) back) := by
  obtain ⟨close, closes, source⟩ := exists_close kind
  have styled := regular.styledAt attributes key noEquals
  have names := regular.namesAround_eq attributes noEquals closes
  have declared := Shrink.declarations_styleOf written
  rw [← list] at declared
  simp only [source, Shrink.liftStyles]
  by_cases some : ∃ d ∈ ds, Shrink.isLiftable t.keys d.trimmed = true
  · obtain ⟨d, member, liftable⟩ := some
    have lifts : Shrink.Lifts (t.namesAround front back close) style.raw := by
      refine ⟨Shrink.isComputed_eq_false noVariable noCalculation, List.ne_nil_of_mem (a := d.trimmed) ?_⟩
      rw [names, SpelledTag.Regular.isLiftable_eq attributes key, declared]
      exact List.mem_filter.mpr ⟨List.mem_map_of_mem member, liftable⟩
    have result := regular.loose.substitute_of_lifts styled closes rest (by
      rw [regular.takeWhile_name]
      exact regular.named) lifts
    rw [names, Shrink.partsOfStyle, SpelledTag.Regular.isLiftable_eq attributes key, ← SpelledTag.lifting] at result
    refine ⟨_, result, regular.lifting attributes key ?_, fun none => ?_, fun _ => by rw [declared]⟩
    · rwa [declared, List.map_map]
    · rw [none d member] at liftable
      cases liftable
  · have idle : ¬ Shrink.Lifts (t.namesAround front back close) style.raw := by
      rintro ⟨-, found⟩
      rw [names, SpelledTag.Regular.isLiftable_eq attributes key, declared] at found
      obtain ⟨d, chosen⟩ := List.exists_mem_of_ne_nil _ found
      obtain ⟨listed, liftable⟩ := List.mem_filter.mp chosen
      obtain ⟨e, member, rfl⟩ := List.mem_map.mp listed
      exact some ⟨e, member, liftable⟩
    exact ⟨t, regular.loose.substitute_of_not_lifts styled closes rest (.inr idle), regular, fun _ => rfl,
      fun liftable => absurd liftable some⟩

/-- A tag with blanks of several kinds, and a style of which some declarations can be lifted. -/
def styledRect : SpelledTag where
  name := "rect".toList
  attributes := [⟨" ".toList, "x".toList, [], [], .double, "1".toList⟩,
    ⟨"\n\t".toList, styleKey, [], [], .double, "fill: a=b ;filter:blur;stroke-width:2;opacity:.5".toList⟩,
    ⟨"  ".toList, "stroke-width".toList, [], [], .single, "3".toList⟩]
  blanks := " ".toList

/-- The declarations in the style of that tag. -/
def styledRectDeclarations : List Shrink.Declaration :=
  [⟨"fill".toList, " a=b ".toList⟩, ⟨"filter".toList, "blur".toList⟩, ⟨"stroke-width".toList, "2".toList⟩,
    ⟨"opacity".toList, ".5".toList⟩]

theorem liftStyles_regular_tag_styledRect : styledRect.Regular ∧
    Shrink.liftStyles (Piece.emptyTag styledRect.inside).source =
      "<rect x=\"1\" fill=\"a=b\" opacity=\".5\" style=\"filter:blur; stroke-width:2\"  stroke-width='3' />".toList := by
  have regular : styledRect.Regular := by decide
  have attributes : styledRect.attributes =
      styledRect.attributes.take 1 ++ styledRect.attributes[1] :: styledRect.attributes.drop 2 := by decide
  have written : ∀ d ∈ styledRectDeclarations, d.Written := by decide
  have kind : Piece.emptyTag = .startTag ∨ Piece.emptyTag = .emptyTag := .inr rfl
  obtain ⟨t', result, -, -, same⟩ := liftStyles_regular_tag regular attributes (by decide) (by decide) written
    (by decide) (by decide) (by decide) (by decide) kind []
  refine ⟨regular, ?_⟩
  rw [List.append_nil] at result
  rw [result, same (by decide), Shrink.liftStyles, Text.substitute_nil]
  decide

end SvgEdit
