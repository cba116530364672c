import SvgEdit.Proofs.Attributes
import SvgEdit.Proofs.References

/-!
# Tags as they are spelled

A spelled tag keeps what a tag does not: the blanks in it, and its values as they are written. A
proper one is read whatever stands around it, and its attributes can be read exactly if no key
stands twice and all values can be unescaped.
-/
namespace SvgEdit

/-! ## Marks that are closed -/

/-- Every mark that opens in the text closes in it, and no `>` stands between. -/
def Balanced (front : Text) : Prop :=
  ∀ s inside rest, cutTag none s = some (inside, rest) → cutTag none (front ++ s) = some (front ++ inside, rest)

theorem balanced_nil : Balanced [] := fun _ _ _ cut => cut

theorem Balanced.append {s t : Text} (left : Balanced s) (right : Balanced t) : Balanced (s ++ t) := by
  intro u inside rest cut
  rw [List.append_assoc, List.append_assoc]
  exact left _ _ _ (right _ _ _ cut)

theorem balanced_of_unmarked {s : Text} (unmarked : ∀ c ∈ s, c ≠ '"' ∧ c ≠ '\'' ∧ c ≠ '>') : Balanced s := by
  induction s with
  | nil => exact balanced_nil
  | cons c s ih =>
    intro t inside rest cut
    obtain ⟨notDouble, notSingle, notGreater⟩ := unmarked c List.mem_cons_self
    have later := ih (fun d member => unmarked d (List.mem_cons_of_mem c member)) t inside rest cut
    have same : quoteAfter none c = none := by simp [quoteAfter, notDouble, notSingle]
    rw [List.cons_append, cutTag, if_neg fun close => notGreater close.2, same, later]
    rfl

/-- Inside a mark nothing ends the tag. -/
theorem cutTag_of_open {q : Char} {raw : Text} (closed : q ∉ raw) {s inside rest : Text}
    (cut : cutTag none s = some (inside, rest)) :
    cutTag (some q) (raw ++ q :: s) = some (raw ++ q :: inside, rest) := by
  induction raw with
  | nil =>
    rw [List.nil_append, cutTag, if_neg (by simp), quoteAfter, if_pos rfl, cut]
    rfl
  | cons c raw ih =>
    rw [List.mem_cons, not_or] at closed
    obtain ⟨other, closed⟩ := closed
    rw [List.cons_append, cutTag, if_neg (by simp), quoteAfter, if_neg (Ne.symm other), ih closed]
    rfl

theorem balanced_value (quote : QuoteMark) {raw : Text} (closed : quote.char ∉ raw) :
    Balanced (quote.char :: (raw ++ [quote.char])) := by
  intro s inside rest cut
  have opens : quoteAfter none quote.char = some quote.char := by cases quote <;> rfl
  have inner : ¬((none : Option Char) = none ∧ quote.char = '>') := by cases quote <;> decide
  rw [List.cons_append, cutTag, if_neg inner, opens, List.append_assoc, List.singleton_append,
    cutTag_of_open closed cut]
  simp

theorem Balanced.cutTag {inside : Text} (h : Balanced inside) (rest : Text) :
    cutTag none (inside ++ '>' :: rest) = some (inside, rest) := by
  have closed := h ('>' :: rest) [] rest rfl
  rwa [List.append_nil] at closed

/-! ## Plain names -/

/-- Whether a character may stand in a plain name: no blank of markup, and none that markup uses. -/
def isPlainChar (c : Char) : Bool :=
  !isSpace c && c ≠ '/' && c ≠ '=' && c ≠ '<' && c ≠ '>' && c ≠ '"' && c ≠ '\''

/-- A name of plain characters. -/
def Plain (name : Text) : Prop := name ≠ [] ∧ ∀ c ∈ name, isPlainChar c = true

instance (name : Text) : Decidable (Plain name) := inferInstanceAs (Decidable (_ ∧ _))

theorem isPlainChar_iff {c : Char} :
    isPlainChar c = true ↔ isSpace c = false ∧ c ≠ '/' ∧ c ≠ '=' ∧ c ≠ '<' ∧ c ≠ '>' ∧ c ≠ '"' ∧ c ≠ '\'' := by
  simp [isPlainChar, and_assoc]

namespace Plain

theorem balanced {name : Text} (h : Plain name) : Balanced name := by
  refine balanced_of_unmarked fun c member => ?_
  obtain ⟨-, -, -, -, notGreater, notDouble, notSingle⟩ := isPlainChar_iff.mp (h.2 c member)
  exact ⟨notDouble, notSingle, notGreater⟩

theorem noSpace {name : Text} (h : Plain name) : ∀ c ∈ name, isSpace c = false :=
  fun c member => (isPlainChar_iff.mp (h.2 c member)).1

theorem head?_ne {name : Text} (h : Plain name) {c : Char} (special : isPlainChar c = false) :
    name.head? ≠ some c := by
  intro head
  rw [h.2 c (List.mem_of_mem_head? head)] at special
  cases special

theorem getLast?_ne {name : Text} (h : Plain name) {c : Char} (special : isPlainChar c = false) :
    name.getLast? ≠ some c := by
  intro last
  rw [h.2 c (List.mem_of_getLast? last)] at special
  cases special

end Plain

/-! ## Spelled tags -/

/-- An attribute with the blanks before the key and around the equals sign. -/
structure SpelledAttribute where
  before : Text
  key : Text
  between : Text
  after : Text
  quote : QuoteMark
  raw : Text
deriving DecidableEq

/-- The inside of a tag, with the blanks at its end. -/
structure SpelledTag where
  name : Text
  attributes : List SpelledAttribute
  blanks : Text
deriving DecidableEq

def SpelledAttribute.source (a : SpelledAttribute) : Text :=
  a.before ++ (a.key ++ (a.between ++ '=' :: (a.after ++ a.quote.char :: (a.raw ++ [a.quote.char]))))

def SpelledAttribute.written (a : SpelledAttribute) : WrittenAttribute := ⟨a.key, a.raw, a.quote⟩

namespace SpelledTag

/-- All attributes, one after the other. -/
def middle (t : SpelledTag) : Text := t.attributes.flatMap SpelledAttribute.source

def inside (t : SpelledTag) : Text := t.name ++ (t.middle ++ t.blanks)

def keys (t : SpelledTag) : List Text := t.attributes.map SpelledAttribute.key

end SpelledTag

/-! ## Proper tags -/

/-- The attribute is set off by blanks, its key is plain, and its value is closed by its mark. -/
structure SpelledAttribute.Proper (a : SpelledAttribute) : Prop where
  apart : a.before ≠ []
  before : Spaces a.before
  key : Plain a.key
  between : Spaces a.between
  after : Spaces a.after
  closed : a.quote.char ∉ a.raw

structure SpelledTag.Proper (t : SpelledTag) : Prop where
  name : Plain t.name
  begins : BeginsTag t.name
  attributes : ∀ a ∈ t.attributes, a.Proper
  blanks : Spaces t.blanks

instance (a : SpelledAttribute) : Decidable a.Proper :=
  decidable_of_iff (a.before ≠ [] ∧ Spaces a.before ∧ Plain a.key ∧ Spaces a.between ∧ Spaces a.after ∧
      a.quote.char ∉ a.raw)
    ⟨fun ⟨apart, before, key, between, after, closed⟩ => ⟨apart, before, key, between, after, closed⟩,
      fun h => ⟨h.apart, h.before, h.key, h.between, h.after, h.closed⟩⟩

instance (t : SpelledTag) : Decidable t.Proper :=
  decidable_of_iff (Plain t.name ∧ BeginsTag t.name ∧ (∀ a ∈ t.attributes, a.Proper) ∧ Spaces t.blanks)
    ⟨fun ⟨name, begins, attributes, blanks⟩ => ⟨name, begins, attributes, blanks⟩,
      fun h => ⟨h.name, h.begins, h.attributes, h.blanks⟩⟩

theorem Spaces.balanced {s : Text} (h : Spaces s) : Balanced s := by
  refine balanced_of_unmarked fun c member => ?_
  have blank := h c member
  refine ⟨?_, ?_, ?_⟩ <;> (rintro rfl; cases blank)

theorem SpelledAttribute.Proper.assigns {a : SpelledAttribute} (h : a.Proper) {first : Char} {key : Text}
    (named : a.key = first :: key) (rest : Text) :
    Assigns (key ++ (a.between ++ '=' :: (a.after ++ a.quote.char :: (a.raw ++ a.quote.char :: rest)))) key a.raw
      a.quote rest := by
  refine ⟨⟨a.between, a.after, by simp, h.between, h.after⟩, fun c member => ?_, h.closed⟩
  have plain := h.key.2 c (by rw [named]; exact List.mem_cons_of_mem first member)
  obtain ⟨noSpace, -, noEquals, -⟩ := isPlainChar_iff.mp plain
  simp [endsKey, noSpace, noEquals]

theorem Assigns.unique {s key key' raw raw' rest rest' : Text} {quote quote' : QuoteMark}
    (left : Assigns s key raw quote rest) (right : Assigns s key' raw' quote' rest') :
    key = key' ∧ raw = raw' ∧ quote = quote' ∧ rest = rest' := by
  have same := (left.readAttribute [] 0 'a' rfl).symm.trans (right.readAttribute [] 0 'a' rfl)
  simp only [Except.ok.injEq, Prod.mk.injEq, WrittenAttribute.mk.injEq, List.cons.injEq, true_and,
    Spelling.mk.injEq] at same
  obtain ⟨⟨key, raw, quote⟩, rest⟩ := same
  exact ⟨key, raw, quote, rest⟩

theorem spaces_append_inj {b b' s s' : Text} {c c' : Char} (left : Spaces b) (right : Spaces b')
    (first : isSpace c = false) (first' : isSpace c' = false) (same : b ++ c :: s = b' ++ c' :: s') :
    b = b' ∧ c = c' ∧ s = s' := by
  have stop {d : Char} {t : Text} (first : isSpace d = false) : ∀ e ∈ (d :: t).head?, isSpace e = false :=
    fun e head => Option.some.inj head ▸ first
  have front := congrArg (List.takeWhile isSpace) same
  rw [Text.takeWhile_append_of_stop left (stop first), Text.takeWhile_append_of_stop right (stop first')] at front
  subst front
  have back := List.append_cancel_left same
  exact ⟨rfl, List.cons.inj back⟩

namespace SpelledAttribute

/-- The source of an attribute, its key taken apart. -/
theorem source_append {a : SpelledAttribute} {first : Char} {key : Text} (named : a.key = first :: key) (rest : Text) :
    a.source ++ rest = a.before ++ first :: (key ++ (a.between ++ '=' :: (a.after ++ a.quote.char ::
      (a.raw ++ a.quote.char :: rest)))) := by
  rw [source, named]
  simp

end SpelledAttribute

/-- Attributes that are spelled are split as they are spelled, unless a key stands twice. -/
theorem splits_spelled_iff {as : List SpelledAttribute} (proper : ∀ a ∈ as, a.Proper) {blanks : Text}
    (blank : Spaces blanks) {seen : List Text} (before : seen.Nodup) {written : List WrittenAttribute} :
    Splits seen (as.flatMap SpelledAttribute.source ++ blanks) written ↔
      written = as.map SpelledAttribute.written ∧ (seen ++ as.map SpelledAttribute.key).Nodup := by
  induction as generalizing seen written with
  | nil =>
    constructor
    · intro h
      rw [List.flatMap_nil, List.nil_append] at h
      generalize same : blanks = s at h
      cases h with
      | done => exact ⟨rfl, by simpa using before⟩
      | assign _ begins =>
        rw [blank _ (by rw [same]; simp)] at begins
        cases begins
    · rintro ⟨rfl, -⟩
      exact .done blank
  | cons a as ih =>
    have here := proper a List.mem_cons_self
    obtain ⟨first, key, named⟩ := List.exists_cons_of_ne_nil here.key.1
    have begins : isSpace first = false :=
      (isPlainChar_iff.mp (here.key.2 first (by rw [named]; exact List.mem_cons_self))).1
    have written_eq : a.written = ⟨first :: key, a.raw, a.quote⟩ := by rw [← named]; rfl
    have order : seen ++ (a :: as).map SpelledAttribute.key = (seen ++ [first :: key]) ++ as.map SpelledAttribute.key := by
      simp [named]
    have proper' : ∀ b ∈ as, b.Proper := fun b member => proper b (List.mem_cons_of_mem a member)
    have longer (new : first :: key ∉ seen) : (seen ++ [first :: key]).Nodup :=
      List.nodup_middle.mpr (List.nodup_cons.mpr ⟨by simpa using new, by simpa using before⟩)
    rw [List.flatMap_cons, List.append_assoc, a.source_append named]
    constructor
    · intro h
      generalize same : a.before ++ first :: _ = s at h
      cases h with
      | done blank' =>
        rw [blank' first (by rw [← same]; simp)] at begins
        cases begins
      | assign blank' begins' new assigns splits =>
        obtain ⟨-, rfl, rfl⟩ := spaces_append_inj here.before blank' begins begins' same
        obtain ⟨rfl, rfl, rfl, rfl⟩ := (here.assigns named _).unique assigns
        obtain ⟨rfl, once⟩ := (ih proper' (longer new)).mp splits
        exact ⟨by rw [List.map_cons, written_eq], by rwa [order]⟩
    · rintro ⟨rfl, once⟩
      rw [order] at once
      have new : first :: key ∉ seen := fun member =>
        (List.nodup_append.mp (List.nodup_append.mp once).1).2.2 _ member _ (List.mem_singleton_self _) rfl
      rw [List.map_cons, written_eq]
      exact .assign here.before begins new (here.assigns named _) ((ih proper' (longer new)).mpr ⟨rfl, once⟩)

theorem exists_unescapeAll_iff {written : List WrittenAttribute} (marks : List QuoteMark) :
    (∃ as, unescapeAll written marks = .ok as) ↔ ∀ w ∈ written, References w.spelling.raw := by
  induction written generalizing marks with
  | nil => simp [unescapeAll]
  | cons w written ih =>
    rw [List.forall_mem_cons, ← ih marks.tail, ← exists_unescape_iff]
    constructor
    · rintro ⟨as, h⟩
      obtain ⟨value, rest, read, later, -⟩ := unescapeAll_cons_eq_ok_iff.mp h
      exact ⟨⟨value, read⟩, rest, later⟩
    · rintro ⟨⟨value, read⟩, rest, later⟩
      exact ⟨_, unescapeAll_cons_eq_ok_iff.mpr ⟨value, rest, read, later, rfl⟩⟩

namespace SpelledTag.Proper

variable {t : SpelledTag}

theorem head?_rest (h : t.Proper) : ∀ c ∈ (t.middle ++ t.blanks).head?, isSpace c = true := by
  intro c head
  rw [middle] at head
  cases attributes : t.attributes with
  | nil =>
    rw [attributes] at head
    exact h.blanks c (List.mem_of_mem_head? head)
  | cons a as =>
    have here := h.attributes a (by rw [attributes]; exact List.mem_cons_self)
    obtain ⟨d, before, same⟩ := List.exists_cons_of_ne_nil here.apart
    rw [attributes, List.flatMap_cons, SpelledAttribute.source, same] at head
    obtain rfl := Option.some.inj head
    exact here.before d (by rw [same]; exact List.mem_cons_self)

theorem tagName_inside (h : t.Proper) : tagName t.inside = t.name :=
  Text.takeWhile_append_of_stop (fun c member => by rw [h.name.noSpace c member]; rfl)
    (fun c head => by rw [h.head?_rest c head]; rfl)

theorem tagAttributes_inside (h : t.Proper) : tagAttributes t.inside = t.middle ++ t.blanks :=
  Text.dropWhile_append_of_stop (fun c member => by rw [h.name.noSpace c member]; rfl)
    (fun c head => by rw [h.head?_rest c head]; rfl)

/-- The attributes of a proper tag can be read if no key stands twice and every `&` begins a reference. -/
theorem exists_readAttributes_iff (h : t.Proper) :
    (∃ as, readAttributes t.inside = .ok as) ↔ t.keys.Nodup ∧ ∀ a ∈ t.attributes, References a.raw := by
  simp only [readAttributes_eq_ok_iff, h.tagAttributes_inside]
  have split {written : List WrittenAttribute} : Splits [] (t.middle ++ t.blanks) written ↔
      written = t.attributes.map SpelledAttribute.written ∧ ([] ++ t.keys).Nodup :=
    splits_spelled_iff h.attributes h.blanks List.nodup_nil
  constructor
  · rintro ⟨as, written, splits, values⟩
    obtain ⟨rfl, once⟩ := split.mp splits
    refine ⟨once, fun a member => ?_⟩
    exact (exists_unescapeAll_iff _).mp ⟨as, values⟩ a.written (List.mem_map_of_mem member)
  · rintro ⟨once, references⟩
    have references' : ∀ w ∈ t.attributes.map SpelledAttribute.written, References w.spelling.raw := by
      intro w member
      obtain ⟨a, listed, rfl⟩ := List.mem_map.mp member
      exact references a listed
    obtain ⟨as, values⟩ := (exists_unescapeAll_iff (quoteMarks (t.middle ++ t.blanks))).mpr references'
    exact ⟨as, _, split.mpr ⟨rfl, once⟩, values⟩

theorem beginsTag_inside (h : t.Proper) : BeginsTag t.inside := by
  obtain ⟨c, name, same⟩ := List.exists_cons_of_ne_nil h.name.1
  intro d head
  rw [inside, same] at head
  exact h.begins d (by rw [same]; exact head)

theorem balanced_middle (h : t.Proper) : Balanced t.middle := by
  obtain ⟨name, attributes, blanks⟩ := t
  have proper := h.attributes
  clear h
  dsimp only at proper
  induction attributes with
  | nil => exact balanced_nil
  | cons a as ih =>
    have here := proper a List.mem_cons_self
    have later := ih fun b member => proper b (List.mem_cons_of_mem a member)
    have equals : Balanced ['='] := balanced_of_unmarked (by decide)
    have value := balanced_value a.quote here.closed
    have whole := here.before.balanced.append (here.key.balanced.append
      (here.between.balanced.append (equals.append (here.after.balanced.append value))))
    exact Balanced.append (by simpa [SpelledAttribute.source] using whole) later

theorem balanced_inside (h : t.Proper) : Balanced t.inside :=
  h.name.balanced.append (h.balanced_middle.append h.blanks.balanced)

theorem getLast?_inside (h : t.Proper) : t.inside.getLast? ≠ some '/' := by
  have blank : t.blanks.getLast? ≠ some '/' := fun last => absurd (h.blanks _ (List.mem_of_getLast? last)) (by decide)
  have middle : t.middle.getLast? ≠ some '/' := by
    obtain ⟨name, attributes, blanks⟩ := t
    clear h blank
    induction attributes with
    | nil => simp [SpelledTag.middle]
    | cons a as ih =>
      rw [SpelledTag.middle, List.flatMap_cons, List.getLast?_append]
      change (as.flatMap SpelledAttribute.source).getLast? ≠ some '/' at ih
      cases last : (as.flatMap SpelledAttribute.source).getLast? with
      | some c =>
        rw [last] at ih
        exact ih
      | none =>
        have whole : a.source = (a.before ++ (a.key ++ (a.between ++ '=' :: (a.after ++ a.quote.char :: a.raw)))) ++
            [a.quote.char] := by simp [SpelledAttribute.source]
        rw [whole, List.getLast?_concat]
        cases a.quote <;> decide
  rw [inside, List.getLast?_append, List.getLast?_append]
  cases last : t.blanks.getLast? with
  | some c =>
    rw [last] at blank
    exact blank
  | none =>
    cases last' : t.middle.getLast? with
    | some c =>
      rw [last'] at middle
      exact middle
    | none => exact h.name.getLast?_ne rfl

theorem readsBack_startTag (h : t.Proper) : (Piece.startTag t.inside).ReadsBack := by
  refine ⟨'<', _, rfl, fun rest _ => ?_⟩
  rw [List.append_assoc]
  exact read_startTag h.beginsTag_inside h.getLast?_inside (h.balanced_inside.cutTag rest)

theorem readsBack_emptyTag (h : t.Proper) : (Piece.emptyTag t.inside).ReadsBack := by
  have slash : Balanced ['/'] := balanced_of_unmarked (by decide)
  have cut := fun rest => (h.balanced_inside.append slash).cutTag rest
  refine ⟨'<', _, rfl, fun rest _ => ?_⟩
  rw [List.append_assoc]
  refine read_emptyTag ?_ h.beginsTag_inside (by simpa using cut rest)
  exact List.append_ne_nil_of_left_ne_nil h.name.1 _

end SpelledTag.Proper

/-! ## End tags -/

theorem Text.exists_dropWhileEnd (p : Char → Bool) (s : Text) :
    ∃ tail, s = dropWhileEnd p s ++ tail ∧ ∀ c ∈ tail, p c = true := by
  refine ⟨(s.reverse.takeWhile p).reverse, ?_, fun c member => List.mem_takeWhile_imp (List.mem_reverse.mp member)⟩
  rw [dropWhileEnd, ← List.reverse_append, List.takeWhile_append_dropWhile, List.reverse_reverse]

theorem Plain.endName {name blanks : Text} (h : Plain name) (blank : Spaces blanks) :
    Piece.endName (name ++ blanks) = name := by
  have stop : ∀ c ∈ name.getLast?, isSpace c = false := fun c last => h.noSpace c (List.mem_of_getLast? last)
  rw [Piece.endName, Text.dropWhileEnd_append_of_stop blank stop]
  exact if_neg h.1

theorem Plain.readsBack_endTag {name blanks : Text} (h : Plain name) (blank : Spaces blanks) :
    (Piece.endTag (name ++ blanks)).ReadsBack := by
  refine ⟨'<', _, rfl, fun rest _ => ?_⟩
  rw [List.cons_append, List.append_assoc]
  exact read_endTag ((h.balanced.append blank.balanced).cutTag rest)

end SvgEdit
