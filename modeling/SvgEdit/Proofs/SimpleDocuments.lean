import SvgEdit.Proofs.EditorNamespaces
import SvgEdit.Proofs.Tags

/-!
# Simple documents

A document is simple if its names are plain ASCII names, and if its texts and its values as they are
written hold none of the marks of markup. A substitution that can be followed run by run and attribute
by attribute can be followed through the source of every simple document.
-/
namespace SvgEdit

/-! ## What is simple -/

/-- Letters and digits of ASCII, `-`, `_` and `:`. -/
def isSimpleChar (c : Char) : Bool := c.isAlphanum || c = '-' || c = '_' || c = ':'

def SimpleName (name : Text) : Prop := ∀ c ∈ name, isSimpleChar c = true

instance (name : Text) : Decidable (SimpleName name) := inferInstanceAs (Decidable (∀ c ∈ name, _))

/-- A text without marks of markup. -/
def SimpleRun (run : Text) : Prop := Free ['<', '>', '&', '=', '"', '\''] run

instance (run : Text) : Decidable (SimpleRun run) := inferInstanceAs (Decidable (Free _ run))

/-- An attribute that declares no prefix, with a value that is written without marks. -/
structure Attribute.Simple (a : Attribute) : Prop where
  named : a.name ≠ []
  name : SimpleName a.name
  undeclared : ¬ Shrink.namespaceStart <:+: a.name
  value : Free ['<', '>', '=', '"', '\''] a.written.spelling.raw

structure Tag.Simple (t : Tag) : Prop where
  name : SimpleName t.name
  named : t.name = [] → t.attributes = []
  other : t.name ≠ metadataName
  attributes : ∀ a ∈ t.attributes, a.Simple

namespace Content

/-- Whether a raw piece comes first. -/
def beginsRaw : Content → Bool
  | raw _ _ => true
  | _ => false

/-- All tags are simple, and all raw pieces are simple runs, no two of them next to each other. -/
def Simple : Content → Prop
  | nil => True
  | raw run next => SimpleRun run ∧ next.beginsRaw = false ∧ next.Simple
  | element tag inside next => tag.Simple ∧ inside.Simple ∧ next.Simple

end Content

/-- One run at most stands before the root, and one after it. -/
structure Document.Simple (d : Document) : Prop where
  prolog : d.prolog.length ≤ 1
  prologRuns : ∀ run ∈ d.prolog, SimpleRun run
  tag : d.root.tag.Simple
  content : d.root.content.Simple
  epilog : d.epilog.length ≤ 1
  epilogRuns : ∀ run ∈ d.epilog, SimpleRun run

/-! ## Characters of simple parts -/

/-- What a character of simple names is, and what it is not. -/
structure Letter (c : Char) : Prop where
  plain : isPlainChar c = true
  part : Shrink.isNamePart c = true
  noBlank : Text.isBlank c = false
  noPoint : c ≠ '.'

theorem letter_of_isAlphanum {c : Char} (letter : c.isAlphanum = true) : Letter c := by
  have noBlank := Text.isBlank_of_isAlphanum letter
  have others : ∀ d ∈ ['/', '=', '<', '>', '"', '\'', '.'], c ≠ d := by
    intro d member same
    have marks : ∀ d ∈ ['/', '=', '<', '>', '"', '\'', '.'], d.isAlphanum = false := by decide
    rw [same, marks d member] at letter
    cases letter
  have noSpace : isSpace c = false := by
    by_contra space
    rw [Text.isBlank_of_isSpace (by simpa using space)] at noBlank
    cases noBlank
  have ascii : c.toNat < 128 := by
    simp only [Char.isAlphanum, Char.isAlpha, Char.isUpper, Char.isLower, Char.isDigit, Bool.or_eq_true,
      Bool.and_eq_true, decide_eq_true_eq, UInt32.le_iff_toNat_le] at letter
    simp at letter
    have number : c.toNat = c.val.toNat := rfl
    omega
  refine ⟨isPlainChar_iff.mpr ⟨noSpace, ?_⟩, ?_, noBlank, others '.' (by decide)⟩
  · exact ⟨others _ (by decide), others _ (by decide), others _ (by decide), others _ (by decide),
      others _ (by decide), others _ (by decide)⟩
  · rw [Shrink.isNamePart, Text.isWord_of_isAlphanum ascii letter]
    rfl

theorem letter_of_isSimpleChar {c : Char} (simple : isSimpleChar c = true) : Letter c := by
  simp only [isSimpleChar, Bool.or_eq_true, decide_eq_true_eq] at simple
  rcases simple with ((letter | rfl) | rfl) | rfl
  · exact letter_of_isAlphanum letter
  all_goals exact ⟨by decide, by decide, by decide, by decide⟩

namespace SimpleName

variable {name : Text}

theorem plain (h : SimpleName name) (named : name ≠ []) : Plain name :=
  ⟨named, fun c member => (letter_of_isSimpleChar (h c member)).plain⟩

theorem noBlank (h : SimpleName name) : ∀ c ∈ name, Text.isBlank c = false :=
  fun c member => (letter_of_isSimpleChar (h c member)).noBlank

theorem noBlank_append (h : SimpleName name) {u : Text} (noBlank : ∀ c ∈ u, Text.isBlank c = false) :
    ∀ c ∈ u ++ name, Text.isBlank c = false :=
  fun c member => (List.mem_append.mp member).elim (noBlank c) (h.noBlank c)

theorem steady (h : SimpleName name) : Steady name :=
  steady_of_chars h.noBlank fun member => (letter_of_isSimpleChar (h _ member)).noPoint rfl

theorem not_mem (h : SimpleName name) {c : Char} (special : isPlainChar c = false) : c ∉ name := by
  intro member
  rw [(letter_of_isSimpleChar (h c member)).plain] at special
  cases special

end SimpleName

theorem Attribute.getLast?_source (a : Attribute) : a.source.getLast? = some a.written.spelling.quote.char := by
  have whole : a.source = ' ' :: (a.name ++ '=' :: a.written.spelling.quote.char :: a.written.spelling.raw) ++
      [a.written.spelling.quote.char] := by
    rw [a.source_eq]
    simp
  rw [whole, List.getLast?_concat]

namespace Attribute.Simple

variable {a : Attribute}

theorem proper (h : a.Simple) : a.spelledOut.Proper := by
  have none : Spaces [] := fun _ member => absurd member List.not_mem_nil
  have one : Spaces [' '] := by unfold Spaces; decide
  refine ⟨List.cons_ne_nil _ _, one, h.name.plain h.named, none, none, h.value.not_mem ?_⟩
  change a.written.spelling.quote.char ∈ _
  cases a.written.spelling.quote <;> decide

theorem source_spelledOut (a : Attribute) : a.spelledOut.source = a.source := by
  rw [a.source_eq]
  simp [SpelledAttribute.source, spelledOut]

theorem bracket_not_mem (h : a.Simple) {c : Char} (bracket : c = '<' ∨ c = '>') : c ∉ a.source := by
  have quote : c ≠ a.written.spelling.quote.char := by
    rcases bracket with rfl | rfl <;> cases a.written.spelling.quote <;> decide
  have value : c ∉ a.written.spelling.raw := h.value.not_mem (by rcases bracket with rfl | rfl <;> decide)
  have name : c ∉ a.name := h.name.not_mem (by rcases bracket with rfl | rfl <;> decide)
  have others : c ≠ ' ' ∧ c ≠ '=' := by rcases bracket with rfl | rfl <;> decide
  rw [a.source_eq]
  simp [quote, value, name, others]

end Attribute.Simple

/-! ## Substituting in simple documents -/

/-- The tag with each of its attributes rewritten or left out. -/
def Tag.rewrite (onAttribute : Attribute → Option Attribute) (t : Tag) : Tag :=
  { t with attributes := t.attributes.filterMap onAttribute }

theorem Tag.Simple.rewrite {onAttribute : Attribute → Option Attribute}
    (still : ∀ a b : Attribute, a.Simple → onAttribute a = some b → b.Simple) {t : Tag} (h : t.Simple) :
    (t.rewrite onAttribute).Simple := by
  refine ⟨h.name, fun empty => ?_, h.other, fun b member => ?_⟩
  · rw [Tag.rewrite, h.named empty]
    rfl
  · obtain ⟨a, listed, found⟩ := List.mem_filterMap.mp member
    exact still a b (h.attributes a listed) found

namespace Content

variable (onRun : Text → Text) (onAttribute : Attribute → Option Attribute)

/-- The content with runs and attributes rewritten. -/
def rewrite : Content → Content
  | nil => nil
  | raw run next => raw (onRun run) next.rewrite
  | element tag inside next => element (tag.rewrite onAttribute) inside.rewrite next.rewrite

theorem rewrite_eq_nil_iff (c : Content) : c.rewrite onRun onAttribute = nil ↔ c = nil := by
  cases c <;> simp [rewrite]

theorem beginsRaw_rewrite (c : Content) : (c.rewrite onRun onAttribute).beginsRaw = c.beginsRaw := by
  cases c <;> rfl

theorem rewrite_id (c : Content) : c.rewrite id some = c := by
  induction c with
  | nil => rfl
  | raw run next ih => rw [rewrite, ih]; rfl
  | element tag inside next ihInside ihNext => rw [rewrite, ihInside, ihNext, Tag.rewrite, List.filterMap_some]

end Content

/-- The document with runs and attributes rewritten. -/
def Document.rewrite (onRun : Text → Text) (onAttribute : Attribute → Option Attribute) (d : Document) : Document :=
  ⟨d.prolog.map onRun, ⟨d.root.tag.rewrite onAttribute, d.root.content.rewrite onRun onAttribute⟩, d.epilog.map onRun⟩

theorem Document.rewrite_id (d : Document) : d.rewrite id some = d := by
  simp [rewrite, Content.rewrite_id, Tag.rewrite]

theorem Content.head?_source {c : Content} (other : c.beginsRaw = false) {s : Text} (stop : ∀ d ∈ s.head?, d = '<') :
    ∀ d ∈ (c.source ++ s).head?, d = '<' := by
  cases c with
  | nil => exact stop
  | raw run next => cases other
  | element tag inside next => exact fun d head => (Option.some.inj head).symm

/-- What follows a name or a value in a tag as it is written. -/
def tagStops : Text := [' ', '>', '/']

/-- A substitution that goes through simple documents run by run and attribute by attribute. -/
structure Passes (step : Text.Step) (onRun : Text → Text) (onAttribute : Attribute → Option Attribute) : Prop where
  run : ∀ u, SimpleRun u → ∀ s, (∀ c ∈ s.head?, c = '<') →
    Text.substitute step (u ++ s) = onRun u ++ Text.substitute step s
  opening : ∀ name, SimpleName name → name ≠ metadataName → ∀ c ∈ tagStops, (name = [] → c ≠ ' ') →
    ∀ s, Text.Idle step ('<' :: name) (c :: s)
  single : ∀ a : Attribute, a.Simple → ∀ c ∈ tagStops, ∀ s, Text.substitute step (a.source ++ c :: s) =
    Attributes.source (onAttribute a).toList ++ Text.substitute step (c :: s)
  closing : ∀ name, SimpleName name → ∀ s, Text.Idle step ('<' :: '/' :: name) ('>' :: s)
  ending : ∀ s, Text.Idle step ['/', '>'] s

namespace Passes

variable {step : Text.Step} {onRun : Text → Text} {onAttribute : Attribute → Option Attribute}

theorem attributes (h : Passes step onRun onAttribute) {as : Attributes} (simple : ∀ a ∈ as, a.Simple) {c : Char}
    (stop : c ∈ tagStops) (s : Text) : Text.substitute step (as.source ++ c :: s) =
      Attributes.source (as.filterMap onAttribute) ++ Text.substitute step (c :: s) := by
  induction as with
  | nil => rfl
  | cons a as ih =>
    have later := ih fun b member => simple b (List.mem_cons_of_mem a member)
    have here (d : Char) (stops : d ∈ tagStops) (u : Text) :=
      h.single a (simple a List.mem_cons_self) d stops u
    have parts : Attributes.source ((a :: as).filterMap onAttribute) =
        Attributes.source (onAttribute a).toList ++ Attributes.source (as.filterMap onAttribute) := by
      cases found : onAttribute a <;> simp [found, Attributes.source]
    rw [Attributes.source_cons, List.append_assoc, parts, List.append_assoc, ← later]
    cases as with
    | nil => exact here c stop s
    | cons b as =>
      have source : Attributes.source (b :: as) ++ c :: s =
          ' ' :: (b.source.tail ++ (Attributes.source as ++ c :: s)) := by
        rw [Attributes.source_cons, b.source_eq]
        simp
      rw [source]
      exact here ' ' (by decide) _

theorem tag (h : Passes step onRun onAttribute) {t : Tag} (simple : t.Simple) {c : Char} (stop : c = '>' ∨ c = '/')
    (s : Text) : Text.substitute step ('<' :: (t.inside ++ c :: s)) =
      '<' :: ((t.rewrite onAttribute).inside ++ Text.substitute step (c :: s)) := by
  have stops : c ∈ tagStops := by rcases stop with rfl | rfl <;> decide
  have attributes := h.attributes simple.attributes stops s
  have opening : Text.Idle step ('<' :: t.name) (t.attributes.source ++ c :: s) := by
    cases same : t.attributes with
    | nil =>
      refine h.opening t.name simple.name simple.other c stops (fun _ => ?_) s
      rcases stop with rfl | rfl <;> decide
    | cons a as =>
      have named : t.name ≠ [] := fun empty => by
        rw [simple.named empty] at same
        cases same
      rw [Attributes.source_cons, a.source_eq]
      exact h.opening t.name simple.name simple.other ' ' (by decide) (fun empty => absurd empty named) _
  have whole := opening.substitute
  rw [attributes] at whole
  simpa [Tag.inside, Tag.rewrite] using whole

theorem element (h : Passes step onRun onAttribute) {t : Tag} (simple : t.Simple) {inside : Text} {inside' : Text}
    (inner : ∀ s, Text.substitute step (inside ++ '<' :: s) = inside' ++ Text.substitute step ('<' :: s)) (empty : Bool)
    (s : Text) : Text.substitute step (t.enclose empty inside ++ s) =
      (t.rewrite onAttribute).enclose empty inside' ++ Text.substitute step s := by
  by_cases short : t.selfClosing = true ∧ empty = true
  · have start := h.tag simple (c := '/') (.inr rfl) ('>' :: s)
    have ending : Text.substitute step ('/' :: '>' :: s) = '/' :: '>' :: Text.substitute step s :=
      (h.ending s).substitute
    rw [ending] at start
    simpa [Tag.enclose, Tag.rewrite, Tag.inside, short] using start
  · have greater (u : Text) : Text.substitute step ('>' :: u) = '>' :: Text.substitute step u :=
      (Text.idle_append_iff (u := ['/']) |>.mp (h.ending u)).2.substitute
    have start := h.tag simple (c := '>') (.inl rfl) (inside ++ '<' :: '/' :: (t.name ++ '>' :: s))
    have finish := (h.closing t.name simple.name s).substitute
    rw [List.cons_append, List.cons_append] at finish
    rw [greater, inner, finish, greater] at start
    have short' : ¬ ((t.rewrite onAttribute).selfClosing = true ∧ empty = true) := short
    rw [Tag.enclose, Tag.enclose, if_neg short, if_neg short']
    simpa [Tag.rewrite, Tag.inside] using start

/-- A substitution goes through simple content piece by piece. -/
theorem content (h : Passes step onRun onAttribute) {c : Content} (simple : c.Simple) {s : Text}
    (stop : ∀ d ∈ s.head?, d = '<') : Text.substitute step (c.source ++ s) =
      (c.rewrite onRun onAttribute).source ++ Text.substitute step s := by
  induction c generalizing s with
  | nil => rfl
  | raw run next ih =>
    obtain ⟨simple, other, simpleNext⟩ := simple
    rw [Content.source, List.append_assoc, h.run run simple _ (Content.head?_source other stop), ih simpleNext stop,
      Content.rewrite, Content.source, List.append_assoc]
  | element tag inside next ihInside ihNext =>
    obtain ⟨simple, simpleInside, simpleNext⟩ := simple
    have inner (u : Text) := ihInside simpleInside (s := '<' :: u) fun d head => (Option.some.inj head).symm
    rw [Content.source, List.append_assoc, h.element simple inner, ihNext simpleNext stop, Content.rewrite,
      Content.source, List.append_assoc]
    simp only [Content.rewrite_eq_nil_iff]

/-- A substitution goes through a simple document piece by piece. -/
theorem document (h : Passes step onRun onAttribute) {d : Document} (simple : d.Simple) :
    Text.substitute step d.source = (d.rewrite onRun onAttribute).source := by
  have runs {runs : List Text} (few : runs.length ≤ 1) (all : ∀ run ∈ runs, SimpleRun run) {s : Text}
      (stop : ∀ d ∈ s.head?, d = '<') :
      Text.substitute step (runs.flatten ++ s) = (runs.map onRun).flatten ++ Text.substitute step s := by
    match runs with
    | [] => rfl
    | [run] => simpa using h.run run (all run List.mem_cons_self) s stop
  have inner (u : Text) := h.content simple.content (s := '<' :: u) fun d head => (Option.some.inj head).symm
  have root (s : Text) := h.element simple.tag inner (d.root.content = .nil) s
  have last : Text.substitute step d.epilog.flatten = (d.epilog.map onRun).flatten := by
    simpa [Text.substitute_nil] using runs simple.epilog simple.epilogRuns (s := []) fun d head => nomatch head
  have begins : ∀ c ∈ (d.root.source ++ d.epilog.flatten).head?, c = '<' := fun c head =>
    (Option.some.inj head).symm
  rw [Document.source, List.append_assoc, runs simple.prolog simple.prologRuns begins, Element.source, root, last]
  simp [Document.source, Document.rewrite, Element.source, Content.rewrite_eq_nil_iff]

end Passes

end SvgEdit
