import SvgEdit.Proofs.SimpleDocuments
import SvgEdit.Shrink.Report

/-!
# Light shrinking cleans the tree

On the source of a simple document, the passes of the light level do to the text what one walk through
the tree does: attributes without a value go, texts of blanks go, and every other run of blanks becomes
one space.
-/
namespace SvgEdit

/-! ## Runs of blanks -/

namespace Text

/-- The longest parts whose characters are all blank or all not blank, in order. -/
def stretches (s : Text) : List Text := s.splitBy fun c d => isBlank c == isBlank d

/-- One space for every stretch of two blanks or more. -/
def condense (s : Text) : Text :=
  s.stretches.flatMap fun part => if isBlankText part ∧ 2 ≤ part.length then [' '] else part

theorem stretches_append {u s : Text} (apart : ∀ c ∈ u.getLast?, ∀ d ∈ s.head?, isBlank c ≠ isBlank d) :
    (u ++ s).stretches = u.stretches ++ s.stretches := by
  refine List.splitBy_append fun c last d head => ?_
  simpa using apart c last d head

theorem stretches_of_alike {u : Text} (nonempty : u ≠ []) {blank : Bool} (alike : ∀ c ∈ u, isBlank c = blank) :
    u.stretches = [u] := by
  refine List.splitBy_of_isChain nonempty (List.Pairwise.isChain ?_)
  refine List.pairwise_iff_getElem.mpr fun i j hi hj _ => ?_
  simp [alike _ (List.getElem_mem hi), alike _ (List.getElem_mem hj)]

/-- A stretch at the beginning of a text. -/
theorem condense_append_of_alike {u s : Text} (nonempty : u ≠ []) {blank : Bool} (alike : ∀ c ∈ u, isBlank c = blank)
    (stop : ∀ d ∈ s.head?, isBlank d ≠ blank) :
    condense (u ++ s) = (if isBlankText u ∧ 2 ≤ u.length then [' '] else u) ++ condense s := by
  rw [condense, stretches_append, stretches_of_alike nonempty alike]
  · rfl
  · intro c last d head
    rw [alike c (List.mem_of_getLast? last)]
    exact (stop d head).symm

end Text

/-! ## Cleaning -/

/-- The attribute with the blanks in its value, as it is written, condensed. -/
def Attribute.condensed (a : Attribute) : Attribute :=
  let raw := Text.condense a.written.spelling.raw
  ⟨a.name, (unescape raw).toOption.getD a.value, some ⟨raw, a.written.spelling.quote⟩⟩

/-- Whether anything is written between the quotes. -/
def Attribute.hasText (a : Attribute) : Bool := a.written.spelling.raw ≠ []

/--
The tag without attributes of empty value, with the blanks in values condensed. It stays an empty tag if
it was written as one.
-/
def Tag.cleaned (empty : Bool) (t : Tag) : Tag where
  name := t.name
  attributes := (t.attributes.filter Attribute.hasText).map Attribute.condensed
  selfClosing := t.selfClosing && empty

/-- The content with all tags cleaned, without runs of blanks, and with the blanks in other runs condensed. -/
def Content.cleaned : Content → Content
  | nil => nil
  | raw run next => if Text.isBlankText run then next.cleaned else raw (Text.condense run) next.cleaned
  | element tag inside next => element (tag.cleaned (inside = nil)) inside.cleaned next.cleaned

/-- The document with its root cleaned, and with the blanks around the root condensed. -/
def Document.cleaned (d : Document) : Document where
  prolog := d.prolog.map Text.condense
  root := ⟨d.root.tag.cleaned (d.root.content = .nil), d.root.content.cleaned⟩
  epilog := d.epilog.map Text.condense

namespace Shrink

/-! ## Removals -/

/-- A step that begins nowhere in simple markup but between tags leaves simple documents as they are. -/
theorem passes_of_atMarkup {step : Text.Step} (at_ : AtMarkup step)
    (opening : ∀ name, SimpleName name → name ≠ metadataName → ∀ c ∈ tagStops, ∀ s, step ('<' :: (name ++ c :: s)) = none)
    (closing : ∀ s, step ('<' :: '/' :: s) = none) : Passes step id some where
  run u simple s _ := (at_.idle (simple.not_mem (by decide)) s).substitute
  opening name simple other c stop _ s := at_.idle_markup (opening name simple other c stop s) (simple.not_mem (by decide))
  single a simple c _ s := by
    rw [(at_.idle (simple.bracket_not_mem (by decide)) (c :: s)).substitute]
    simp [Attributes.source]
  closing name simple s := by
    have noLess : '<' ∉ '/' :: name := by simpa using simple.not_mem (by decide)
    exact at_.idle_markup (closing _) noLess
  ending s := at_.idle (by decide) s

theorem passes_comments : Passes (removal afterComment?) id some := by
  refine passes_of_atMarkup afterComment?_atMarkup (fun name simple other c stop s => ?_) fun s => ?_
  · have first : ∀ d ∈ (name ++ c :: s).head?, d ≠ '!' := by
      rintro d head rfl
      cases name with
      | nil =>
        obtain rfl := Option.some.inj head
        revert stop
        decide
      | cons e name =>
        obtain rfl := Option.some.inj head
        exact absurd (simple _ List.mem_cons_self) (by decide)
    cases same : name ++ c :: s with
    | nil => rfl
    | cons d u => simp [removal, afterComment?, Text.dropPrefix?, first d (by rw [same]; rfl)]
  · simp [removal, afterComment?, Text.dropPrefix?]

theorem passes_metadata : Passes (removal afterMetadata?) id some := by
  refine passes_of_atMarkup afterMetadata?_atMarkup (fun name simple other c stop s => ?_) fun s => ?_
  · have marks : isSpace c = true ∨ c = '>' ∨ c = '/' := by
      revert c
      decide
    by_cases named : name = []
    · refine afterMetadata?_eq_none ?_
      have first : c ≠ 'm' := by
        rintro rfl
        revert stop
        decide
      simp [named, metadataName, Text.dropPrefix?, first]
    · rw [removal, afterMetadata?_of_ne (simple.plain named) simple.steady other (u := c :: s)
        fun d head => Option.some.inj head ▸ marks]
      rfl
  · exact afterMetadata?_eq_none (by simp [metadataName, Text.dropPrefix?])

/-- The attribute, if anything is written between its quotes. -/
def keepText (a : Attribute) : Option Attribute := Option.guard Attribute.hasText a

theorem filterMap_keepText (as : Attributes) : as.filterMap keepText = as.filter Attribute.hasText :=
  congrFun List.filterMap_eq_filter as

theorem passes_emptyAttributes : Passes (removal afterEmptyAttribute?) id keepText where
  run u simple s stop := by
    have same : removeEmptyAttributes u = u := removeEmptyAttributes_of_noEquals (simple.not_mem (by decide))
    cases s with
    | nil =>
      rw [Text.substitute_nil, List.append_nil, List.append_nil]
      exact same
    | cons c s =>
      obtain rfl := stop c rfl
      have bars : Bars '<' := ⟨by decide, by decide, by decide⟩
      have apart := removeEmptyAttributes_append bars (by decide) u s
      have missing : afterEmptyAttribute? ('<' :: s) = none := afterEmptyAttribute?_of_not_isBlank (by decide) s
      rw [same] at apart
      exact apart.trans (congrArg (u ++ ·) (remove_cons_of_none missing).symm)
  opening name simple _ c _ _ s := idle_noBlanks (simple.noBlank_append (u := ['<']) (by decide)) (c :: s)
  single a simple c stop s := by
    have steady : Steady a.spelledOut.key := simple.name.steady
    have named : ∀ d ∈ a.name, isNamePart d = true := fun d member => (letter_of_isSimpleChar (simple.name d member)).part
    rw [← Attribute.Simple.source_spelledOut]
    by_cases empty : a.written.spelling.raw = []
    · have found := SpelledAttribute.afterEmptyAttribute?_source simple.proper steady ⟨empty, named⟩ (c :: s)
      have nothing : keepText a = none := by simp [keepText, Attribute.hasText, empty]
      rw [nothing]
      have begins : ∃ u, a.spelledOut.source = ' ' :: u := ⟨_, rfl⟩
      obtain ⟨u, begins⟩ := begins
      rw [begins] at found ⊢
      exact remove_cons_of_some found (by simp)
    · have kept : keepText a = some a := by simp [keepText, Attribute.hasText, empty]
      have noEquals : '=' ∉ a.written.spelling.raw := simple.value.not_mem (by decide)
      have follows : ∀ d ∈ (c :: s).head?, isQuote d = false := by
        intro d head
        obtain rfl := Option.some.inj head
        have marks : ∀ d ∈ tagStops, isQuote d = false := by decide
        exact marks c stop
      rw [kept, (SpelledAttribute.idle_afterEmptyAttribute? simple.proper steady
        (removeEmptyAttributes_of_noEquals noEquals) (fun bare => empty bare.1) follows).substitute,
        Attribute.Simple.source_spelledOut]
      simp [Attributes.source]
  closing name simple s := idle_noBlanks (simple.noBlank_append (u := ['<', '/']) (by decide)) ('>' :: s)
  ending s := idle_noBlanks (by decide) s

theorem passes_editorNamespaces : Passes (removal afterEditorNamespace?) id some where
  run u simple s stop := by
    refine (idle_undeclared (undeclared_of_noEquals (simple.not_mem (by decide))) fun c head => ?_).substitute
    obtain rfl := stop c head
    exact ⟨⟨by decide, by decide, by decide⟩, by decide⟩
  opening name simple _ c stop _ s := by
    have first (u : Text) : Text.Idle (removal afterEditorNamespace?) ['<'] u := idle_others (by decide) u
    refine Text.idle_append_iff (u := ['<']).mpr ⟨first _, ?_⟩
    by_cases named : name = []
    · rw [named]
      trivial
    · refine removesEditorNamespaces.name name (simple.plain named) simple.steady (c :: s) fun d head => ?_
      obtain rfl := Option.some.inj head
      have marks : ∀ d ∈ tagStops, isSpace d = true ∨ d = '>' ∨ d = '/' := by decide
      exact marks c stop
  single a simple c _ s := by
    have undeclared : ¬ namespaceStart <:+: a.spelledOut.key := simple.undeclared
    have other : ¬ a.spelledOut.DeclaresEditor := by
      rintro ⟨⟨name, -, key⟩, -⟩
      exact undeclared (key ▸ (List.prefix_append _ _).isInfix)
    have keyEnd : ∀ name ∈ editorNames, ¬ namespaceStart ++ name <:+ a.spelledOut.key.tail := fun name _ ends =>
      undeclared ((List.prefix_append _ _).isInfix.trans (ends.trans (List.tail_suffix _)).isInfix)
    have value : Text.Idle (removal afterEditorNamespace?) a.spelledOut.raw (a.spelledOut.quote.char :: c :: s) :=
      SpelledAttribute.idle_value _ (undeclared_quoted (simple.value.not_mem (by decide)) _) (c :: s)
    have idle := SpelledAttribute.idle_afterEditorNamespace? simple.proper simple.name.steady keyEnd other value
    rw [← Attribute.Simple.source_spelledOut, idle.substitute, Attribute.Simple.source_spelledOut]
    simp [Attributes.source]
  closing name simple s := by
    have first (u : Text) : Text.Idle (removal afterEditorNamespace?) ['<', '/'] u := idle_others (by decide) u
    refine Text.idle_append_iff (u := ['<', '/']).mpr ⟨first _, ?_⟩
    by_cases named : name = []
    · rw [named]
      trivial
    · exact removesEditorNamespaces.name name (simple.plain named) simple.steady ('>' :: s) fun d head =>
        .inr (.inl (Option.some.inj head).symm)
  ending s := idle_others (by decide) s

/-! ## Blanks -/

/-- Nothing is found where the first character after the blanks is not the mark. -/
def Awaits (mark : Char) (step : Text.Step) : Prop :=
  ∀ s, (∀ c ∈ (s.dropWhile Text.isBlank).head?, c ≠ mark) → step s = none

/-- Nothing begins in a text without the mark, if the text or what follows it sets the mark apart. -/
theorem Awaits.idle {mark : Char} {step : Text.Step} (awaits : Awaits mark step) {u : Text} (absent : mark ∉ u) {s : Text}
    (apart : (∀ c ∈ u.getLast?, Text.isBlank c = false) ∨ ∀ c ∈ s.head?, Text.isBlank c = false ∧ c ≠ mark) :
    Text.Idle step u s := by
  refine Text.idle_of_suffixes fun w ends nonempty => awaits (w ++ s) fun c head => ?_
  rw [List.dropWhile_append] at head
  split at head
  · next blank =>
    rcases apart with last | apart
    · have blank := List.dropWhile_eq_nil_iff.mp (List.isEmpty_iff.mp blank)
      have same := blank _ (List.getLast_mem nonempty)
      rw [last _ ?_] at same
      · cases same
      · obtain ⟨front, rfl⟩ := ends
        rw [List.getLast?_append_of_ne_nil _ nonempty, List.getLast?_eq_getLast_of_ne_nil nonempty]
        rfl
    · cases s with
      | nil => cases head
      | cons d s =>
        have first := apart d rfl
        rw [List.dropWhile_cons_of_neg (by simp [first.1])] at head
        obtain rfl := Option.some.inj head
        exact first.2
  · next other =>
    have member : c ∈ w.dropWhile Text.isBlank := by
      cases rest : w.dropWhile Text.isBlank with
      | nil => simp [rest] at other
      | cons d rest =>
        rw [rest] at head
        obtain rfl := Option.some.inj head
        exact List.mem_cons_self
    rintro rfl
    exact absent (ends.subset ((List.dropWhile_suffix _).subset member))

theorem awaits_equalsQuote : Awaits '=' equalsQuote? := by
  intro s first
  have missing : afterChar? '=' (s.dropWhile Text.isBlank) = none := by
    cases rest : s.dropWhile Text.isBlank with
    | nil => rfl
    | cons c rest => rw [afterChar?, if_neg (first c (by rw [rest]; rfl))]
  rw [equalsQuote?, missing]
  rfl

theorem awaits_beforeClosing : Awaits '>' beforeClosing? := by
  intro s first
  cases s with
  | nil => rfl
  | cons c s =>
    rw [beforeClosing?, afterBlanks?]
    split
    · next blank =>
      rw [List.dropWhile_cons_of_pos blank] at first
      cases rest : s.dropWhile Text.isBlank with
      | nil => rfl
      | cons d rest =>
        have other := first d (by rw [rest]; rfl)
        simp [afterChar?, other]
    · rfl

theorem last_noBlank {u : Text} (noBlank : ∀ c ∈ u, Text.isBlank c = false) : ∀ c ∈ u.getLast?, Text.isBlank c = false :=
  fun c last => noBlank c (List.mem_of_getLast? last)

theorem passes_equalsQuote : Passes equalsQuote? id some where
  run u simple s stop := by
    refine (awaits_equalsQuote.idle (simple.not_mem (by decide)) (.inr fun c head => ?_)).substitute
    obtain rfl := stop c head
    decide
  opening name simple _ c _ _ s := by
    have noBlank := simple.noBlank_append (u := ['<']) (by decide)
    have absent : '=' ∉ '<' :: name := by simpa using simple.not_mem (by decide)
    exact awaits_equalsQuote.idle absent (.inl (last_noBlank noBlank))
  single a simple c _ s := by
    let q := a.written.spelling.quote.char
    have mark : q = '"' ∨ q = '\'' := by
      change a.written.spelling.quote.char = _ ∨ a.written.spelling.quote.char = _
      cases a.written.spelling.quote <;> decide
    have markBlank : Text.isBlank q = false := (QuoteMark.bars _).noBlank
    have absent : '=' ∉ ' ' :: a.name := by simpa using simple.name.not_mem (by decide)
    have front : Text.Idle equalsQuote? (' ' :: a.name) ('=' :: q :: (a.written.spelling.raw ++ [q] ++ c :: s)) := by
      refine awaits_equalsQuote.idle absent (.inl fun d last => ?_)
      rw [List.getLast?_cons_of_ne_nil simple.named] at last
      exact last_noBlank simple.name.noBlank d last
    have absent : '=' ∉ a.written.spelling.raw ++ [q] := by
      have quote : '=' ≠ q := by rcases mark with same | same <;> rw [same] <;> decide
      simpa [quote] using simple.value.not_mem (by decide)
    have back : Text.Idle equalsQuote? (a.written.spelling.raw ++ [q]) (c :: s) :=
      awaits_equalsQuote.idle absent (.inl fun d last => by
        rw [List.getLast?_concat] at last
        exact Option.some.inj last ▸ markBlank)
    have equals : equalsQuote? ('=' :: q :: (a.written.spelling.raw ++ [q] ++ c :: s)) =
        some (['=', q], a.written.spelling.raw ++ [q] ++ c :: s) := by
      have noBlank : Text.isBlank '=' = false := by decide
      simp [equalsQuote?, afterChar?, markBlank, mark, noBlank]
    have source : a.source ++ c :: s = (' ' :: a.name) ++ '=' :: q :: (a.written.spelling.raw ++ [q] ++ c :: s) := by
      rw [a.source_eq]
      simp [q]
    rw [source, front.substitute, Text.substitute_cons_of_some equals (by simp), back.substitute]
    simp [Attributes.source, a.source_eq, q]
  closing name simple s := by
    have noBlank := simple.noBlank_append (u := ['<', '/']) (by decide)
    have absent : '=' ∉ '<' :: '/' :: name := by simpa using simple.not_mem (by decide)
    exact awaits_equalsQuote.idle absent (.inl (last_noBlank noBlank))
  ending s := awaits_equalsQuote.idle (by decide) (.inl (by decide))

theorem passes_afterOpening : Passes afterOpening? id some := by
  have elsewhere (c : Char) (other : c ≠ '<') (s : Text) : afterOpening? (c :: s) = none := by
    simp [afterOpening?, afterChar?, other]
  have idle {u : Text} (noLess : '<' ∉ u) (s : Text) : Text.Idle afterOpening? u s :=
    Text.idle_of_chars (fun c member t => elsewhere c (fun same => noLess (same ▸ member)) t) s
  have bracket (c : Char) (noBlank : Text.isBlank c = false) (s : Text) : afterOpening? ('<' :: c :: s) = none := by
    simp [afterOpening?, afterChar?, afterBlanks?, noBlank]
  refine ⟨fun u simple s _ => (idle (simple.not_mem (by decide)) s).substitute, fun name simple _ c stop named s => ?_,
    fun a simple c _ s => ?_, fun name simple s => ?_, fun s => idle (by decide) s⟩
  · refine ⟨?_, idle (simple.not_mem (by decide)) _⟩
    cases name with
    | nil =>
      have marks : ∀ d ∈ tagStops, d ≠ ' ' → Text.isBlank d = false := by decide
      exact bracket c (marks c stop (named rfl)) s
    | cons d name => exact bracket d (simple.noBlank d List.mem_cons_self) _
  · rw [(idle (simple.bracket_not_mem (by decide)) (c :: s)).substitute]
    simp [Attributes.source]
  · exact ⟨bracket '/' (by decide) _, idle (by simpa using simple.not_mem (by decide)) _⟩

theorem passes_beforeClosing : Passes beforeClosing? id some where
  run u simple s stop := by
    refine (awaits_beforeClosing.idle (simple.not_mem (by decide)) (.inr fun c head => ?_)).substitute
    obtain rfl := stop c head
    decide
  opening name simple _ c _ _ s := by
    have noBlank := simple.noBlank_append (u := ['<']) (by decide)
    have absent : '>' ∉ '<' :: name := by simpa using simple.not_mem (by decide)
    exact awaits_beforeClosing.idle absent (.inl (last_noBlank noBlank))
  single a simple c _ s := by
    have idle : Text.Idle beforeClosing? a.source (c :: s) := by
      refine awaits_beforeClosing.idle (simple.bracket_not_mem (by decide)) (.inl fun d last => ?_)
      rw [a.getLast?_source] at last
      exact Option.some.inj last ▸ (QuoteMark.bars _).noBlank
    rw [idle.substitute]
    simp [Attributes.source]
  closing name simple s := by
    have noBlank := simple.noBlank_append (u := ['<', '/']) (by decide)
    have absent : '>' ∉ '<' :: '/' :: name := by simpa using simple.not_mem (by decide)
    exact awaits_beforeClosing.idle absent (.inl (last_noBlank noBlank))
  ending s := by
    have slash := awaits_beforeClosing.idle (u := ['/']) (by decide) (s := '>' :: s) (.inl (by decide))
    have greater : beforeClosing? ('>' :: s) = none := rfl
    exact Text.idle_append_iff (u := ['/']).mpr ⟨slash, greater, trivial⟩

/-! ## Runs of blanks condensed -/

theorem blankRun?_of_not_isBlank {c : Char} (noBlank : Text.isBlank c = false) (s : Text) : blankRun? (c :: s) = none := by
  cases s <;> simp [blankRun?, noBlank]

theorem idle_blankRun? {u : Text} (noBlank : ∀ c ∈ u, Text.isBlank c = false) (s : Text) : Text.Idle blankRun? u s :=
  Text.idle_of_chars (fun c member => blankRun?_of_not_isBlank (noBlank c member)) s

theorem blankRun?_single {c : Char} {s : Text} (stop : ∀ d ∈ s.head?, Text.isBlank d = false) : blankRun? (c :: s) = none := by
  cases s with
  | nil => rfl
  | cons d s => simp [blankRun?, stop d rfl]

theorem blankRun?_of_blanks {c d : Char} {u s : Text} (blank : ∀ e ∈ c :: d :: u, Text.isBlank e = true)
    (stop : ∀ e ∈ s.head?, Text.isBlank e = false) : blankRun? (c :: d :: (u ++ s)) = some ([' '], s) := by
  have first := blank c List.mem_cons_self
  have second := blank d (List.mem_cons_of_mem c List.mem_cons_self)
  have later : ∀ e ∈ u, Text.isBlank e = true := fun e member =>
    blank e (List.mem_cons_of_mem c (List.mem_cons_of_mem d member))
  rw [blankRun?, if_pos ⟨first, second⟩, Text.dropWhile_append_of_stop later stop]

/-- What is substituted for runs of blanks condenses them. -/
theorem substitute_blankRun? (s : Text) : Text.substitute blankRun? s = Text.condense s := by
  induction size : s.length using Nat.strong_induction_on generalizing s with
  | _ n ih =>
    cases s with
    | nil => exact Text.substitute_nil
    | cons c s =>
      obtain ⟨u, t, same, alike, stop⟩ : ∃ u t, s = u ++ t ∧ (∀ d ∈ u, Text.isBlank d = Text.isBlank c) ∧
          ∀ d ∈ t.head?, Text.isBlank d ≠ Text.isBlank c := by
        refine ⟨_, _, (List.takeWhile_append_dropWhile (p := fun d => Text.isBlank d == Text.isBlank c)).symm, ?_, ?_⟩
        · exact fun d member => by simpa using List.mem_takeWhile_imp member
        · exact fun d head => by simpa using Text.stops_dropWhile _ s d head
      have later : Text.substitute blankRun? t = Text.condense t := ih t.length (by rw [← size, same]; simp) t rfl
      have alike' : ∀ d ∈ c :: u, Text.isBlank d = Text.isBlank c := List.forall_mem_cons.mpr ⟨rfl, alike⟩
      rw [same, ← List.cons_append, Text.condense_append_of_alike (List.cons_ne_nil c u) alike' stop, ← later]
      by_cases blank : Text.isBlank c = true
      · rw [blank] at alike' stop
        have stop : ∀ d ∈ t.head?, Text.isBlank d = false := by simpa using stop
        have all : Text.isBlankText (c :: u) = true := List.all_eq_true.mpr alike'
        cases u with
        | nil =>
          rw [List.cons_append, List.nil_append, Text.substitute_cons_of_none (blankRun?_single stop)]
          simp
        | cons d u =>
          rw [List.cons_append, List.cons_append,
            Text.substitute_cons_of_some (blankRun?_of_blanks alike' stop) (by simp; omega)]
          simp [all]
      · have blank : Text.isBlank c = false := by simpa using blank
        rw [blank] at alike'
        have all : ¬ (Text.isBlankText (c :: u) = true ∧ 2 ≤ (c :: u).length) := by simp [Text.isBlankText, blank]
        rw [(idle_blankRun? alike' t).substitute, if_neg all]

/-- A text that ends at a character other than a blank is condensed on its own. -/
theorem substitute_blankRun?_append {u s : Text} (stop : ∀ c ∈ s.head?, Text.isBlank c = false) :
    Text.substitute blankRun? (u ++ s) = Text.condense u ++ Text.substitute blankRun? s := by
  have suffix : Text.LeavesSuffix blankRun? := by
    intro s new rest found
    unfold blankRun? at found
    split at found
    · split at found
      · obtain ⟨-, rfl⟩ := Prod.mk.inj (Option.some.inj found)
        exact (List.dropWhile_suffix _).trans ((List.suffix_cons _ _).trans (List.suffix_cons _ _))
      · cases found
    · cases found
  have parts : Text.Local blankRun? u s := by
    intro w _ nonempty
    match w with
    | [c] => exact blankRun?_single stop
    | c :: d :: w =>
      have whole : (w ++ s).dropWhile Text.isBlank = w.dropWhile Text.isBlank ++ s := by
        cases s with
        | nil => simp
        | cons e s => exact dropWhile_append_cons (stop e rfl) w s
      by_cases both : Text.isBlank c = true ∧ Text.isBlank d = true <;> simp [blankRun?, both, whole]
  rw [parts.substitute suffix, substitute_blankRun?]

theorem passes_blankRun : Passes blankRun? Text.condense fun a => some a.condensed where
  run u _ s stop := by
    refine substitute_blankRun?_append fun c head => ?_
    obtain rfl := stop c head
    decide
  opening name simple _ c _ _ s := idle_blankRun? (simple.noBlank_append (u := ['<']) (by decide)) (c :: s)
  single a simple c _ s := by
    let q := a.written.spelling.quote.char
    have mark : Text.isBlank q = false := (QuoteMark.bars _).noBlank
    have front : Text.Idle blankRun? (' ' :: (a.name ++ ['=', q])) (a.written.spelling.raw ++ q :: c :: s) := by
      have noBlank : ∀ d ∈ a.name ++ ['=', q], Text.isBlank d = false := by
        intro d member
        rcases List.mem_append.mp member with member | member
        · exact simple.name.noBlank d member
        · rcases List.mem_cons.mp member with rfl | member
          · decide
          · exact List.mem_singleton.mp member ▸ mark
      refine ⟨blankRun?_single fun d head => noBlank d ?_, idle_blankRun? noBlank _⟩
      obtain ⟨e, name, same⟩ := List.exists_cons_of_ne_nil simple.named
      rw [same] at head ⊢
      obtain rfl := Option.some.inj head
      simp
    have value := substitute_blankRun?_append (u := a.written.spelling.raw) (s := q :: c :: s) fun d head =>
      Option.some.inj head ▸ mark
    have close : Text.substitute blankRun? (q :: c :: s) = q :: Text.substitute blankRun? (c :: s) :=
      Text.substitute_cons_of_none (blankRun?_of_not_isBlank mark _)
    have source : a.source ++ c :: s = ' ' :: (a.name ++ ['=', q]) ++ (a.written.spelling.raw ++ q :: c :: s) := by
      rw [a.source_eq]
      simp [q]
    rw [source, front.substitute, value, close]
    simp [Attributes.source, Attribute.source_eq, Attribute.condensed, Attribute.written, q]
  closing name simple s := idle_blankRun? (simple.noBlank_append (u := ['<', '/']) (by decide)) ('>' :: s)
  ending s := idle_blankRun? (by decide) s

end Shrink

/-! ## Blanks between tags -/

namespace Content

/-- The content without runs of blanks; a tag that is not written as an empty one stays so. -/
def withoutBlankRuns : Content → Content
  | nil => nil
  | raw run next => if Text.isBlankText run then next.withoutBlankRuns else raw run next.withoutBlankRuns
  | element tag inside next =>
    element { tag with selfClosing := tag.selfClosing && inside = nil } inside.withoutBlankRuns next.withoutBlankRuns

end Content

namespace Shrink

theorem idle_betweenTags? {u : Text} (noGreater : '>' ∉ u) (s : Text) : Text.Idle betweenTags? u s := by
  refine Text.idle_of_chars (fun c member t => ?_) s
  have other : c ≠ '>' := fun same => noGreater (same ▸ member)
  simp [betweenTags?, afterChar?, other]

theorem betweenTags?_of_not_isBlank {s : Text} (noBlank : ∀ c ∈ s.head?, Text.isBlank c = false) :
    betweenTags? ('>' :: s) = none := by
  cases s with
  | nil => rfl
  | cons c s => simp [betweenTags?, afterChar?, afterBlanks?, noBlank c rfl]

/-- Blanks between two tags go. -/
theorem betweenTags?_of_blanks {u : Text} (blank : ∀ c ∈ u, Text.isBlank c = true) (nonempty : u ≠ []) (s : Text) :
    betweenTags? ('>' :: (u ++ '<' :: s)) = some (['>', '<'], s) := by
  have found : afterBlanks? (u ++ '<' :: s) = some ('<' :: s) :=
    afterBlanks?_of_blanks blank nonempty fun c head => Option.some.inj head ▸ by decide
  simp [betweenTags?, afterChar?, found]

/-- Other text after a tag stays. -/
theorem betweenTags?_of_text {u s : Text} (text : ∃ c ∈ u, Text.isBlank c = false) (noLess : '<' ∉ u) :
    betweenTags? ('>' :: (u ++ s)) = none := by
  obtain ⟨c, member, noBlank⟩ := text
  cases u with
  | nil => cases member
  | cons d u =>
    by_cases first : Text.isBlank d = true
    · have member : c ∈ u := by
        rcases List.mem_cons.mp member with rfl | member
        · rw [noBlank] at first
          cases first
        · exact member
      have stops : u.dropWhile Text.isBlank ≠ [] := fun nothing => by
        rw [List.dropWhile_eq_nil_iff.mp nothing c member] at noBlank
        cases noBlank
      obtain ⟨e, rest, same⟩ := List.exists_cons_of_ne_nil stops
      have other : e ≠ '<' := by
        rintro rfl
        exact noLess (List.mem_cons_of_mem d ((List.dropWhile_suffix _).subset (by rw [same]; exact List.mem_cons_self)))
      have whole : (u ++ s).dropWhile Text.isBlank = e :: (rest ++ s) := by
        rw [List.dropWhile_append, same]
        rfl
      simp [betweenTags?, afterChar?, afterBlanks?, first, whole, other]
    · exact betweenTags?_of_not_isBlank fun e head => Option.some.inj head ▸ by simpa using first

theorem betweenTags?_of_noLess {s : Text} (noLess : '<' ∉ s) : betweenTags? ('>' :: s) = none := by
  by_cases text : ∃ c ∈ s, Text.isBlank c = false
  · have none := betweenTags?_of_text (s := []) text noLess
    rwa [List.append_nil] at none
  · have blank : ∀ c ∈ s, Text.isBlank c = true := by simpa using text
    cases s with
    | nil => rfl
    | cons c s =>
      have rest : s.dropWhile Text.isBlank = [] :=
        List.dropWhile_eq_nil_iff.mpr fun d member => blank d (List.mem_cons_of_mem c member)
      simp [betweenTags?, afterChar?, afterBlanks?, blank c List.mem_cons_self, rest]

theorem substitute_betweenTags?_greater (s : Text) :
    Text.substitute betweenTags? ('>' :: '<' :: s) = '>' :: Text.substitute betweenTags? ('<' :: s) :=
  Text.substitute_cons_of_none (betweenTags?_of_not_isBlank (s := '<' :: s) fun c head => Option.some.inj head ▸ by decide)

theorem substitute_betweenTags?_less (s : Text) :
    Text.substitute betweenTags? ('<' :: s) = '<' :: Text.substitute betweenTags? s :=
  (idle_betweenTags? (u := ['<']) (by decide) s).substitute

end Shrink

namespace Tag.Simple

open SvgEdit.Shrink

theorem greater_not_mem {t : Tag} (simple : t.Simple) : '>' ∉ t.inside := by
  rw [Tag.inside, Attributes.source]
  intro member
  rcases List.mem_append.mp member with member | member
  · exact simple.name.not_mem (by decide) member
  · obtain ⟨a, listed, member⟩ := List.mem_flatMap.mp member
    exact (simple.attributes a listed).bracket_not_mem (.inr rfl) member

/-- Blanks between tags go from an element if they go from its content. -/
theorem substitute_betweenTags? {t : Tag} (simple : t.Simple) {inside : Text} {inside' : Text}
    (inner : ∀ s, Text.substitute betweenTags? ('>' :: (inside ++ '<' :: s)) =
      '>' :: (inside' ++ Text.substitute betweenTags? ('<' :: s)))
    {empty empty' : Bool} (still : empty = true → empty' = true) {s s' : Text}
    (after : Text.substitute betweenTags? ('>' :: s) = '>' :: s') :
    Text.substitute betweenTags? (t.enclose empty inside ++ s) =
      { t with selfClosing := t.selfClosing && empty }.enclose empty' inside' ++ s' := by
  have begins : '>' ∉ '<' :: t.inside := by simpa using simple.greater_not_mem
  by_cases short : t.selfClosing = true ∧ empty = true
  · have start := idle_betweenTags? (u := '<' :: t.inside ++ ['/']) (by simpa using begins) ('>' :: s)
    have whole := start.substitute
    rw [after] at whole
    simpa [Tag.enclose, Tag.inside, short, still short.2] using whole
  · have start := (idle_betweenTags? begins ('>' :: (inside ++ '<' :: '/' :: (t.name ++ '>' :: s)))).substitute
    have name : '>' ∉ '<' :: '/' :: t.name := by simpa using simple.name.not_mem (by decide)
    have finish := (idle_betweenTags? name ('>' :: s)).substitute
    rw [List.cons_append, List.cons_append] at finish
    rw [inner, finish, after] at start
    have short' : ¬ ((t.selfClosing && empty) = true ∧ empty' = true) := by
      rw [Bool.and_eq_true]
      exact fun both => short both.1
    rw [Tag.enclose, Tag.enclose, if_neg short, if_neg short']
    simpa [Tag.inside] using start

end Tag.Simple

namespace Content

open SvgEdit.Shrink

theorem withoutBlankRuns_of_nil (c : Content) : decide (c = nil) = true → decide (c.withoutBlankRuns = nil) = true := by
  intro empty
  rw [of_decide_eq_true empty]
  rfl

/-- Of the blanks between two tags nothing is left, whatever the content between them is. -/
theorem substitute_betweenTags? {c : Content} (simple : c.Simple) (s : Text) :
    Text.substitute betweenTags? ('>' :: (c.source ++ '<' :: s)) =
      '>' :: (c.withoutBlankRuns.source ++ Text.substitute betweenTags? ('<' :: s)) := by
  induction c generalizing s with
  | nil => exact substitute_betweenTags?_greater s
  | raw run next ih =>
    obtain ⟨simple, other, simpleNext⟩ := simple
    have later := ih simpleNext s
    have begins := Content.head?_source other (s := '<' :: s) fun d head => (Option.some.inj head).symm
    obtain ⟨t, same⟩ : ∃ t, next.source ++ '<' :: s = '<' :: t := by
      cases rest : next.source ++ '<' :: s with
      | nil => simp at rest
      | cons d t => exact ⟨t, by rw [begins d (by rw [rest]; rfl)]⟩
    rw [same, substitute_betweenTags?_greater] at later
    rw [source, List.append_assoc, same, withoutBlankRuns]
    by_cases blank : Text.isBlankText run = true
    · rw [if_pos blank, ← later]
      by_cases nothing : run = []
      · rw [nothing, List.nil_append, substitute_betweenTags?_greater]
      · have found := betweenTags?_of_blanks (List.all_eq_true.mp blank) nothing t
        rw [Text.substitute_cons_of_some found (by simp; omega), substitute_betweenTags?_less]
        rfl
    · have text : ∃ d ∈ run, Text.isBlank d = false := by
        simpa [Text.isBlankText] using blank
      have noGreater : '>' ∉ run := simple.not_mem (by decide)
      rw [if_neg blank, Text.substitute_cons_of_none (betweenTags?_of_text text (simple.not_mem (by decide))),
        (idle_betweenTags? noGreater ('<' :: t)).substitute, source, List.append_assoc,
        (List.cons.inj later).2]
  | element tag inside next ihInside ihNext =>
    obtain ⟨simple, simpleInside, simpleNext⟩ := simple
    have whole := simple.substitute_betweenTags? (ihInside simpleInside) inside.withoutBlankRuns_of_nil
      (ihNext simpleNext s)
    rw [source, List.append_assoc, withoutBlankRuns, source, List.append_assoc, ← whole]
    exact substitute_betweenTags?_greater _

end Content

/-! ## The light level -/

namespace Content

theorem simple_rewrite {onAttribute : Attribute → Option Attribute}
    (still : ∀ a b : Attribute, a.Simple → onAttribute a = some b → b.Simple) {c : Content} (simple : c.Simple) :
    (c.rewrite id onAttribute).Simple := by
  induction c with
  | nil => trivial
  | raw run next ih =>
    obtain ⟨simple, other, simpleNext⟩ := simple
    exact ⟨simple, by rwa [beginsRaw_rewrite], ih simpleNext⟩
  | element tag inside next ihInside ihNext =>
    obtain ⟨simple, simpleInside, simpleNext⟩ := simple
    exact ⟨simple.rewrite still, ihInside simpleInside, ihNext simpleNext⟩

theorem beginsRaw_withoutBlankRuns {c : Content} (other : c.beginsRaw = false) : c.withoutBlankRuns.beginsRaw = false := by
  cases c with
  | nil => rfl
  | raw run next => cases other
  | element tag inside next => rfl

theorem simple_withoutBlankRuns {c : Content} (simple : c.Simple) : c.withoutBlankRuns.Simple := by
  induction c with
  | nil => trivial
  | raw run next ih =>
    obtain ⟨simple, other, simpleNext⟩ := simple
    rw [withoutBlankRuns]
    split
    · exact ih simpleNext
    · exact ⟨simple, beginsRaw_withoutBlankRuns other, ih simpleNext⟩
  | element tag inside next ihInside ihNext =>
    obtain ⟨simple, simpleInside, simpleNext⟩ := simple
    exact ⟨⟨simple.name, simple.named, simple.other, simple.attributes⟩, ihInside simpleInside, ihNext simpleNext⟩

/-- Cleaning takes away attributes, then runs of blanks, and condenses what is left. -/
theorem cleaned_eq (c : Content) : c.cleaned =
    ((c.rewrite id Shrink.keepText).withoutBlankRuns).rewrite Text.condense fun a => some a.condensed := by
  induction c with
  | nil => rfl
  | raw run next ih =>
    rw [cleaned, rewrite, withoutBlankRuns, id, ih]
    split <;> rfl
  | element tag inside next ihInside ihNext =>
    rw [cleaned, rewrite, withoutBlankRuns, rewrite, ihInside, ihNext]
    simp [Tag.cleaned, Tag.rewrite, rewrite_eq_nil_iff, Shrink.filterMap_keepText]

end Content

namespace Document

/-- The document without runs of blanks inside the root. -/
def withoutBlankRuns (d : Document) : Document :=
  { d with root := ⟨{ d.root.tag with selfClosing := d.root.tag.selfClosing && d.root.content = .nil },
      d.root.content.withoutBlankRuns⟩ }

theorem simple_rewrite {onAttribute : Attribute → Option Attribute}
    (still : ∀ a b : Attribute, a.Simple → onAttribute a = some b → b.Simple) {d : Document} (simple : d.Simple) :
    (d.rewrite id onAttribute).Simple := by
  refine ⟨?_, ?_, simple.tag.rewrite still, Content.simple_rewrite still simple.content, ?_, ?_⟩
  · simpa [rewrite] using simple.prolog
  · simpa [rewrite] using simple.prologRuns
  · simpa [rewrite] using simple.epilog
  · simpa [rewrite] using simple.epilogRuns

theorem simple_withoutBlankRuns {d : Document} (simple : d.Simple) : d.withoutBlankRuns.Simple where
  prolog := simple.prolog
  prologRuns := simple.prologRuns
  tag := ⟨simple.tag.name, simple.tag.named, simple.tag.other, simple.tag.attributes⟩
  content := Content.simple_withoutBlankRuns simple.content
  epilog := simple.epilog
  epilogRuns := simple.epilogRuns

theorem cleaned_eq (d : Document) : d.cleaned =
    ((d.rewrite id Shrink.keepText).withoutBlankRuns).rewrite Text.condense fun a => some a.condensed := by
  simp [cleaned, rewrite, withoutBlankRuns, Content.cleaned_eq, Tag.cleaned, Tag.rewrite, Content.rewrite_eq_nil_iff,
    Shrink.filterMap_keepText]

open SvgEdit.Shrink

theorem substitute_betweenTags? {d : Document} (simple : d.Simple) :
    Text.substitute betweenTags? d.source = d.withoutBlankRuns.source := by
  have absent (c : Char) (mark : c ∈ ['<', '>', '&', '=', '"', '\'']) {runs : List Text}
      (all : ∀ run ∈ runs, SimpleRun run) : c ∉ runs.flatten := by
    intro member
    obtain ⟨run, listed, member⟩ := List.mem_flatten.mp member
    exact (all run listed).not_mem mark member
  have noGreater := absent '>' (by decide) simple.epilogRuns
  have noLess := absent '<' (by decide) simple.epilogRuns
  have after : Text.substitute betweenTags? ('>' :: d.epilog.flatten) = '>' :: d.epilog.flatten := by
    have same := (idle_betweenTags? noGreater []).substitute
    rw [Text.substitute_cons_of_none (betweenTags?_of_noLess noLess)]
    simpa [Text.substitute_nil] using same
  have root := simple.tag.substitute_betweenTags? (Content.substitute_betweenTags? simple.content)
    d.root.content.withoutBlankRuns_of_nil after
  have front := (idle_betweenTags? (absent '>' (by decide) simple.prologRuns) (d.root.source ++ d.epilog.flatten)).substitute
  rw [Document.source, List.append_assoc, front, Element.source, root, ← List.append_assoc]
  rfl

end Document

namespace Shrink

theorem substitute_document {step : Text.Step} (passes : Passes step id some) {d : Document} (simple : d.Simple) :
    Text.substitute step d.source = d.source := by rw [passes.document simple, d.rewrite_id]

theorem removeBlanks_source {d : Document} (simple : d.Simple) : removeBlanks d.source =
    (d.withoutBlankRuns.rewrite Text.condense fun a => some a.condensed).source := by
  have simple' := Document.simple_withoutBlankRuns simple
  simp only [removeBlanks, List.foldl_cons, List.foldl_nil]
  rw [Document.substitute_betweenTags? simple, substitute_document passes_equalsQuote simple',
    substitute_document passes_afterOpening simple', substitute_document passes_beforeClosing simple',
    passes_blankRun.document simple']

/-- Of a simple document the light level makes the cleaned document. -/
theorem light_cleans {d : Document} (simple : d.Simple) (precision : Option Nat) :
    (optimize { level := .light, precision := precision } d.source).document = d.cleaned.source := by
  have kept : ∀ a b : Attribute, a.Simple → keepText a = some b → b.Simple := by
    intro a b simple found
    obtain ⟨rfl, -⟩ := Option.guard_eq_some_iff.mp found
    exact simple
  have comments : removeComments d.source = d.source := substitute_document passes_comments simple
  have metadata : removeMetadata d.source = d.source := substitute_document passes_metadata simple
  have emptied : removeEmptyAttributes d.source = (d.rewrite id keepText).source :=
    passes_emptyAttributes.document simple
  have simple' := Document.simple_rewrite kept simple
  have editors : removeEditorNamespaces (d.rewrite id keepText).source = (d.rewrite id keepText).source :=
    substitute_document passes_editorNamespaces simple'
  calc (optimize { level := .light, precision := precision } d.source).document
    _ = removeBlanks (removeEditorNamespaces (removeEmptyAttributes (removeMetadata (removeComments d.source)))) := rfl
    _ = removeBlanks (d.rewrite id keepText).source := by rw [comments, metadata, emptied, editors]
    _ = d.cleaned.source := by rw [removeBlanks_source simple', d.cleaned_eq]

/-- A document with blanks of every kind and an attribute without a value. -/
def spacious : Document :=
  ⟨["\n".toList], ⟨⟨"svg".toList, [], false⟩, .raw "\n  ".toList (.element
    ⟨"x:a".toList, [⟨"b".toList, [], some ⟨[], .single⟩⟩, ⟨"c".toList, " 1\n\t2".toList, some ⟨" 1\n\t2".toList, .double⟩⟩],
      false⟩ (.raw " u  v ".toList .nil) (.element ⟨"b".toList, [], true⟩ .nil (.raw " ".toList .nil)))⟩, ["\n\n".toList]⟩

theorem light_cleans_spacious :
    Document.parse spacious.source = .ok spacious ∧ spacious.Simple ∧
      (optimize { level := .light } spacious.source).document = spacious.cleaned.source ∧
      spacious.cleaned.source = "\n<svg><x:a c=\" 1 2\"> u v </x:a><b/></svg> ".toList := by
  have simple : spacious.Simple := by
    have tag {t : Tag} (name : SimpleName t.name ∧ t.name ≠ [] ∧ t.name ≠ metadataName)
        (attributes : ∀ a ∈ t.attributes, a.Simple) : t.Simple :=
      ⟨name.1, fun empty => absurd empty name.2.1, name.2.2, attributes⟩
    have none : ∀ a ∈ ([] : Attributes), a.Simple := fun _ member => absurd member List.not_mem_nil
    refine ⟨by decide, by decide, tag (by decide) none, ⟨by decide, rfl, tag (by decide) ?_, ⟨by decide, rfl, trivial⟩,
      tag (by decide) none, trivial, by decide, rfl, trivial⟩, by decide, by decide⟩
    refine List.forall_mem_cons.mpr ⟨?_, List.forall_mem_singleton.mpr ?_⟩
    · exact ⟨by decide, by decide, by decide, by decide⟩
    · exact ⟨by decide, by decide, by decide, by decide⟩
  exact ⟨by cbv, simple, light_cleans simple none, by decide +kernel⟩

/-! ## A tag without a name -/

/-- The blank before the first attribute of a tag without a name goes, and the key becomes the name. -/
theorem light_names_tag :
    let d : Document := ⟨[], ⟨⟨[], [⟨['a'], ['1'], some ⟨['1'], .double⟩⟩], true⟩, .nil⟩, []⟩
    Document.parse "< a=\"1\"/>".toList = .ok d ∧ SimpleName d.root.name ∧ d.root.name ≠ metadataName ∧
      (∀ a ∈ d.root.tag.attributes, a.Simple) ∧
      d.cleaned.source = "< a=\"1\"/>".toList ∧
      (optimize { level := .light } d.source).document = "<a=\"1\"/>".toList ∧
      (optimize { level := .light } d.source).document ≠ d.cleaned.source := by
  refine ⟨by cbv, by decide, by decide, List.forall_mem_singleton.mpr ?_, by decide +kernel, by decide +kernel,
    by decide +kernel⟩
  exact ⟨by decide, by decide, by decide, by decide⟩

end Shrink
end SvgEdit
