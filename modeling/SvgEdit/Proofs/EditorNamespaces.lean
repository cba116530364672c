import SvgEdit.Proofs.EmptyAttributes

/-!
# Declarations of editors' names removed

A declaration begins with `xmlns:` and goes on to an `=` and a quote. In tidy markup that is the key of
an attribute whose value stands right after it.
-/
namespace SvgEdit
namespace Shrink

/-! ## What is recognised -/

theorem namespaceStart_eq : namespaceStart = ['x', 'm', 'l', 'n', 's', ':'] := by decide

theorem noEquals_of_mem_editorNames : ∀ name ∈ editorNames, '=' ∉ name := by decide

theorem isNamePart_of_mem_editorNames : ∀ name ∈ editorNames, ∀ c ∈ namespaceStart ++ name,
    isNamePart c = true ∧ Text.isBlank c = false := by decide

theorem afterEditorNamespace?_eq (s : Text) : afterEditorNamespace? s =
    (Text.dropPrefix? namespaceStart (s.dropWhile Text.isBlank)).bind fun s =>
      (editorNames.findSome? fun name => Text.dropPrefix? (name ++ ['=', '"']) s).bind (afterFirst? ['"']) := rfl

/-- Where a declaration is found, one of the names is declared after the blanks. -/
theorem exists_of_afterEditorNamespace? {s rest : Text} (found : afterEditorNamespace? s = some rest) :
    ∃ name ∈ editorNames, ∃ value, s.dropWhile Text.isBlank = declarationOf name ++ value := by
  rw [afterEditorNamespace?_eq] at found
  obtain ⟨s₁, start, found⟩ := Option.bind_eq_some_iff.mp found
  obtain ⟨s₂, declared, -⟩ := Option.bind_eq_some_iff.mp found
  obtain ⟨name, member, declared⟩ := List.exists_of_findSome?_eq_some declared
  refine ⟨name, member, s₂, ?_⟩
  simp [Text.dropPrefix?_eq_some_iff.mp start, Text.dropPrefix?_eq_some_iff.mp declared, declarationOf]

/-- A declaration of one of the names goes on to the next quote. -/
theorem afterEditorNamespace?_declaration {blanks name value s : Text} (blank : ∀ c ∈ blanks, Text.isBlank c = true)
    (listed : name ∈ editorNames) (closed : '"' ∉ value) :
    afterEditorNamespace? (blanks ++ (declarationOf name ++ (value ++ '"' :: s))) = some s := by
  have start : (blanks ++ (declarationOf name ++ (value ++ '"' :: s))).dropWhile Text.isBlank =
      namespaceStart ++ (name ++ ['=', '"'] ++ (value ++ '"' :: s)) := by
    rw [Text.dropWhile_append_of_stop blank, declarationOf, List.append_assoc]
    intro c head
    rw [declarationOf, namespaceStart_eq] at head
    obtain rfl := Option.some.inj head
    decide
  have other : ∀ name' ∈ editorNames, ∀ r,
      Text.dropPrefix? (name' ++ ['=', '"']) (name ++ ['=', '"'] ++ (value ++ '"' :: s)) = some r →
        r = value ++ '"' :: s := by
    intro name' listed' r found
    have whole : name ++ '=' :: '"' :: (value ++ '"' :: s) = name' ++ '=' :: '"' :: r := by
      simpa using Text.dropPrefix?_eq_some_iff.mp found
    have same := (append_cons_inj whole (noEquals_of_mem_editorNames name listed)
      (noEquals_of_mem_editorNames name' listed')).2
    exact (List.cons.inj same).2.symm
  have here : editorNames.findSome? (fun name' =>
      Text.dropPrefix? (name' ++ ['=', '"']) (name ++ ['=', '"'] ++ (value ++ '"' :: s))) = some (value ++ '"' :: s) := by
    cases found : editorNames.findSome? fun name' =>
        Text.dropPrefix? (name' ++ ['=', '"']) (name ++ ['=', '"'] ++ (value ++ '"' :: s)) with
    | none =>
      have missing := List.findSome?_eq_none_iff.mp found name listed
      rw [Text.dropPrefix?_eq_some_iff.mpr rfl] at missing
      cases missing
    | some r =>
      obtain ⟨name', listed', starts⟩ := List.exists_of_findSome?_eq_some found
      rw [other name' listed' r starts]
  rw [afterEditorNamespace?_eq, start, Text.dropPrefix?_eq_some_iff.mpr rfl, Option.bind_some, here, Option.bind_some,
    afterFirst?]
  have cut := Text.cut?_of_lacks_head closed [] s
  rw [List.nil_append] at cut
  rw [cut]
  rfl

/-! ## Where nothing is recognised -/

theorem mem_declarationOf {name : Text} (listed : name ∈ editorNames) :
    ∀ c ∈ declarationOf name, (isNamePart c = true ∧ Text.isBlank c = false) ∨ c = '=' ∨ c = '"' := by
  intro c member
  rw [declarationOf, ← List.append_assoc] at member
  rcases List.mem_append.mp member with member | member
  · exact .inl (isNamePart_of_mem_editorNames name listed c member)
  · simpa using Or.inr member

/-- A character that cannot stand in a declaration up to its first quote. -/
structure Blocks (c : Char) : Prop where
  noPart : isNamePart c = true → Text.isBlank c = true
  noEquals : c ≠ '='
  noQuote : c ≠ '"'

theorem not_mem_declarationOf {name : Text} (listed : name ∈ editorNames) {c : Char} (blocks : Blocks c) :
    c ∉ declarationOf name := by
  intro member
  rcases mem_declarationOf listed c member with ⟨part, noBlank⟩ | same | same
  · rw [blocks.noPart part] at noBlank
    cases noBlank
  · exact blocks.noEquals same
  · exact blocks.noQuote same

/-- The beginning of a declaration does not go beyond a block. -/
theorem declarationOf_prefix {name : Text} (listed : name ∈ editorNames) {w s value : Text}
    (blocks : ∀ c ∈ s.head?, Blocks c) (same : w ++ s = declarationOf name ++ value) : declarationOf name <+: w :=
  Text.prefix_of_stops (fun c head => not_mem_declarationOf listed (blocks c head)) ⟨value, same.symm⟩

theorem afterEditorNamespace?_eq_none {s : Text}
    (other : ∀ name ∈ editorNames, ∀ value, s.dropWhile Text.isBlank ≠ declarationOf name ++ value) :
    removal afterEditorNamespace? s = none := by
  rw [removal, Option.map_eq_none_iff]
  by_contra found
  obtain ⟨rest, found⟩ := Option.ne_none_iff_exists'.mp found
  obtain ⟨name, listed, value, same⟩ := exists_of_afterEditorNamespace? found
  exact other name listed value same

/-- Nothing begins in a text without declarations, up to a block. -/
theorem idle_undeclared {u s : Text} (undeclared : Undeclared u)
    (blocks : ∀ c ∈ s.head?, Blocks c ∧ Text.isBlank c = false) :
    Text.Idle (removal afterEditorNamespace?) u s := by
  refine Text.idle_of_suffixes fun w ends _ => afterEditorNamespace?_eq_none fun name listed value same => ?_
  have back : (w ++ s).dropWhile Text.isBlank = w.dropWhile Text.isBlank ++ s := by
    cases s with
    | nil => rw [List.append_nil, List.append_nil]
    | cons c s => exact dropWhile_append_cons (blocks c rfl).2 w s
  rw [back] at same
  have starts := declarationOf_prefix listed (fun c head => (blocks c head).1) same
  exact undeclared name listed (starts.isInfix.trans ((List.dropWhile_suffix _).trans ends).isInfix)

theorem ne_declaration_of_first {c : Char} (other : c ≠ 'x') {s name value : Text} :
    c :: s ≠ declarationOf name ++ value := by
  intro same
  rw [declarationOf, namespaceStart_eq] at same
  exact other (List.cons.inj same).1

/-- Nothing begins with blanks before a character other than the first one of declarations. -/
theorem idle_blanks_other {blanks : Text} (blank : ∀ c ∈ blanks, Text.isBlank c = true) {c : Char}
    (noBlank : Text.isBlank c = false) (other : c ≠ 'x') (s : Text) :
    Text.Idle (removal afterEditorNamespace?) blanks (c :: s) := by
  refine Text.idle_of_suffixes fun w ends _ => afterEditorNamespace?_eq_none fun name _ value => ?_
  have stop : ∀ d ∈ (c :: s).head?, Text.isBlank d = false := fun d head => Option.some.inj head ▸ noBlank
  rw [Text.dropWhile_append_of_stop (fun d member => blank d (ends.subset member)) stop]
  exact ne_declaration_of_first other

theorem idle_others {u : Text} (others : ∀ c ∈ u, Text.isBlank c = false ∧ c ≠ 'x') (s : Text) :
    Text.Idle (removal afterEditorNamespace?) u s := by
  refine Text.idle_of_chars (fun c member t => afterEditorNamespace?_eq_none fun name _ value => ?_) s
  rw [List.dropWhile_cons_of_neg (by simp [(others c member).1])]
  exact ne_declaration_of_first (others c member).2

end Shrink

/-! ## In tags -/

/-- The key declares an editor's name, and the value stands right after it in double quotes. -/
structure SpelledAttribute.DeclaresEditor (a : SpelledAttribute) : Prop where
  key : ∃ name ∈ Shrink.editorNames, a.key = Shrink.namespaceStart ++ name
  between : a.between = []
  after : a.after = []
  quote : a.quote = .double

namespace SpelledAttribute

variable {a : SpelledAttribute}

theorem afterEditorNamespace?_source (proper : a.Proper) (declares : a.DeclaresEditor) (s : Text) :
    Shrink.afterEditorNamespace? (a.source ++ s) = some s := by
  obtain ⟨⟨name, listed, key⟩, between, after, quote⟩ := declares
  have closed := proper.closed
  rw [quote] at closed
  have whole : a.source ++ s = a.before ++ (Shrink.declarationOf name ++ (a.raw ++ '"' :: s)) := by
    simp [source, key, between, after, quote, Shrink.declarationOf, QuoteMark.char]
  rw [whole]
  exact Shrink.afterEditorNamespace?_declaration proper.before.isBlank listed closed

/-- Where a declaration begins in the key, the key ends with the name, and the value stands right after it. -/
theorem Proper.eq_of_declaration (proper : a.Proper) {w : Text} (ends : w <:+ a.key) {name value s : Text}
    (listed : name ∈ Shrink.editorNames) (same : w ++ a.assignment s = Shrink.declarationOf name ++ value) :
    w = Shrink.namespaceStart ++ name ∧ a.between = [] ∧ a.after = [] ∧ a.quote = .double := by
  have whole : (w ++ a.between) ++ '=' :: (a.after ++ a.quote.char :: (a.raw ++ a.quote.char :: s)) =
      (Shrink.namespaceStart ++ name) ++ '=' :: '"' :: value := by
    simpa [assignment, Shrink.declarationOf] using same
  have noEquals : '=' ∉ w ++ a.between := by
    intro member
    rcases List.mem_append.mp member with member | member
    · exact absurd (proper.key.2 _ (ends.subset member)) (by decide)
    · exact absurd (proper.between _ member) (by decide)
  have noEquals' : '=' ∉ Shrink.namespaceStart ++ name := fun member =>
    absurd (Shrink.isNamePart_of_mem_editorNames name listed _ member).1 (by decide)
  obtain ⟨front, back⟩ := append_cons_inj whole noEquals noEquals'
  have between : a.between = [] := by
    by_contra nonempty
    obtain ⟨c, u, same⟩ := List.exists_cons_of_ne_nil nonempty
    have member : c ∈ a.between := by rw [same]; exact List.mem_cons_self
    have noBlank := (Shrink.isNamePart_of_mem_editorNames name listed c
      (front ▸ List.mem_append_right w member)).2
    rw [proper.between.isBlank c member] at noBlank
    cases noBlank
  have after : a.after = [] := by
    by_contra nonempty
    obtain ⟨c, u, same⟩ := List.exists_cons_of_ne_nil nonempty
    rw [same] at back
    obtain ⟨rfl, -⟩ := List.cons.inj back
    exact absurd (proper.after '"' (by rw [same]; exact List.mem_cons_self)) (by decide)
  have quote : a.quote = .double := by
    rw [after] at back
    have mark := (List.cons.inj back).1
    cases kind : a.quote with
    | double => rfl
    | single =>
      rw [kind] at mark
      cases mark
  rw [between, List.append_nil] at front
  exact ⟨front, between, after, quote⟩

theorem Proper.key_ne_declaration (proper : a.Proper) (other : ¬ a.DeclaresEditor) {name value s : Text}
    (listed : name ∈ Shrink.editorNames) : a.key ++ a.assignment s ≠ Shrink.declarationOf name ++ value := by
  intro same
  obtain ⟨key, between, after, quote⟩ := proper.eq_of_declaration (List.suffix_refl _) listed same
  exact other ⟨⟨name, listed, key⟩, between, after, quote⟩

/-- Nothing begins in a value that holds no declaration, its closing quote included. -/
theorem idle_value (quote : QuoteMark) {raw : Text} (undeclared : Shrink.Undeclared (raw ++ [quote.char])) (s : Text) :
    Text.Idle (Shrink.removal Shrink.afterEditorNamespace?) raw (quote.char :: s) := by
  refine Text.idle_of_suffixes fun w ends _ => Shrink.afterEditorNamespace?_eq_none fun name listed value same => ?_
  rw [Shrink.dropWhile_append_cons (by cases quote <;> decide)] at same
  -- all of the declaration but its quote ends within the value
  have front : quote.char ∉ Shrink.namespaceStart ++ (name ++ ['=']) := by
    have names : ∀ name ∈ Shrink.editorNames, '"' ∉ Shrink.namespaceStart ++ (name ++ ['=']) ∧
        '\'' ∉ Shrink.namespaceStart ++ (name ++ ['=']) := by decide
    cases quote
    · exact (names name listed).1
    · exact (names name listed).2
  have starts : Shrink.namespaceStart ++ (name ++ ['=']) <+: w.dropWhile Text.isBlank := by
    refine Text.prefix_of_stops (s := quote.char :: s) (fun c head => Option.some.inj head ▸ front) ⟨'"' :: value, ?_⟩
    rw [same]
    simp [Shrink.declarationOf]
  obtain ⟨more, within⟩ := starts
  obtain ⟨before, whole⟩ : w.dropWhile Text.isBlank <:+ raw := (List.dropWhile_suffix _).trans ends
  have rest : more ++ quote.char :: s = '"' :: value := by
    rw [← within, Shrink.declarationOf] at same
    simpa using same
  cases more with
  | nil =>
    obtain ⟨mark, -⟩ := List.cons.inj rest
    exact undeclared name listed ⟨before, [], by rw [← whole, ← within, mark]; simp [Shrink.declarationOf]⟩
  | cons c more =>
    obtain ⟨rfl, -⟩ := List.cons.inj rest
    exact undeclared name listed
      ⟨before, more ++ [quote.char], by rw [← whole, ← within]; simp [Shrink.declarationOf]⟩

/-- Nothing begins in an attribute where nothing begins in its value. -/
theorem idle_afterEditorNamespace? (proper : a.Proper) (steady : Steady a.key)
    (keyEnd : ∀ name ∈ Shrink.editorNames, ¬ Shrink.namespaceStart ++ name <:+ a.key.tail)
    (other : ¬ a.DeclaresEditor) {s : Text}
    (raw : Text.Idle (Shrink.removal Shrink.afterEditorNamespace?) a.raw (a.quote.char :: s)) :
    Text.Idle (Shrink.removal Shrink.afterEditorNamespace?) a.source s := by
  have quote : Text.isBlank a.quote.char = false ∧ a.quote.char ≠ 'x' := by cases a.quote <;> decide
  obtain ⟨d, rest, named⟩ := List.exists_cons_of_ne_nil proper.key.1
  have noBlank := steady.noBlank
  have before : Text.Idle (Shrink.removal Shrink.afterEditorNamespace?) a.before (a.key ++ a.assignment s) := by
    refine Text.idle_of_suffixes fun w ends _ => Shrink.afterEditorNamespace?_eq_none fun name listed value => ?_
    have stop : ∀ c ∈ (a.key ++ a.assignment s).head?, Text.isBlank c = false := by
      intro c head
      rw [named] at head
      obtain rfl := Option.some.inj head
      exact noBlank d (by rw [named]; exact List.mem_cons_self)
    rw [Text.dropWhile_append_of_stop (fun c member => proper.before.isBlank c (ends.subset member)) stop]
    exact proper.key_ne_declaration other listed
  have key : Text.Idle (Shrink.removal Shrink.afterEditorNamespace?) a.key (a.assignment s) := by
    refine Text.idle_of_suffixes fun w ends nonempty => Shrink.afterEditorNamespace?_eq_none fun name listed value => ?_
    obtain ⟨e, w, rfl⟩ := List.exists_cons_of_ne_nil nonempty
    have first := noBlank e (ends.subset List.mem_cons_self)
    rw [List.cons_append, List.dropWhile_cons_of_neg (by simp [first]), ← List.cons_append]
    have parts : e :: w = a.key ∨ e :: w <:+ a.key.tail := by
      rw [named] at ends ⊢
      exact List.suffix_cons_iff.mp ends
    rcases parts with whole | within
    · rw [whole]
      exact proper.key_ne_declaration other listed
    · intro same
      have whole : e :: w <:+ a.key := within.trans (List.tail_suffix _)
      exact keyEnd name listed ((proper.eq_of_declaration whole listed same).1 ▸ within)
  have between := Shrink.idle_blanks_other proper.between.isBlank (c := '=') (by decide) (by decide)
    (a.after ++ a.quote.char :: (a.raw ++ a.quote.char :: s))
  have equals := Shrink.idle_others (u := ['=']) (by decide) (a.after ++ a.quote.char :: (a.raw ++ a.quote.char :: s))
  have after := Shrink.idle_blanks_other proper.after.isBlank quote.1 quote.2 (a.raw ++ a.quote.char :: s)
  have mark (u : Text) : Text.Idle (Shrink.removal Shrink.afterEditorNamespace?) [a.quote.char] u :=
    Shrink.idle_others (fun c member => List.mem_singleton.mp member ▸ quote) u
  rw [source_eq]
  simp only [Text.idle_append_iff]
  refine ⟨by simpa [assignment] using before, by simpa [assignment] using key, by simpa using between,
    by simpa using equals, by simpa using after, mark _, by simpa using raw, mark _⟩

end SpelledAttribute

theorem removesEditorNamespaces : RemovesAttributes Shrink.afterEditorNamespace? SpelledAttribute.DeclaresEditor where
  taken _ proper _ declares s := SpelledAttribute.afterEditorNamespace?_source proper declares s
  kept _ proper tidy other s _ := SpelledAttribute.idle_afterEditorNamespace? proper tidy.key tidy.keyEnd other
    (SpelledAttribute.idle_value _ tidy.undeclared s)
  name name plain steady s follows := by
    refine Text.idle_of_suffixes fun w ends nonempty => Shrink.afterEditorNamespace?_eq_none fun name listed value same => ?_
    obtain ⟨e, w, rfl⟩ := List.exists_cons_of_ne_nil nonempty
    have first := steady.noBlank e (ends.subset List.mem_cons_self)
    rw [List.cons_append, List.dropWhile_cons_of_neg (by simp [first]), ← List.cons_append] at same
    have noEquals : '=' ∉ e :: w := fun member => absurd (plain.2 _ (ends.subset member)) (by decide)
    refine Shrink.undeclared_of_noEquals noEquals name listed (Shrink.declarationOf_prefix listed (fun c head => ?_) same).isInfix
    rcases follows c head with space | rfl | rfl
    · refine ⟨fun _ => Text.isBlank_of_isSpace space, ?_, ?_⟩ <;> (rintro rfl; cases space)
    · exact ⟨by decide, by decide, by decide⟩
    · exact ⟨by decide, by decide, by decide⟩
  blanks _ blank c s close := by
    rcases close with rfl | rfl <;> exact Shrink.idle_blanks_other blank.isBlank (by decide) (by decide) s
  bracket := by
    intro c member s
    have others : ∀ c ∈ ['<', '/', '>'], Text.isBlank c = false ∧ c ≠ 'x' := by decide
    have idle := Shrink.idle_others (u := [c]) (fun d same => List.mem_singleton.mp same ▸ others c member) s
    simpa [Shrink.removal] using idle.1

/-! ## In other pieces -/

namespace Piece

variable {level : Shrink.Level}

/-- A piece in whose body no declaration begins stays. -/
theorem Framed.idle_afterEditorNamespace? {p : Piece} (framed : p.Framed) (undeclared : Shrink.Undeclared p.body)
    {s : Text} (ends : p.isRun = true → EndsRuns s) :
    Text.Idle (Shrink.removal Shrink.afterEditorNamespace?) p.source s := by
  have blocks : ∀ c ∈ bodyStops, (Shrink.isNamePart c = false ∧ c ≠ '=' ∧ c ≠ '"') ∧ Text.isBlank c = false := by decide
  rw [source_eq_body, Text.idle_append_iff, Text.idle_append_iff, List.append_assoc]
  refine ⟨Shrink.idle_others framed.opening _, Shrink.idle_undeclared undeclared fun c head => ?_,
    Shrink.idle_others framed.closing s⟩
  obtain ⟨⟨noPart, noEquals, noQuote⟩, noBlank⟩ := blocks c (framed.mem_bodyStops ends c head)
  exact ⟨⟨fun part => absurd part (by simp [noPart]), noEquals, noQuote⟩, noBlank⟩

end Piece

theorem removeEditorNamespaces_sweeps {level : Shrink.Level} {styled : Prop} :
    Sweeps (Shrink.removal Shrink.afterEditorNamespace?)
      ⟨fun p => p.Inert level ∧ Shrink.Undeclared p.body, SpelledTag.Ready styled⟩
      ⟨Piece.Inert level, SpelledTag.Ready styled⟩ SpelledAttribute.DeclaresEditor fun _ => False := by
  refine removesEditorNamespaces.sweeps (fun s => ?_) fun p inert _ ends =>
    ⟨p, inert.1, id, (inert.1.framed.idle_afterEditorNamespace? inert.2 ends).substitute⟩
  have idle := Shrink.idle_others (u := [byteOrderMark]) (by decide) s
  simpa [Shrink.removal] using idle.1

end SvgEdit
