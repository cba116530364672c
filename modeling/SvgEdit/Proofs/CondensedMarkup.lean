import SvgEdit.Proofs.Condensing
import SvgEdit.Proofs.EmptyAttributes

/-!
# Condensed markup

What is condensed has the same markup: names stay, values keep their references, and every piece becomes
a piece of its kind.
-/
namespace SvgEdit
namespace Condensed

variable {s t u : Text}

/-! ## Tags -/

/-- What follows a name is no part of a number. -/
theorem noDigit_of_ends {c : Char} (ends : isSpace c = true ∨ c ∈ ['>', '/', '=']) : c.isDigit = false ∧ c ≠ '.' := by
  rcases ends with space | mark
  · simp only [isSpace, Bool.or_eq_true, decide_eq_true_eq] at space
    rcases space with ((rfl | rfl) | rfl) | rfl <;> decide
  · revert c
    decide

theorem eq_nil (h : Condensed [] t) : t = [] := by
  generalize empty : [] = s at h
  cases h with
  | nil => rfl
  | keep => cases empty
  | decimal decimal => exact absurd (List.append_eq_nil_iff.mp empty.symm).1 decimal.nonempty
  | blank run => exact absurd (List.append_eq_nil_iff.mp empty.symm).1 run.nonempty
  | noBlank run => exact absurd (List.append_eq_nil_iff.mp empty.symm).1 run.nonempty
  | opening => cases empty

/-- A value keeps its references. -/
theorem exists_value {raw : Text} (references : References raw) {c : Char} (fixed : Fixed c) (noPoint : c ≠ '.')
    (h : Condensed (raw ++ c :: s) t) :
    ∃ raw' t', t = raw' ++ t' ∧ Resembles raw raw' ∧ References raw' ∧ Condensed (c :: s) t' := by
  induction size : raw.length using Nat.strong_induction_on generalizing raw t with
  | _ n ih =>
    by_cases plain : '&' ∈ raw
    · obtain ⟨u, w, rfl, free⟩ := List.eq_append_cons_of_mem plain
      rw [references_append_iff free, references_ampersand_iff] at references
      obtain ⟨body, rest, rfl, refers, later⟩ := references
      simp only [List.append_assoc, List.cons_append] at h
      obtain ⟨u', t₁, rfl, alike, h₁, -⟩ := exists_parts h (.of_head (by decide) (by decide) (by decide))
      obtain ⟨t₂, rfl, h₂⟩ := exists_fixed h₁ (by decide) fun same => absurd same (by decide)
      have inBody : ∀ d ∈ body, Text.isBlank d = false ∧ d ≠ '.' ∧ d ≠ '<' := by
        intro d member
        rcases refers.mem d member with letter | rfl
        · refine ⟨Text.isBlank_of_isAlphanum letter, ?_, ?_⟩ <;> (rintro rfl; cases letter)
        · decide
      have steady : Steady body := steady_of_chars (fun d member => (inBody d member).1)
        fun member => (inBody _ member).2.1 rfl
      obtain ⟨t₃, rfl, h₃⟩ := exists_name h₂ steady (fun member => (inBody _ member).2.2 rfl) fun d head => by
        obtain rfl := Option.some.inj head
        decide
      obtain ⟨t₄, rfl, h₄⟩ := exists_fixed h₃ (by decide) fun same => absurd same (by decide)
      have shorter : rest.length < n := by
        rw [← size]
        simp
        omega
      obtain ⟨rest', t', rfl, alike', references, last⟩ := ih rest.length shorter later h₄ rfl
      refine ⟨u' ++ '&' :: (body ++ ';' :: rest'), t', by simp, ?_, ?_, last⟩
      · have inner := (Resembles.refl ('&' :: (body ++ [';']))).append alike'
        simpa using alike.append inner
      · rw [references_append_iff (alike.not_mem free (by decide) (by decide))]
        exact .reference refers references
    · obtain ⟨raw', t', rfl, alike, rest, -⟩ := exists_parts h (.of_head fixed.noBlank fixed.noDigit noPoint)
      exact ⟨raw', t', rfl, alike, references_of_free (alike.not_mem plain (by decide) (by decide)), rest⟩

theorem fixed_quote (quote : QuoteMark) : Fixed quote.char ∧ quote.char ≠ '<' ∧ quote.char ≠ '.' := by
  cases quote <;> decide

/-- An attribute keeps its key. -/
theorem exists_attribute {a : SpelledAttribute} (proper : a.Proper) (steady : Steady a.key)
    (references : References a.raw) (h : Condensed (a.source ++ s) t) :
    ∃ (a' : SpelledAttribute) (t' : Text), a'.Proper ∧ a'.key = a.key ∧ References a'.raw ∧ t = a'.source ++ t' ∧
      Condensed s t' := by
  obtain ⟨fixed, noLess, noPoint⟩ := fixed_quote a.quote
  have whole : a.source ++ s = a.before ++ (a.key ++ (a.between ++ '=' :: (a.after ++ a.quote.char ::
      (a.raw ++ a.quote.char :: s)))) := by simp [SpelledAttribute.source]
  rw [whole] at h
  obtain ⟨k, ks, named⟩ := List.exists_cons_of_ne_nil proper.key.1
  have first := proper.key.2 k (by rw [named]; exact List.mem_cons_self)
  have parted : Parted a.before (a.key ++ (a.between ++ '=' :: (a.after ++ a.quote.char ::
      (a.raw ++ a.quote.char :: s)))) := by
    refine ⟨fun c head => ?_, .inr proper.before.isBlank⟩
    rw [named] at head
    obtain rfl := Option.some.inj head
    exact steady.noBlank k (by rw [named]; exact List.mem_cons_self)
  obtain ⟨before, t₁, rfl, alike, h₁, nonempty⟩ := exists_parts h parted
  have apart : before ≠ [] := by
    refine nonempty proper.apart fun c head member => ?_
    rw [named] at head
    obtain rfl := Option.some.inj head
    have marks : ∀ c ∈ blankStops, isPlainChar c = false := by decide
    rw [marks k member] at first
    cases first
  have noLess' : '<' ∉ a.key := fun member => absurd (proper.key.2 _ member) (by decide)
  have follows : ∀ c ∈ (a.assignment s).head?, c.isDigit = false ∧ c ≠ '.' := by
    intro c head
    rcases proper.head?_assignment c head with space | rfl
    · exact noDigit_of_ends (.inl space)
    · decide
  obtain ⟨t₂, rfl, h₂⟩ := exists_name h₁ steady noLess' follows
  obtain ⟨between, t₃, rfl, alike₁, h₃, -⟩ := exists_parts h₂ (.of_head (by decide) (by decide) (by decide))
  obtain ⟨t₄, rfl, h₄⟩ := exists_fixed h₃ (by decide) fun same => absurd same (by decide)
  obtain ⟨after, t₅, rfl, alike₂, h₅, -⟩ := exists_parts h₄ (.of_head fixed.noBlank fixed.noDigit noPoint)
  obtain ⟨t₆, rfl, h₆⟩ := exists_fixed h₅ fixed fun same => absurd same noLess
  obtain ⟨raw, t₇, rfl, alike₃, references', h₇⟩ := exists_value references fixed noPoint h₆
  obtain ⟨t', rfl, h₈⟩ := exists_fixed h₇ fixed fun same => absurd same noLess
  refine ⟨⟨before, a.key, between, after, a.quote, raw⟩, t', ⟨apart, alike.spaces proper.before, proper.key,
    alike₁.spaces proper.between, alike₂.spaces proper.after, ?_⟩, rfl, references', ?_, h₈⟩
  · refine alike₃.not_mem proper.closed ?_ ?_
    · cases a.quote <;> decide
    · cases a.quote <;> decide
  · simp [SpelledAttribute.source]

theorem exists_attributes {as : List SpelledAttribute} (proper : ∀ a ∈ as, a.Proper) (steady : ∀ a ∈ as, Steady a.key)
    (references : ∀ a ∈ as, References a.raw) (h : Condensed (as.flatMap SpelledAttribute.source ++ s) t) :
    ∃ (as' : List SpelledAttribute) (t' : Text), (∀ a ∈ as', a.Proper ∧ Steady a.key ∧ References a.raw) ∧
      as'.map SpelledAttribute.key = as.map SpelledAttribute.key ∧
      t = as'.flatMap SpelledAttribute.source ++ t' ∧ Condensed s t' := by
  induction as generalizing t with
  | nil => exact ⟨[], t, fun _ member => absurd member List.not_mem_nil, rfl, rfl, h⟩
  | cons a as ih =>
    have here := proper a List.mem_cons_self
    have key := steady a List.mem_cons_self
    rw [List.flatMap_cons, List.append_assoc] at h
    obtain ⟨a', t₁, proper', same, references', rfl, later⟩ :=
      exists_attribute here key (references a List.mem_cons_self) h
    obtain ⟨as', t', all, keys, rfl, last⟩ := ih (fun b member => proper b (List.mem_cons_of_mem a member))
      (fun b member => steady b (List.mem_cons_of_mem a member))
      (fun b member => references b (List.mem_cons_of_mem a member)) later
    refine ⟨a' :: as', t', ?_, by rw [List.map_cons, List.map_cons, same, keys], by simp, last⟩
    exact List.forall_mem_cons.mpr ⟨⟨proper', same ▸ key, references'⟩, all⟩

/-- Blanks before the end of a tag. -/
theorem exists_blanks {blanks : Text} (blank : Spaces blanks) {c : Char} (close : c = '>' ∨ c = '/')
    (h : Condensed (blanks ++ c :: s) t) : ∃ blanks' t', Spaces blanks' ∧ t = blanks' ++ c :: t' ∧ Condensed s t' := by
  have fixed : Fixed c ∧ c ≠ '<' ∧ c ≠ '.' := by
    rcases close with rfl | rfl <;> decide
  obtain ⟨blanks', t₁, rfl, alike, h₁, -⟩ := exists_parts h (.of_head fixed.1.noBlank fixed.1.noDigit fixed.2.2)
  obtain ⟨t', rfl, h₂⟩ := exists_fixed h₁ fixed.1 fun same => absurd same fixed.2.1
  exact ⟨blanks', t', alike.spaces blank, rfl, h₂⟩

/-- A tag keeps its name and its keys. -/
theorem exists_tag {drops : SpelledAttribute → Prop} {tag : SpelledTag} (fit : tag.Fit) {c : Char} {more : Text}
    (closes : c = '>' ∧ more = [] ∨ c = '/' ∧ more = ['>'])
    (h : Condensed ('<' :: (tag.inside ++ c :: more) ++ s) t) :
    ∃ (tag' : SpelledTag) (t' : Text), tag'.Fit ∧ tag.Keeps drops tag' ∧
      t = '<' :: (tag'.inside ++ c :: more) ++ t' ∧ Condensed s t' := by
  have whole : '<' :: (tag.inside ++ c :: more) ++ s =
      '<' :: (tag.name ++ (tag.middle ++ (tag.blanks ++ c :: (more ++ s)))) := by simp [SpelledTag.inside]
  rw [whole] at h
  have close : c = '>' ∨ c = '/' := closes.imp And.left And.left
  obtain ⟨k, ks, named⟩ := List.exists_cons_of_ne_nil fit.proper.name.1
  have first : Text.isBlank k = false := fit.name.noBlank k (by rw [named]; exact List.mem_cons_self)
  obtain ⟨t₁, rfl, h₁⟩ := exists_fixed h (by decide) fun _ d head => by
    rw [named] at head
    exact Option.some.inj head ▸ first
  have follows : ∀ d ∈ (tag.middle ++ (tag.blanks ++ c :: (more ++ s))).head?, d.isDigit = false ∧ d ≠ '.' := by
    intro d head
    have start := fit.proper.head?_rest
    rw [← List.append_assoc] at head
    cases rest : tag.middle ++ tag.blanks with
    | nil =>
      rw [rest] at head
      obtain rfl := Option.some.inj head
      rcases close with rfl | rfl <;> decide
    | cons e u =>
      rw [rest] at head start
      obtain rfl := Option.some.inj head
      exact noDigit_of_ends (.inl (start e rfl))
  obtain ⟨t₂, rfl, h₂⟩ := exists_name h₁ fit.name
    (fun member => absurd (fit.proper.name.2 _ member) (by decide)) follows
  obtain ⟨as, t₃, all, keys, rfl, h₃⟩ :=
    exists_attributes fit.proper.attributes fit.keys fit.readable.references h₂
  obtain ⟨blanks, t₄, blank, rfl, h₄⟩ := exists_blanks fit.proper.blanks close h₃
  have end_ : ∀ d ∈ more, Fixed d ∧ d ≠ '<' := by
    rcases closes with ⟨-, rfl⟩ | ⟨-, rfl⟩
    · exact fun _ member => absurd member List.not_mem_nil
    · decide
  obtain ⟨t', rfl, h₅⟩ := exists_fixedText h₄ end_
  have once : (as.map SpelledAttribute.key).Nodup := keys ▸ fit.readable.once
  refine ⟨⟨tag.name, as, blanks⟩, t', ⟨⟨fit.proper.name, fit.proper.begins, fun a member => (all a member).1, blank⟩,
    fit.name, fun a member => (all a member).2.1, ⟨once, fun a member => (all a member).2.2⟩⟩, .of_keys rfl keys, ?_, h₅⟩
  simp [SpelledTag.inside, SpelledTag.middle]

theorem exists_endTag {name blanks : Text} (plain : Plain name) (steady : Steady name) (blank : Spaces blanks)
    (h : Condensed ((Piece.endTag (name ++ blanks)).source ++ s) t) :
    ∃ blanks' t', Spaces blanks' ∧ t = (Piece.endTag (name ++ blanks')).source ++ t' ∧ Condensed s t' := by
  have whole : (Piece.endTag (name ++ blanks)).source ++ s = '<' :: (['/'] ++ (name ++ (blanks ++ '>' :: s))) := by
    simp [Piece.source]
  rw [whole] at h
  obtain ⟨t₁, rfl, h₁⟩ := exists_fixed h (by decide) fun _ d head =>
    Option.some.inj head ▸ (by decide)
  obtain ⟨t₂, rfl, h₂⟩ := exists_fixedText h₁ (by decide)
  have follows : ∀ d ∈ (blanks ++ '>' :: s).head?, d.isDigit = false ∧ d ≠ '.' := by
    intro d head
    cases rest : blanks with
    | nil =>
      rw [rest] at head
      obtain rfl := Option.some.inj head
      decide
    | cons e u =>
      rw [rest] at head
      obtain rfl := Option.some.inj head
      exact noDigit_of_ends (.inl (blank e (by rw [rest]; exact List.mem_cons_self)))
  obtain ⟨t₃, rfl, h₃⟩ := exists_name h₂ steady (fun member => absurd (plain.2 _ member) (by decide)) follows
  obtain ⟨blanks', t', blank', rfl, h₄⟩ := exists_blanks blank (.inl rfl) h₃
  exact ⟨blanks', t', blank', by simp [Piece.source], h₄⟩

/-! ## Other pieces -/

/-- The opening of a piece stays. -/
theorem exists_opening {p : Piece} (framed : p.Framed) (h : Condensed (p.opening ++ s) t) :
    ∃ t', t = p.opening ++ t' ∧ Condensed s t' := by
  -- a section begins with `<` and another character that stays
  have section_ {c : Char} {front : Text} (fixed : ∀ d ∈ c :: front, Fixed d ∧ d ≠ '<')
      (h : Condensed ('<' :: (c :: front ++ s)) t) : ∃ t', t = '<' :: (c :: front ++ t') ∧ Condensed s t' := by
    obtain ⟨t₁, rfl, h₁⟩ := exists_fixed h (by decide) fun _ d head =>
      Option.some.inj head ▸ (fixed c List.mem_cons_self).1.noBlank
    obtain ⟨t', rfl, h₂⟩ := exists_fixedText h₁ fixed
    exact ⟨t', rfl, h₂⟩
  cases p with
  | text => exact ⟨t, rfl, h⟩
  | reference => exact exists_fixedText (u := ['&']) h (by decide)
  | characterData => exact section_ (c := '!') (by decide) h
  | doctype keyword content =>
    refine section_ (List.forall_mem_cons.mpr ⟨by decide, fun c member => ?_⟩) h
    exact ⟨.of_isAlpha (isAlpha_of_isDoctypeKeyword framed.1 c member), (flat_of_isDoctypeKeyword framed.1 c member).1⟩
  | instruction => exact section_ (c := '?') (by decide) h
  | _ => exact framed.elim

/-- What a body becomes leaves a piece sound. -/
theorem sound_withBody {p : Piece} (sound : p.Sound) {u : Text} (alike : Resembles p.body u) : (p.withBody u).Sound := by
  obtain ⟨framed, closed⟩ := sound
  cases p with
  | text run => exact ⟨alike.free (show Free ['<', '&'] run from framed) (by decide), trivial⟩
  | reference body => exact ⟨alike.free (show Free [';', '&', '<'] body from framed) (by decide), trivial⟩
  | characterData body => exact ⟨trivial, fun inside => closed (alike.infix_unblanked (by decide) inside)⟩
  | doctype keyword content =>
    obtain ⟨doctype, first, bracketed⟩ := framed
    refine ⟨⟨doctype, first, ?_⟩, alike.solid closed⟩
    rwa [← bracketed_filter_iff, alike.filter_isAngle, bracketed_filter_iff]
  | instruction body =>
    refine ⟨trivial, fun inside => closed ?_⟩
    rw [← Text.unblanked_cons_of_solid (by decide)] at inside ⊢
    exact (Resembles.keep '?' alike).infix_unblanked (by decide) inside
  | _ => exact framed.elim

theorem exists_piece {p : Piece} (sound : p.Sound) (ends : p.isRun = true → EndsRuns s)
    (h : Condensed (p.source ++ s) t) :
    ∃ (p' : Piece) (t' : Text), p'.Sound ∧ (p.isOutside = true → p'.isOutside = true) ∧ t = p'.source ++ t' ∧
      Condensed s t' := by
  have stops : ∀ c ∈ bodyStops, Text.isBlank c = false ∧ c.isDigit = false ∧ c ≠ '.' := by decide
  have closes : ∀ c ∈ ';' :: sectionStops, Fixed c ∧ c ≠ '<' := by decide
  have follows := sound.framed.mem_bodyStops ends
  rw [p.source_eq_body, List.append_assoc, List.append_assoc] at h
  obtain ⟨t₁, rfl, h₁⟩ := exists_opening sound.framed h
  obtain ⟨u, t₂, rfl, alike, h₂, -⟩ := exists_parts h₁
    ⟨fun c head => (stops c (follows c head)).1, .inl fun c head => (stops c (follows c head)).2⟩
  obtain ⟨t', rfl, h₃⟩ := exists_fixedText h₂ fun c member => closes c (sound.framed.mem_closing c member)
  refine ⟨p.withBody u, t', sound_withBody sound alike, fun outside => ?_, by simp [Piece.source_withBody], h₃⟩
  cases p with
  | text run => exact alike.isBlankText outside
  | _ => exact outside

theorem carries :
    Carries Condensed ⟨Piece.Sound, SpelledTag.Fit⟩ ⟨Piece.Sound, SpelledTag.Fit⟩ (fun _ => False)
      fun _ => False where
  done u h := h.eq_nil
  mark s u h := exists_fixed h (by decide) fun same => absurd same (by decide)
  other p sound s ends u h := exists_piece sound ends h
  empty t fit s u h := .inr (exists_tag fit (.inr ⟨rfl, rfl⟩) h)
  element t blanks inside fit _ _ s rest u _ h := .inr (exists_tag fit (.inl ⟨rfl, rfl⟩) h)
  close t blanks fit blank s u h := exists_endTag fit.proper.name fit.name blank h

end Condensed
end SvgEdit
