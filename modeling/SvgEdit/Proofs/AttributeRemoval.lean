import SvgEdit.Proofs.Sweeping

/-!
# Attributes removed

Attributes without a value and declarations of editors' names are found with the blanks before them.
In a tidy tag nothing else is found, so what is left is the tag without these attributes.
-/
namespace SvgEdit

theorem isQuote_of_isSpace {c : Char} (space : isSpace c = true) : Shrink.isQuote c = false := by
  cases quote : Shrink.isQuote c with
  | false => rfl
  | true =>
    simp only [Shrink.isQuote, Bool.or_eq_true, decide_eq_true_eq] at quote
    rcases quote with rfl | rfl <;> cases space

/-- What is recognised in tags: attributes that are `gone`, and nothing else. -/
structure RemovesAttributes (after? : Text → Option Text) (gone : SpelledAttribute → Prop) : Prop where
  taken : ∀ a : SpelledAttribute, a.Proper → a.Tidy → gone a → ∀ s, after? (a.source ++ s) = some s
  kept : ∀ a : SpelledAttribute, a.Proper → a.Tidy → ¬ gone a → ∀ s, (∀ c ∈ s.head?, Shrink.isQuote c = false) →
    Text.Idle (Shrink.removal after?) a.source s
  name : ∀ name, Plain name → Steady name → ∀ s, (∀ c ∈ s.head?, isSpace c = true ∨ c = '>' ∨ c = '/') →
    Text.Idle (Shrink.removal after?) name s
  blanks : ∀ blanks, Spaces blanks → ∀ c s, (c = '>' ∨ c = '/') → Text.Idle (Shrink.removal after?) blanks (c :: s)
  bracket : ∀ c ∈ ['<', '/', '>'], ∀ s, after? (c :: s) = none

namespace RemovesAttributes

variable {after? : Text → Option Text} {gone : SpelledAttribute → Prop}

theorem idle_bracket (removes : RemovesAttributes after? gone) {u : Text} (brackets : ∀ c ∈ u, c ∈ ['<', '/', '>'])
    (s : Text) : Text.Idle (Shrink.removal after?) u s := by
  refine Text.idle_of_chars (fun c member t => ?_) s
  rw [Shrink.removal, removes.bracket c (brackets c member)]
  rfl

theorem exists_attributes (removes : RemovesAttributes after? gone) {as : List SpelledAttribute}
    (proper : ∀ a ∈ as, a.Proper) (tidy : ∀ a ∈ as, a.Tidy) :
    ∃ as' : List SpelledAttribute, as'.Sublist as ∧ (∀ a ∈ as, ¬ gone a → a ∈ as') ∧
      ∀ s, (∀ c ∈ s.head?, Shrink.isQuote c = false) →
        Shrink.remove after? (as.flatMap SpelledAttribute.source ++ s) =
          as'.flatMap SpelledAttribute.source ++ Shrink.remove after? s := by
  induction as with
  | nil => exact ⟨[], .slnil, fun _ member _ => member, fun _ _ => rfl⟩
  | cons a as ih =>
    obtain ⟨as', less, kept, later⟩ := ih (fun b member => proper b (List.mem_cons_of_mem a member))
      (fun b member => tidy b (List.mem_cons_of_mem a member))
    have here := proper a List.mem_cons_self
    have here' := tidy a List.mem_cons_self
    obtain ⟨d, before, same⟩ := List.exists_cons_of_ne_nil here.apart
    by_cases goes : gone a
    · refine ⟨as', less.cons a, List.forall_mem_cons.mpr ⟨fun stays => absurd goes stays, kept⟩, fun s head => ?_⟩
      have found := removes.taken a here here' goes (as.flatMap SpelledAttribute.source ++ s)
      rw [List.flatMap_cons, List.append_assoc, ← later s head]
      rw [SpelledAttribute.source, same] at found ⊢
      exact Shrink.remove_cons_of_some found (by simp; omega)
    · refine ⟨a :: as', less.cons_cons a, List.forall_mem_cons.mpr ⟨fun _ => List.mem_cons_self,
        fun b member stays => List.mem_cons_of_mem a (kept b member stays)⟩, fun s head => ?_⟩
      rw [List.flatMap_cons, List.flatMap_cons, List.append_assoc, List.append_assoc, ← later s head]
      refine Shrink.remove_append_of_idle (removes.kept a here here' goes _ ?_)
      intro c first
      cases as with
      | nil => exact head c first
      | cons b as =>
        have next := proper b (List.mem_cons_of_mem a List.mem_cons_self)
        obtain ⟨e, before', same'⟩ := List.exists_cons_of_ne_nil next.apart
        rw [List.flatMap_cons, SpelledAttribute.source, same'] at first
        obtain rfl := Option.some.inj first
        exact isQuote_of_isSpace (next.before e (by rw [same']; exact List.mem_cons_self))

theorem exists_tag (removes : RemovesAttributes after? gone) {styled : Prop} {t : SpelledTag} (ready : t.Ready styled) :
    ∃ t' : SpelledTag, t'.Ready styled ∧ t.Keeps gone t' ∧
      ∀ c more s, (c = '>' ∨ c = '/') → (∀ d ∈ more, d ∈ ['<', '/', '>']) →
        Shrink.remove after? ('<' :: (t.inside ++ c :: more) ++ s) =
          '<' :: (t'.inside ++ c :: more) ++ Shrink.remove after? s := by
  obtain ⟨as, less, kept, same⟩ := removes.exists_attributes ready.tidy.proper.attributes ready.tidy.attributes
  have keeps : t.Keeps gone { t with attributes := as } :=
    ⟨rfl, fun key member => .inl ((less.map _).subset member),
      fun a member stays => List.mem_map_of_mem (kept a member stays)⟩
  refine ⟨{ t with attributes := as }, ready.sublist less, keeps, fun c more s close brackets => ?_⟩
  have closing : Shrink.remove after? (c :: (more ++ s)) = c :: (more ++ Shrink.remove after? s) := by
    refine Shrink.remove_append_of_idle (u := c :: more) (removes.idle_bracket (fun d member => ?_) s)
    rcases List.mem_cons.mp member with rfl | member
    · rcases close with rfl | rfl <;> decide
    · exact brackets d member
  have blanks := Shrink.remove_append_of_idle
    (removes.blanks t.blanks ready.tidy.proper.blanks c (more ++ s) close)
  have head : ∀ d ∈ (t.blanks ++ c :: (more ++ s)).head?, Shrink.isQuote d = false := by
    intro d first
    cases same : t.blanks with
    | nil =>
      rw [same] at first
      obtain rfl := Option.some.inj first
      rcases close with rfl | rfl <;> rfl
    | cons e u =>
      rw [same] at first
      obtain rfl := Option.some.inj first
      exact isQuote_of_isSpace (ready.tidy.proper.blanks e (by rw [same]; exact List.mem_cons_self))
  have name := Shrink.remove_append_of_idle (s := t.middle ++ (t.blanks ++ c :: (more ++ s)))
    (removes.name t.name ready.tidy.proper.name ready.tidy.name _ fun d first => by
      rw [← List.append_assoc] at first
      rcases ready.tidy.head?_rest _ d first with space | rfl
      · exact .inl space
      · exact .inr close)
  have start := Shrink.remove_append_of_idle (u := ['<']) (s := t.name ++ (t.middle ++ (t.blanks ++ c :: (more ++ s))))
    (removes.idle_bracket (by decide) _)
  have whole : '<' :: (t.inside ++ c :: more) ++ s =
      ['<'] ++ (t.name ++ (t.middle ++ (t.blanks ++ c :: (more ++ s)))) := by simp [SpelledTag.inside]
  rw [whole, start, name, SpelledTag.middle, same _ head, blanks, closing]
  simp [SpelledTag.inside, SpelledTag.middle]

/-- Tags are swept by leaving attributes out. -/
theorem sweeps (removes : RemovesAttributes after? gone) {piece piece' : Piece → Prop} {styled : Prop}
    (mark : ∀ s, after? (byteOrderMark :: s) = none)
    (other : ∀ p, piece p → ∀ s, (p.isRun = true → EndsRuns s) →
      ∃ p', piece' p' ∧ (p.isOutside = true → p'.isOutside = true) ∧
        Shrink.remove after? (p.source ++ s) = p'.source ++ Shrink.remove after? s) :
    Sweeps (Shrink.removal after?) ⟨piece, SpelledTag.Ready styled⟩ ⟨piece', SpelledTag.Ready styled⟩ gone
      fun _ => False := by
  refine Sweeps.of_tags (fun s => by rw [Shrink.removal, mark]; rfl) other (fun t here => ?_) fun t blanks here blank s => ?_
  · obtain ⟨t', here', keeps, same⟩ := removes.exists_tag here
    exact ⟨t', here', keeps, fun s => same '>' [] s (.inl rfl) fun _ member => absurd member List.not_mem_nil,
      fun s => same '/' ['>'] s (.inr rfl) (by decide)⟩
  · have front := Shrink.remove_append_of_idle (u := ['<', '/']) (s := t.name ++ (blanks ++ '>' :: s))
      (removes.idle_bracket (by decide) _)
    have head : ∀ d ∈ (blanks ++ '>' :: s).head?, isSpace d = true ∨ d = '>' ∨ d = '/' := by
      intro d first
      cases same : blanks with
      | nil =>
        rw [same] at first
        exact .inr (.inl (Option.some.inj first).symm)
      | cons e u =>
        rw [same] at first
        obtain rfl := Option.some.inj first
        exact .inl (blank e (by rw [same]; exact List.mem_cons_self))
    have name := Shrink.remove_append_of_idle (removes.name t.name here.tidy.proper.name here.tidy.name _ head)
    have blanks' := Shrink.remove_append_of_idle (removes.blanks blanks blank '>' s (.inl rfl))
    have close := Shrink.remove_append_of_idle (u := ['>']) (s := s) (removes.idle_bracket (by decide) s)
    have whole : (Piece.endTag (t.name ++ blanks)).source ++ s = ['<', '/'] ++ (t.name ++ (blanks ++ '>' :: s)) := by
      simp [Piece.source]
    change Shrink.remove after? ('>' :: s) = '>' :: Shrink.remove after? s at close
    change Shrink.remove after? _ = _ ++ Shrink.remove after? s
    rw [whole, front, name, blanks', close]
    simp [Piece.source]

end RemovesAttributes
end SvgEdit
