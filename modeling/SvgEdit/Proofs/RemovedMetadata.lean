import SvgEdit.Proofs.JoinedRuns
import SvgEdit.Proofs.PrefixScopes
import SvgEdit.Proofs.Removals

/-!
# Elements beside metadata

Metadata is removed from the text as such: from what looks like its tag to the first `</metadata>`. Where what
looks like a tag of metadata is one, this takes pieces out of the text, each time from a start tag to the next
end tag of metadata. If a document is left, then as many of its tags begin metadata as end it; so whole elements
were taken out, and those beside metadata are all there.
-/
namespace SvgEdit

/-! ## Metadata in a text -/

/-- The text begins like a tag of metadata: after the name stands a blank or the end of the tag. -/
def opensMetadata (s : Text) : Bool :=
  match Text.dropPrefix? Shrink.metadataStart s with
  | some ('>' :: _) => true
  | some ('/' :: rest) => rest.head? = some '>'
  | some (c :: _) => Text.isBlank c
  | _ => false

/-- Nothing begins like a tag of metadata in a text before pieces. -/
def Quiet (u : Text) (later : List Piece) : Prop :=
  ∀ w ∈ u.tails, w ≠ [] → opensMetadata (w ++ later.flatMap Piece.source) = false

instance (u : Text) (later : List Piece) : Decidable (Quiet u later) := inferInstanceAs (Decidable (∀ w ∈ u.tails, _))

/-- No slash stands before the first `>`. -/
def FirstGreaterBare (u : Text) : Prop := '>' ∈ u → (u.takeWhile (· ≠ '>')).getLast? ≠ some '/'

instance (u : Text) : Decidable (FirstGreaterBare u) := inferInstanceAs (Decidable (_ → _))

namespace Piece

def startsMetadata : Piece → Bool
  | startTag inside => tagName inside = metadataName
  | _ => false

def endsMetadata : Piece → Bool
  | endTag inside => endName inside = metadataName
  | _ => false

end Piece

/-- Pieces in which what looks like a tag of metadata is one, and what looks like its end too, from left to right. -/
inductive MetadataApart : List Piece → Prop
  | nil : MetadataApart []
  | other {p : Piece} {ps : List Piece} (quiet : Quiet p.source ps) (later : MetadataApart ps) : MetadataApart (p :: ps)
  /-- An empty tag of metadata is its name alone, or no `</metadata>` comes; no slash stands before a first `>` in it. -/
  | empty {inside : Text} {ps : List Piece} (named : tagName inside = metadataName)
      (noEnd : inside = metadataName ∨ ¬ Shrink.metadataEnd <:+: (Piece.emptyTag inside :: ps).flatMap Piece.source)
      (bare : FirstGreaterBare inside) (quiet : Quiet (inside ++ ['/', '>']) ps) (later : MetadataApart ps) :
      MetadataApart (.emptyTag inside :: ps)
  /-- A start tag of metadata after which no `</metadata>` comes; no slash stands before a first `>` in it. -/
  | unclosed {inside : Text} {ps : List Piece} (named : tagName inside = metadataName)
      (noEnd : ¬ Shrink.metadataEnd <:+: (Piece.startTag inside :: ps).flatMap Piece.source)
      (bare : FirstGreaterBare (inside ++ ['>'])) (quiet : Quiet (inside ++ ['>']) ps) (later : MetadataApart ps) :
      MetadataApart (.startTag inside :: ps)
  /-- After a start tag of metadata, the first `</metadata>` is the next end tag of metadata. -/
  | element {inside : Text} {within ps : List Piece} (named : tagName inside = metadataName)
      (next : ∀ p ∈ within, p.endsMetadata = false)
      (first : ¬ Shrink.metadataEnd <:+: (Piece.startTag inside :: within).flatMap Piece.source)
      (later : MetadataApart ps) : MetadataApart (.startTag inside :: (within ++ .endTag metadataName :: ps))

/-- Empty tags of metadata left out, and all from a start tag to the next end tag of metadata. -/
inductive Sheds : List Piece → List Piece → Prop
  | nil : Sheds [] []
  | keep {p : Piece} {ps qs : List Piece} (later : Sheds ps qs) : Sheds (p :: ps) (p :: qs)
  | empty {inside : Text} {ps qs : List Piece} (named : tagName inside = metadataName) (later : Sheds ps qs) :
      Sheds (.emptyTag inside :: ps) qs
  | element {inside : Text} {within ps qs : List Piece} (named : tagName inside = metadataName)
      (next : ∀ p ∈ within, p.endsMetadata = false) (later : Sheds ps qs) :
      Sheds (.startTag inside :: (within ++ .endTag metadataName :: ps)) qs

theorem Sheds.subset {ps qs : List Piece} (h : Sheds ps qs) : ∀ q ∈ qs, q ∈ ps := by
  induction h with
  | nil => exact fun _ member => member
  | keep _ ih =>
    intro q member
    rcases List.mem_cons.mp member with rfl | member
    · exact List.mem_cons_self
    · exact List.mem_cons_of_mem _ (ih q member)
  | empty _ _ ih => exact fun q member => List.mem_cons_of_mem _ (ih q member)
  | element _ _ _ ih =>
    intro q member
    exact List.mem_cons_of_mem _ (List.mem_append_right _ (List.mem_cons_of_mem _ (ih q member)))

/-! ## What the pattern takes -/

theorem opensMetadata_of_afterMetadata? {s rest : Text} (found : Shrink.afterMetadata? s = some rest) :
    opensMetadata s = true := by
  unfold Shrink.afterMetadata? at found
  unfold opensMetadata
  cases start : Text.dropPrefix? Shrink.metadataStart s with
  | none =>
    rw [start] at found
    cases found
  | some s' =>
    cases s' with
    | nil =>
      rw [start] at found
      cases found
    | cons c more =>
      simp only [start] at found ⊢
      by_cases greater : c = '>'
      · subst greater
        rfl
      · rw [if_neg greater] at found
        by_cases slash : c = '/'
        · subst slash
          rw [if_pos rfl] at found
          cases more with
          | nil => cases found
          | cons d more =>
            rw [Shrink.afterChar?] at found
            split at found
            · next close => simp [close]
            · cases found
        · rw [if_neg slash] at found
          split at found
          · next blank => simp [blank]
          · cases found

theorem Quiet.idle {u : Text} {later : List Piece} (quiet : Quiet u later) :
    Text.Idle (Shrink.removal Shrink.afterMetadata?) u (later.flatMap Piece.source) := by
  refine Text.idle_of_suffixes fun w ends nonempty => ?_
  by_contra found
  obtain ⟨pair, found⟩ := Option.ne_none_iff_exists'.mp found
  obtain ⟨rest, found, -⟩ := Option.map_eq_some_iff.mp found
  have opens := opensMetadata_of_afterMetadata? found
  rw [quiet w ((List.mem_tails _ _).mpr ends) nonempty] at opens
  cases opens

/-- After the name of a tag stands a blank, if anything. -/
theorem eq_of_tagName {inside name : Text} (named : tagName inside = name) :
    inside = name ∨ ∃ d u, inside = name ++ d :: u ∧ isSpace d = true := by
  have whole : name ++ inside.dropWhile (!isSpace ·) = inside := by
    rw [← named]
    exact List.takeWhile_append_dropWhile
  cases rest : inside.dropWhile (!isSpace ·) with
  | nil =>
    rw [rest, List.append_nil] at whole
    exact .inl whole.symm
  | cons d u =>
    refine .inr ⟨d, u, by rw [← whole, rest], ?_⟩
    have stops := Text.stops_dropWhile (!isSpace ·) inside d (by rw [rest]; rfl)
    simpa using stops

/-- A mark whose first character does not come again is found first where it stands after a text without it. -/
theorem Text.cut?_of_first {c : Char} {mark front : Text} (once : c ∉ mark) (first : ¬ c :: mark <:+: front) (rest : Text) :
    cut? (c :: mark) (front ++ (c :: mark ++ rest)) = some (front, rest) := by
  refine (cut?_eq_some_iff (List.cons_ne_nil _ _)).mpr ⟨by simp, fun b r whole => ?_⟩
  by_contra earlier
  obtain ⟨f, rfl⟩ : b <+: front :=
    List.prefix_of_prefix_length_le ⟨_, by rw [whole, List.append_assoc]⟩ ⟨_, rfl⟩ (by omega)
  rw [List.append_assoc, List.append_assoc] at whole
  have whole := List.append_cancel_left whole
  -- the earlier mark ends in the front, or the second one begins within it
  rcases List.append_eq_append_iff.mp whole with ⟨m, same, back⟩ | ⟨m, same, -⟩
  · cases m with
    | nil =>
      rw [List.append_nil] at same
      exact first ⟨b, [], by rw [same, List.append_nil]⟩
    | cons d m =>
      obtain ⟨rfl, -⟩ := List.cons.inj back
      cases f with
      | nil => simp at earlier
      | cons e f =>
        obtain ⟨-, rfl⟩ := List.cons.inj same
        exact once (List.mem_append_right _ List.mem_cons_self)
  · exact first ⟨b, m, by rw [same, List.append_assoc]⟩

theorem afterMetadata?_start {u : Text} : Text.dropPrefix? Shrink.metadataStart ('<' :: (metadataName ++ u)) = some u := by
  rw [metadataStart_eq]
  exact Text.dropPrefix?_eq_some_iff.mpr rfl

theorem afterFirst?_eq_none {mark s : Text} (absent : ¬ mark <:+: s) : Shrink.afterFirst? mark s = none := by
  by_contra found
  obtain ⟨rest, found⟩ := Option.ne_none_iff_exists'.mp found
  obtain ⟨⟨before, rest'⟩, cut, -⟩ := Option.map_eq_some_iff.mp found
  exact absent ⟨before, rest', (Text.eq_append_of_cut? cut).symm⟩

theorem ne_of_isSpace {c d : Char} (space : isSpace d = true) (mark : isSpace c = false) : d ≠ c := by
  rintro rfl
  rw [mark] at space
  cases space

/-- With a blank after its name a tag is read to the first `>`, and then an end tag is looked for. -/
theorem afterMetadata?_of_cut {d : Char} {u inside rest : Text} (space : isSpace d = true)
    (cut : Text.cut? ['>'] u = some (inside, rest)) :
    Shrink.afterMetadata? ('<' :: (metadataName ++ d :: u)) =
      (Shrink.afterFirst? Shrink.metadataEnd rest).or (if inside.getLast? = some '/' then some rest else none) := by
  simp only [Shrink.afterMetadata?, afterMetadata?_start, if_neg (ne_of_isSpace (c := '>') space rfl),
    if_neg (ne_of_isSpace (c := '/') space rfl), if_pos (Text.isBlank_of_isSpace space), cut]
  cases Shrink.afterFirst? Shrink.metadataEnd rest <;> rfl

/-- A metadata element is recognised up to its first end tag. -/
theorem afterMetadata?_element {inside : Text} (named : tagName inside = metadataName) {within : Text}
    (first : ¬ Shrink.metadataEnd <:+: (Piece.startTag inside).source ++ within) (s : Text) :
    Shrink.afterMetadata? ((Piece.startTag inside).source ++ (within ++ (Shrink.metadataEnd ++ s))) = some s := by
  have ends {front : Text} (part : front <:+: (Piece.startTag inside).source ++ within) :
      Shrink.afterFirst? Shrink.metadataEnd (front ++ (Shrink.metadataEnd ++ s)) = some s := by
    have absent : ¬ Shrink.metadataEnd <:+: front := fun found => first (found.trans part)
    rw [metadataEnd_eq] at absent ⊢
    rw [Shrink.afterFirst?, Text.cut?_of_first (by decide) absent]
    rfl
  rcases eq_of_tagName named with rfl | ⟨d, u, rfl, space⟩
  · have part : within <:+: (Piece.startTag metadataName).source ++ within := (List.suffix_append _ _).isInfix
    simp only [Piece.source, List.cons_append, List.append_assoc, Shrink.afterMetadata?, afterMetadata?_start,
      List.nil_append, if_true]
    exact ends part
  · obtain ⟨before, front, cut, -⟩ := Text.exists_cut?_singleton '>' u (within ++ (Shrink.metadataEnd ++ s))
    have part : front ++ within <:+: (Piece.startTag (metadataName ++ d :: u)).source ++ within := by
      have whole := Text.eq_append_of_cut? cut
      have inner : u ++ '>' :: within = before ++ ['>'] ++ (front ++ within) := by
        have same : u ++ '>' :: within ++ (Shrink.metadataEnd ++ s) =
            before ++ ['>'] ++ (front ++ within) ++ (Shrink.metadataEnd ++ s) := by simpa using whole
        exact List.append_cancel_right same
      refine ⟨'<' :: (metadataName ++ d :: (before ++ ['>'])), [], ?_⟩
      have inner : u ++ '>' :: within = before ++ '>' :: (front ++ within) := by simpa using inner
      simp [Piece.source, inner]
    have found := ends part
    rw [List.append_assoc] at found
    have source : (Piece.startTag (metadataName ++ d :: u)).source ++ (within ++ (Shrink.metadataEnd ++ s)) =
        '<' :: (metadataName ++ d :: (u ++ '>' :: (within ++ (Shrink.metadataEnd ++ s)))) := by simp [Piece.source]
    rw [source, afterMetadata?_of_cut space cut, found, Option.some_or]

/-- Before no end tag, a tag is recognised if a slash stands before its first `>`. -/
theorem afterMetadata?_cut {d : Char} {u before after : Text} (space : isSpace d = true) (outside : '>' ∉ before)
    (whole : u = before ++ '>' :: after) (noEnd : ¬ Shrink.metadataEnd <:+: after) :
    Shrink.afterMetadata? ('<' :: (metadataName ++ d :: u)) =
      if before.getLast? = some '/' then some after else none := by
  have cut : Text.cut? ['>'] (before ++ (['>'] ++ after)) = some (before, after) :=
    Text.cut?_of_first (by simp) (fun part => outside (part.subset List.mem_cons_self)) after
  rw [List.singleton_append, ← whole] at cut
  rw [afterMetadata?_of_cut space cut, afterFirst?_eq_none noEnd, Option.none_or]

theorem FirstGreaterBare.getLast?_ne {d : Char} {before after : Text} (space : isSpace d = true)
    (bare : FirstGreaterBare (metadataName ++ d :: (before ++ '>' :: after))) (outside : '>' ∉ before) :
    before.getLast? ≠ some '/' := by
  intro slash
  obtain ⟨front, rfl⟩ := List.getLast?_eq_some_iff.mp slash
  have notGreater : d ≠ '>' := ne_of_isSpace space rfl
  have first : (metadataName ++ d :: (front ++ ['/']) ++ '>' :: after).takeWhile (· ≠ '>') =
      metadataName ++ d :: (front ++ ['/']) := by
    refine Text.takeWhile_append_of_stop (fun c member => decide_eq_true ?_) (by simp)
    rintro rfl
    rcases List.mem_append.mp member with member | member
    · exact absurd member (by decide)
    · exact (List.mem_cons.mp member).elim (notGreater ·.symm) outside
  have bare := bare (by simp)
  rw [← List.cons_append, ← List.append_assoc, first, ← List.cons_append, ← List.append_assoc] at bare
  exact bare List.getLast?_concat

/-- An empty tag of metadata before no end tag is recognised, or it has a `>` in a value and nothing is. -/
theorem afterMetadata?_empty {inside : Text} (named : tagName inside = metadataName) {s : Text}
    (noEnd : inside = metadataName ∨ ¬ Shrink.metadataEnd <:+: (Piece.emptyTag inside).source ++ s)
    (bare : FirstGreaterBare inside) :
    Shrink.afterMetadata? ((Piece.emptyTag inside).source ++ s) = some s ∨
      Shrink.afterMetadata? ((Piece.emptyTag inside).source ++ s) = none := by
  rcases eq_of_tagName named with rfl | ⟨d, u, rfl, space⟩
  · left
    simp [Piece.source, Shrink.afterMetadata?, afterMetadata?_start, Shrink.afterChar?]
  · have absent : ¬ Shrink.metadataEnd <:+: (Piece.emptyTag (metadataName ++ d :: u)).source ++ s := by
      rcases noEnd with same | absent
      · simp at same
      · exact absent
    have source : (Piece.emptyTag (metadataName ++ d :: u)).source ++ s =
        '<' :: (metadataName ++ d :: (u ++ '/' :: '>' :: s)) := by simp [Piece.source]
    rw [source] at absent ⊢
    have behind {before after : Text} (whole : u ++ '/' :: '>' :: s = before ++ '>' :: after) :
        ¬ Shrink.metadataEnd <:+: after := by
      refine fun found => absent (found.trans ?_)
      exact ⟨'<' :: (metadataName ++ d :: (before ++ ['>'])), [], by simp [whole]⟩
    by_cases greater : '>' ∈ u
    · right
      obtain ⟨before, after, rfl, outside⟩ := List.eq_append_cons_of_mem greater
      have whole : before ++ '>' :: after ++ '/' :: '>' :: s = before ++ '>' :: (after ++ '/' :: '>' :: s) := by simp
      rw [afterMetadata?_cut space outside whole (behind whole), if_neg (bare.getLast?_ne space outside)]
    · left
      have outside : '>' ∉ u ++ ['/'] := by simpa using greater
      have whole : u ++ '/' :: '>' :: s = u ++ ['/'] ++ '>' :: s := by simp
      rw [afterMetadata?_cut space outside whole (behind whole), if_pos (by simp)]

/-- A start tag of metadata before no end tag is not recognised. -/
theorem afterMetadata?_unclosed {inside : Text} (named : tagName inside = metadataName) {s : Text}
    (noEnd : ¬ Shrink.metadataEnd <:+: (Piece.startTag inside).source ++ s) (bare : FirstGreaterBare (inside ++ ['>'])) :
    Shrink.afterMetadata? ((Piece.startTag inside).source ++ s) = none := by
  rcases eq_of_tagName named with rfl | ⟨d, u, rfl, space⟩
  · have absent := afterFirst?_eq_none fun found => noEnd (found.trans (List.suffix_append _ s).isInfix)
    simp only [Piece.source, List.cons_append, List.append_assoc, List.nil_append, Shrink.afterMetadata?,
      afterMetadata?_start, if_true, absent]
  · obtain ⟨before, after, same, outside⟩ : ∃ before after, u ++ ['>'] = before ++ '>' :: after ∧ '>' ∉ before :=
      List.eq_append_cons_of_mem (by simp)
    have whole : u ++ '>' :: s = before ++ '>' :: (after ++ s) := by
      rw [← List.cons_append, ← List.append_assoc, ← same, List.append_assoc, List.singleton_append]
    have source : (Piece.startTag (metadataName ++ d :: u)).source ++ s =
        '<' :: (metadataName ++ d :: (u ++ '>' :: s)) := by simp [Piece.source]
    have behind : ¬ Shrink.metadataEnd <:+: after ++ s := by
      refine fun found => noEnd (found.trans ?_)
      exact ⟨'<' :: (metadataName ++ d :: (before ++ ['>'])), [], by simp [source, whole]⟩
    rw [List.append_assoc, List.cons_append, same] at bare
    rw [source, afterMetadata?_cut space outside whole behind, if_neg (bare.getLast?_ne space outside)]

/-- Removing metadata takes pieces away. -/
theorem exists_sheds {ps : List Piece} (apart : MetadataApart ps) :
    ∃ qs, Sheds ps qs ∧ Shrink.removeMetadata (ps.flatMap Piece.source) = qs.flatMap Piece.source := by
  have kept {p : Piece} {s : Text} (idle : Text.Idle (Shrink.removal Shrink.afterMetadata?) p.source s) :
      Shrink.removeMetadata (p.source ++ s) = p.source ++ Shrink.removeMetadata s := Shrink.remove_append_of_idle idle
  induction apart with
  | nil => exact ⟨[], .nil, Shrink.remove_nil⟩
  | @other p ps quiet later ih =>
    obtain ⟨qs, sheds, removed⟩ := ih
    exact ⟨p :: qs, .keep sheds, by rw [List.flatMap_cons, kept quiet.idle, removed, List.flatMap_cons]⟩
  | @empty inside ps named noEnd bare quiet later ih =>
    obtain ⟨qs, sheds, removed⟩ := ih
    rw [List.flatMap_cons] at noEnd ⊢
    rcases afterMetadata?_empty named noEnd bare with found | none
    · refine ⟨qs, .empty named sheds, ?_⟩
      rw [← removed]
      exact Shrink.remove_cons_of_some found (by simp; omega)
    · refine ⟨.emptyTag inside :: qs, .keep sheds, ?_⟩
      rw [kept (p := .emptyTag inside) ⟨congrArg (Option.map _) none, quiet.idle⟩, removed, List.flatMap_cons]
  | @unclosed inside ps named noEnd bare quiet later ih =>
    obtain ⟨qs, sheds, removed⟩ := ih
    have none := afterMetadata?_unclosed named (List.flatMap_cons ▸ noEnd) bare
    refine ⟨.startTag inside :: qs, .keep sheds, ?_⟩
    rw [List.flatMap_cons, kept (p := .startTag inside) ⟨congrArg (Option.map _) none, quiet.idle⟩, removed,
      List.flatMap_cons]
  | @element inside within ps named next first later ih =>
    obtain ⟨qs, sheds, removed⟩ := ih
    refine ⟨qs, .element named next sheds, ?_⟩
    have found := afterMetadata?_element named (List.flatMap_cons ▸ first) (ps.flatMap Piece.source)
    rw [← removed, List.flatMap_cons, List.flatMap_append, List.flatMap_cons]
    have close : (Piece.endTag metadataName).source = Shrink.metadataEnd := metadataEnd_eq.symm
    rw [close]
    exact Shrink.remove_cons_of_some found (by simp; omega)

/-! ## What is beside metadata -/

/-- The tags of elements beside metadata; `depth` counts what is open from the outermost metadata element on. -/
def tagsBeside : (depth : Nat) → List Piece → List Piece
  | _, [] => []
  | 0, .startTag inside :: ps =>
    if tagName inside = metadataName then tagsBeside 1 ps else .startTag inside :: tagsBeside 0 ps
  | 0, .emptyTag inside :: ps =>
    if tagName inside = metadataName then tagsBeside 0 ps else .emptyTag inside :: tagsBeside 0 ps
  | depth + 1, .startTag _ :: ps => tagsBeside (depth + 2) ps
  | depth + 1, .endTag _ :: ps => tagsBeside depth ps
  | depth, _ :: ps => tagsBeside depth ps

theorem tagsBeside_tags (depth : Nat) (ps : List Piece) : tagsBeside depth (ps.filter Piece.isTag) = tagsBeside depth ps := by
  induction ps generalizing depth with
  | nil => rfl
  | cons p ps ih =>
    cases p with
    | startTag | emptyTag | endTag =>
      rw [List.filter_cons_of_pos rfl]
      cases depth <;> simp only [tagsBeside, ih]
    | _ =>
      rw [List.filter_cons_of_neg Bool.false_ne_true, ih]
      cases depth <;> rfl

/-- Up to the end tag that closes the metadata element, everything is inside of it, and elements are closed. -/
theorem tagsBeside_within {within ps : List Piece} {stack opened : List Text}
    (nests : Nests (stack ++ metadataName :: opened) (within ++ .endTag metadataName :: ps))
    (starts : ∀ p ∈ within, p.startsMetadata = false) (ends : ∀ p ∈ within, p.endsMetadata = false)
    (other : metadataName ∉ stack) :
    Nests opened ps ∧ ∀ depth,
      tagsBeside (depth + stack.length + 1) (within ++ .endTag metadataName :: ps) = tagsBeside depth ps := by
  induction within generalizing stack with
  | nil =>
    obtain ⟨opened', opens, later⟩ := nests
    cases stack with
    | nil =>
      obtain rfl : opened = opened' := Except.ok.inj opens
      exact ⟨later, fun _ => rfl⟩
    | cons name stack =>
      have notName : name ≠ Piece.endName metadataName := fun same => other (same ▸ List.mem_cons_self)
      simp [openAfter, notName] at opens
  | cons p within ih =>
    obtain ⟨opened', opens, later⟩ := nests
    obtain ⟨start, starts'⟩ := List.forall_mem_cons.mp starts
    obtain ⟨stop, ends'⟩ := List.forall_mem_cons.mp ends
    cases p with
    | startTag inside =>
      obtain rfl := Except.ok.inj opens
      have notMetadata : metadataName ≠ tagName inside := by
        intro same
        simp [Piece.startsMetadata, ← same] at start
      have inner : Nests ((tagName inside :: stack) ++ metadataName :: opened) (within ++ .endTag metadataName :: ps) :=
        later
      exact ih inner starts' ends' (by simp [notMetadata, other])
    | endTag inside =>
      have notMetadata : metadataName ≠ Piece.endName inside := by
        intro same
        simp [Piece.endsMetadata, ← same] at stop
      cases stack with
      | nil => simp [openAfter, notMetadata] at opens
      | cons name stack =>
        by_cases same : name = Piece.endName inside
        · simp only [List.cons_append, openAfter, same, if_true] at opens
          obtain rfl := Except.ok.inj opens
          exact ih later starts' ends' fun member => other (List.mem_cons_of_mem name member)
        · simp [openAfter, same] at opens
    | _ =>
      obtain rfl := Except.ok.inj opens
      exact ih later starts' ends' other

theorem Piece.isTag_of_startsMetadata {p : Piece} (h : p.startsMetadata = true) : p.isTag = true := by
  cases p with
  | startTag => rfl
  | _ => cases h

theorem Piece.isTag_of_endsMetadata {p : Piece} (h : p.endsMetadata = true) : p.isTag = true := by
  cases p with
  | endTag => rfl
  | _ => cases h

theorem countP_tags {P : Piece → Bool} (tag : ∀ p, P p = true → p.isTag = true) (ps : List Piece) :
    (ps.filter Piece.isTag).countP P = ps.countP P := by
  rw [List.countP_filter]
  refine List.countP_congr fun p _ => ?_
  simpa using tag p

/-- How often metadata begins and ends from a start tag to the next end tag of metadata, and after them. -/
theorem countP_element {inside : Text} {within : List Piece} (named : tagName inside = metadataName)
    (next : ∀ p ∈ within, p.endsMetadata = false) (ps : List Piece) :
    (Piece.startTag inside :: (within ++ .endTag metadataName :: ps)).countP Piece.startsMetadata =
        within.countP Piece.startsMetadata + ps.countP Piece.startsMetadata + 1 ∧
      (Piece.startTag inside :: (within ++ .endTag metadataName :: ps)).countP Piece.endsMetadata =
        ps.countP Piece.endsMetadata + 1 := by
  have none : within.countP Piece.endsMetadata = 0 := List.countP_eq_zero.mpr fun p member => by simp [next p member]
  have starts : Piece.startsMetadata (.startTag inside) = true := decide_eq_true named
  have stops : Piece.endsMetadata (.endTag metadataName) = true := by decide
  constructor
  · rw [List.countP_cons_of_pos starts, List.countP_append, List.countP_cons_of_neg Bool.false_ne_true]
  · rw [List.countP_cons_of_neg Bool.false_ne_true, List.countP_append, List.countP_cons_of_pos stops, none,
      Nat.zero_add]

namespace Sheds

variable {ps qs : List Piece}

/-- What is left out begins metadata at least as often as it ends it. -/
theorem count_le (h : Sheds ps qs) :
    qs.countP Piece.startsMetadata + ps.countP Piece.endsMetadata ≤
      ps.countP Piece.startsMetadata + qs.countP Piece.endsMetadata := by
  induction h with
  | nil => exact Nat.le_refl _
  | keep _ ih =>
    simp only [List.countP_cons]
    omega
  | empty _ _ ih =>
    rw [List.countP_cons_of_neg Bool.false_ne_true, List.countP_cons_of_neg Bool.false_ne_true]
    exact ih
  | @element inside within ps qs named next _ ih =>
    obtain ⟨starts, ends⟩ := countP_element named next ps
    omega

/-- If it begins metadata as often as it ends it, then only elements of metadata are left out. -/
theorem tagsBeside_eq (h : Sheds ps qs) {opened : List Text} (nests : Nests opened ps)
    (even : qs.countP Piece.startsMetadata + ps.countP Piece.endsMetadata =
      ps.countP Piece.startsMetadata + qs.countP Piece.endsMetadata) (depth : Nat) :
    tagsBeside depth qs = tagsBeside depth ps := by
  induction h generalizing opened depth with
  | nil => rfl
  | @keep p ps qs later ih =>
    obtain ⟨opened', -, nests⟩ := nests
    simp only [List.countP_cons] at even
    have same (depth : Nat) : tagsBeside depth qs = tagsBeside depth ps := ih nests (by omega) depth
    cases p <;> cases depth <;> simp only [tagsBeside, same]
  | @empty inside ps qs named later ih =>
    obtain ⟨opened', -, nests⟩ := nests
    rw [List.countP_cons_of_neg Bool.false_ne_true, List.countP_cons_of_neg Bool.false_ne_true] at even
    rw [ih nests even]
    cases depth with
    | zero => simp only [tagsBeside, named, if_true]
    | succ depth => rfl
  | @element inside within ps qs named next later ih =>
    obtain ⟨opened', opens, nests⟩ := nests
    obtain rfl := Except.ok.inj opens
    obtain ⟨starts, ends⟩ := countP_element named next ps
    have fewer := later.count_le
    have none : within.countP Piece.startsMetadata = 0 := by omega
    have noStart : ∀ p ∈ within, p.startsMetadata = false := fun p member => by
      simpa using List.countP_eq_zero.mp none p member
    rw [named] at nests
    have inner : Nests ([] ++ metadataName :: opened) (within ++ .endTag metadataName :: ps) := nests
    obtain ⟨nests, closed⟩ := tagsBeside_within inner noStart next List.not_mem_nil
    rw [ih nests (by omega), ← closed depth]
    cases depth with
    | zero => simp only [tagsBeside, named, if_true]; rfl
    | succ depth => rfl

end Sheds

/-! ## Documents -/

/-- The tag that is read from a piece. -/
def Piece.tag? : Piece → Option Tag
  | startTag inside => (Assembly.tagElement inside false).toOption.map Element.tag
  | emptyTag inside => (Assembly.tagElement inside true).toOption.map Element.tag
  | _ => none

/-- Neither the element of an entry nor one around it is named metadata. -/
def Beside (all : List (Path × Element)) (entry : Path × Element) : Bool :=
  ∀ outer ∈ all, outer.1 <+: entry.1 → outer.2.name ≠ metadataName

/-- The tags of elements that are neither named metadata nor inside of one that is, in order. -/
def Document.tagsBesideMetadata (d : Document) : List Tag :=
  (d.elements.filter (Beside d.elements)).map fun entry => entry.2.tag

/-- The same along the tree. -/
def Content.tagsBesideMetadata : Content → List Tag
  | nil => []
  | raw _ next => next.tagsBesideMetadata
  | element tag inside next =>
    (if tag.name = metadataName then [] else tag :: inside.tagsBesideMetadata) ++ next.tagsBesideMetadata

theorem beside_iff {all : List (Path × Element)} {entry : Path × Element} :
    Beside all entry = true ↔ ¬ ∃ outer ∈ all, outer.1 <+: entry.1 ∧ outer.2.name = metadataName := by
  simp [Beside]

theorem Content.map_filter_beside (c : Content) (n : Nat) :
    ((c.elementsFrom n).filter (Beside (c.elementsFrom n))).map (fun entry => entry.2.tag) = c.tagsBesideMetadata := by
  induction c generalizing n with
  | nil => rfl
  | raw source next ih => exact ih (n + 1)
  | element tag inside next ihInside ihNext =>
    have inner (path : Path) (e : Element) : Beside ((element tag inside next).elementsFrom n) (n :: path, e) =
        (decide (tag.name ≠ metadataName) && Beside (inside.elementsFrom 0) (path, e)) := by
      rw [Bool.eq_iff_iff, Bool.and_eq_true, decide_eq_true_eq, beside_iff, beside_iff,
        exists_outer_inside (P := fun e => e.name = metadataName), not_or]
      rfl
    have top : Beside (inside.elementsFrom 0) ([], ⟨tag, inside⟩) = true := by
      rw [beside_iff]
      rintro ⟨outer, listed, starts, -⟩
      obtain ⟨m, rest, -, same, -⟩ := inside.mem_elementsFrom_iff.mp listed
      rw [List.prefix_nil.mp starts] at same
      cases same
    have later : (next.elementsFrom (n + 1)).filter (Beside ((element tag inside next).elementsFrom n)) =
        (next.elementsFrom (n + 1)).filter (Beside (next.elementsFrom (n + 1))) := by
      refine List.filter_congr fun entry listed => ?_
      rw [Bool.eq_iff_iff, beside_iff, beside_iff, exists_outer_next (P := fun e => e.name = metadataName) listed]
    have here := inner [] ⟨tag, inside⟩
    rw [top, Bool.and_true] at here
    generalize keeps : Beside ((element tag inside next).elementsFrom n) = p at inner later here ⊢
    have below {f : Path × Element → Path × Element} (down : ∀ entry, f entry = (n :: entry.1, entry.2)) :
        ((inside.elementsFrom 0).map f).filter p = ((inside.elementsFrom 0).filter fun entry =>
          decide (tag.name ≠ metadataName) && Beside (inside.elementsFrom 0) entry).map f := by
      rw [List.filter_map]
      refine congrArg _ (List.filter_congr fun entry _ => ?_)
      rw [Function.comp_apply, down]
      exact inner entry.1 entry.2
    rw [elementsFrom, List.filter_append, later, List.map_append, ihNext, tagsBesideMetadata, List.filter_cons, here,
      below fun _ => rfl]
    by_cases named : tag.name = metadataName
    · simp [named]
    · simp [named, ← ihInside 0, Function.comp_def]

theorem Document.tagsBesideMetadata_eq (d : Document) :
    d.tagsBesideMetadata = (Content.element d.root.tag d.root.content .nil).tagsBesideMetadata := by
  have alone : (Content.element d.root.tag d.root.content .nil).elementsFrom 0 =
      d.elements.map fun entry => (0 :: entry.1, entry.2) := by
    rw [Content.elementsFrom, Content.elementsFrom, List.append_nil]
    rfl
  rw [← Content.map_filter_beside _ 0, alone, List.filter_map, List.map_map]
  refine congrArg _ (List.filter_congr fun entry _ => ?_)
  rw [Function.comp_apply, Bool.eq_iff_iff, beside_iff, beside_iff]
  simp only [List.mem_map, exists_exists_and_eq_and, List.cons_prefix_cons, true_and]

/-- The tags beside metadata are read from those pieces. -/
theorem Builds.tagsBeside {ps : List Piece} {c : Content} (h : Builds ps c) (rest : List Piece) :
    (SvgEdit.tagsBeside 0 (ps ++ rest)).filterMap Piece.tag? =
        c.tagsBesideMetadata ++ (SvgEdit.tagsBeside 0 rest).filterMap Piece.tag? ∧
      ∀ depth, SvgEdit.tagsBeside (depth + 1) (ps ++ rest) = SvgEdit.tagsBeside (depth + 1) rest := by
  induction h generalizing rest with
  | nil => exact ⟨rfl, fun _ => rfl⟩
  | @raw p ps next other later ih =>
    cases p with
    | startTag | emptyTag | endTag => cases other
    | _ => exact ih rest
  | @empty inside e ps next tag later ih =>
    obtain ⟨beside, within⟩ := ih rest
    refine ⟨?_, within⟩
    have same : Piece.tag? (.emptyTag inside) = some e.tag := by rw [Piece.tag?, tag]; rfl
    have name : e.tag.name = tagName inside := by
      obtain ⟨as, -, rfl⟩ := Assembly.tagElement_eq_ok_iff.mp tag
      rfl
    by_cases named : tagName inside = metadataName
    · simp [SvgEdit.tagsBeside, Content.tagsBesideMetadata, name, named, beside]
    · simp [SvgEdit.tagsBeside, Content.tagsBesideMetadata, name, named, beside, same]
  | @element inside close e ps qs inner next tag closes _ _ ihInner ihNext =>
    obtain ⟨beside, within⟩ := ihInner (.endTag close :: (qs ++ rest))
    obtain ⟨besideNext, withinNext⟩ := ihNext rest
    have same : Piece.tag? (.startTag inside) = some e.tag := by rw [Piece.tag?, tag]; rfl
    have name : e.tag.name = tagName inside := by
      obtain ⟨as, -, rfl⟩ := Assembly.tagElement_eq_ok_iff.mp tag
      rfl
    rw [List.cons_append, List.append_assoc, List.cons_append]
    constructor
    · by_cases named : tagName inside = metadataName
      · simp [SvgEdit.tagsBeside, Content.tagsBesideMetadata, name, named, within, besideNext]
      · simp [SvgEdit.tagsBeside, Content.tagsBesideMetadata, name, named, beside, besideNext, same]
    · intro depth
      simp only [SvgEdit.tagsBeside, within, withinNext]

/-- Metadata ends as often as it begins. -/
theorem Builds.countP_metadata {ps : List Piece} {c : Content} (h : Builds ps c) :
    ps.countP Piece.startsMetadata = ps.countP Piece.endsMetadata := by
  induction h with
  | nil => rfl
  | @raw p ps next other later ih =>
    cases p with
    | startTag | emptyTag | endTag => cases other
    | _ => exact ih
  | empty _ _ ih => exact ih
  | @element inside close e ps qs inner next tag closes _ _ ihInner ihNext =>
    have same : Piece.startsMetadata (.startTag inside) = Piece.endsMetadata (.endTag close) := by
      obtain ⟨as, -, rfl⟩ := Assembly.tagElement_eq_ok_iff.mp tag
      rw [Piece.startsMetadata, Piece.endsMetadata, closes]
      rfl
    simp only [List.countP_cons, List.countP_append, ihInner, ihNext, same]
    simp [Piece.startsMetadata, Piece.endsMetadata]
    omega

theorem Content.tagsBesideMetadata_after (texts : List Text) (c : Content) :
    (after texts c).tagsBesideMetadata = c.tagsBesideMetadata := by
  induction texts with
  | nil => rfl
  | cons _ _ ih => exact ih

/-- The pieces of a document end metadata as often as they begin it, and name the tags beside it. -/
theorem BuildsDocument.tagsBeside {mark : Text} {ps : List Piece} {d : Document} (h : BuildsDocument mark ps d) :
    (SvgEdit.tagsBeside 0 ps).filterMap Piece.tag? = d.tagsBesideMetadata ∧
      ps.countP Piece.startsMetadata = ps.countP Piece.endsMetadata := by
  obtain ⟨front, middle, back, rfl, outside, outside', builds, -, -⟩ := h
  have whole := (builds.append (Builds.after outside' .nil)).after outside
  rw [List.append_nil] at whole
  have beside := (whole.tagsBeside []).1
  have back' : (Content.after (back.map Piece.kept) .nil).tagsBesideMetadata = [] := Content.tagsBesideMetadata_after _ _
  have root : (Content.element d.root.tag d.root.content (.after (back.map Piece.kept) .nil)).tagsBesideMetadata =
      d.tagsBesideMetadata := by
    rw [d.tagsBesideMetadata_eq, Content.tagsBesideMetadata, Content.tagsBesideMetadata, back',
      Content.tagsBesideMetadata]
  rw [List.append_nil, Content.append, Content.nil_append, Content.tagsBesideMetadata_after, root] at beside
  refine ⟨?_, whole.countP_metadata⟩
  rw [beside]
  exact List.append_nil _

/--
Where what looks like a tag of metadata is one, removing metadata leaves the elements beside metadata as they
are, if it leaves a document.
-/
theorem tagsBesideMetadata_removeMetadata {s : Text} {d d' : Document} (parsed : Document.parse s = .ok d)
    (apart : MetadataApart (piecesOf s)) (left : Document.parse (Shrink.removeMetadata s) = .ok d') :
    d'.tagsBesideMetadata = d.tagsBesideMetadata := by
  obtain ⟨cut, builds⟩ := Document.builds_piecesOf parsed
  obtain ⟨qs, sheds, removed⟩ := exists_sheds apart
  have whole : Shrink.removeMetadata s = marksOf s ++ qs.flatMap Piece.source := by
    have noLess : '<' ∉ marksOf s := fun member => absurd (mem_marksOf member) (by decide)
    rw [← removed, ← cut.source]
    conv_lhs => rw [← marksOf_append_bodyOf s]
    exact Shrink.remove_append_of_idle (afterMetadata?_atMarkup.idle noLess _)
  have back : ∀ q ∈ qs, q.ReadsBack := fun q member => cut.readsBack q (sheds.subset q member)
  obtain ⟨rs, cut', tags⟩ := exists_cut_bodyOf (fun c => mem_marksOf (s := s) (c := c)) back
  obtain ⟨cut'', builds'⟩ := Document.builds_piecesOf left
  rw [← whole] at cut'
  obtain rfl := cut''.unique cut'
  obtain ⟨beside, even⟩ := builds.tagsBeside
  obtain ⟨beside', even'⟩ := builds'.tagsBeside
  have count {P : Piece → Bool} (tag : ∀ p, P p = true → p.isTag = true) :
      (piecesOf (Shrink.removeMetadata s)).countP P = qs.countP P := by
    rw [← countP_tags tag, tags, countP_tags tag]
  have starts : _ = qs.countP Piece.startsMetadata := count fun _ => Piece.isTag_of_startsMetadata
  have ends : _ = qs.countP Piece.endsMetadata := count fun _ => Piece.isTag_of_endsMetadata
  rw [starts, ends] at even'
  rw [← beside', ← beside, ← tagsBeside_tags, tags, tagsBeside_tags, sheds.tagsBeside_eq (nests_piecesOf s) (by omega)]

/-- A text with metadata around other markup, in empty tags, with a `>` in values, and named in a comment. -/
def described : Text :=
  ("<svg><!--</metadata>--><metadata a='x>y'><m/><![CDATA[<metadata>]]></metadata><g b='>'><metadata/></g>" ++
    "<metadata c='1' /><metadata d='>'/></svg>").toList

/-- The document that is read from it. -/
def describedDocument : Document :=
  ⟨[], ⟨⟨"svg".toList, [], false⟩,
    .raw "<!--</metadata>-->".toList (.element ⟨metadataName, [⟨['a'], "x>y".toList, some ⟨"x>y".toList, .single⟩⟩], false⟩
      (.element ⟨['m'], [], true⟩ .nil (.raw "<![CDATA[<metadata>]]>".toList .nil))
      (.element ⟨['g'], [⟨['b'], ['>'], some ⟨['>'], .single⟩⟩], false⟩ (.element ⟨metadataName, [], true⟩ .nil .nil)
        (.element ⟨metadataName, [⟨['c'], ['1'], some ⟨['1'], .single⟩⟩], true⟩ .nil
          (.element ⟨metadataName, [⟨['d'], ['>'], some ⟨['>'], .single⟩⟩], true⟩ .nil .nil))))⟩, []⟩

/-- The document that is left of it. -/
def undescribedDocument : Document :=
  ⟨[], ⟨⟨"svg".toList, [], false⟩,
    .raw "<!--</metadata>-->".toList
      (.element ⟨['g'], [⟨['b'], ['>'], some ⟨['>'], .single⟩⟩], false⟩ .nil
        (.element ⟨metadataName, [⟨['d'], ['>'], some ⟨['>'], .single⟩⟩], true⟩ .nil .nil))⟩, []⟩

theorem tagsBesideMetadata_removeMetadata_described :
    Document.parse described = .ok describedDocument ∧ MetadataApart (piecesOf described) ∧
      Document.parse (Shrink.removeMetadata described) = .ok undescribedDocument ∧
        undescribedDocument.tagsBesideMetadata = describedDocument.tagsBesideMetadata := by
  have parsed : Document.parse described = .ok describedDocument := by cbv
  have left : Document.parse (Shrink.removeMetadata described) = .ok undescribedDocument := by cbv
  have pieces : piecesOf described = [.startTag "svg".toList, .comment "</metadata>".toList,
      .startTag "metadata a='x>y'".toList, .emptyTag ['m'], .characterData "<metadata>".toList, .endTag metadataName,
      .startTag "g b='>'".toList, .emptyTag metadataName, .endTag ['g'], .emptyTag "metadata c='1' ".toList,
      .emptyTag "metadata d='>'".toList, .endTag "svg".toList] := by cbv
  have apart : MetadataApart (piecesOf described) := by
    rw [pieces]
    refine .other (by decide +kernel) (.other (by decide +kernel) ?_)
    refine @MetadataApart.element _ [.emptyTag ['m'], .characterData "<metadata>".toList] _ (by decide) (by decide)
      (by decide +kernel) ?_
    refine .other (by decide +kernel) (.empty (by decide) (.inl rfl) (by decide) (by decide +kernel) ?_)
    refine .other (by decide +kernel) (.empty (by decide) (.inr (by decide +kernel)) (by decide) (by decide +kernel) ?_)
    refine .empty (by decide) (.inr (by decide +kernel)) (by decide) (by decide +kernel) ?_
    exact .other (by decide +kernel) .nil
  exact ⟨parsed, apart, left, tagsBesideMetadata_removeMetadata parsed apart left⟩

/-! ## Metadata that is none -/

/-- A text where the tags of metadata stand in sections, and an element between them. -/
def hidden : Text := "<svg><![CDATA[<metadata>]]><rect/><![CDATA[</metadata>]]></svg>".toList

/-- The document that is read from it. -/
def hiddenDocument : Document :=
  ⟨[], ⟨⟨"svg".toList, [], false⟩, .raw "<![CDATA[<metadata>]]>".toList (.element ⟨"rect".toList, [], true⟩ .nil
    (.raw "<![CDATA[</metadata>]]>".toList .nil))⟩, []⟩

/-- The element goes with what looks like metadata around it. -/
theorem removeMetadata_loses_rect :
    Document.parse hidden = .ok hiddenDocument ∧
      ∃ d, Document.parse (Shrink.removeMetadata hidden) = .ok d ∧
        ¬ hiddenDocument.tagsBesideMetadata.Sublist (d.elements.map fun entry => entry.2.tag) := by
  refine ⟨by cbv, ⟨[], ⟨⟨"svg".toList, [], false⟩, .raw "<![CDATA[]]>".toList .nil⟩, []⟩, by cbv, ?_⟩
  decide

end SvgEdit
