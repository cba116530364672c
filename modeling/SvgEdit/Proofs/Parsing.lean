import SvgEdit.Proofs.Pieces

/-!
# What a text is read as

Reading is two relations, one after the other: `Cut` cuts a text into pieces, and `Builds` puts
pieces together into content. A text is a document exactly if it is cut into pieces that build one.
-/
namespace SvgEdit

/-! ## Cutting into pieces -/

/-- The pieces that a text consists of. -/
inductive Cut : Text → List Piece → Prop
  | done : Cut [] []
  | piece {c : Char} {s rest : Text} {p : Piece} {ps : List Piece} (read : Piece.read c s = .ok (p, rest))
      (later : Cut rest ps) : Cut (c :: s) (p :: ps)

theorem Cut.source {s : Text} {ps : List Piece} (h : Cut s ps) : s = ps.flatMap Piece.source := by
  induction h with
  | done => rfl
  | piece read _ ih => rw [Piece.read_source read, List.flatMap_cons, ih]

theorem Cut.unique {s : Text} {ps qs : List Piece} (left : Cut s ps) (right : Cut s qs) : ps = qs := by
  induction left generalizing qs with
  | done =>
    cases right
    rfl
  | piece read _ ih =>
    cases right with
    | piece read' later' =>
      rw [read] at read'
      obtain ⟨rfl, rfl⟩ := Prod.mk.inj (Except.ok.inj read')
      rw [ih later']

/-- Nothing that is read is cut differently where it stands again. -/
theorem Cut.readsBack {s : Text} {ps : List Piece} (h : Cut s ps) : ∀ p ∈ ps, p.ReadsBack := by
  induction h with
  | done => exact fun _ member => absurd member List.not_mem_nil
  | piece read _ ih =>
    intro p member
    rcases List.mem_cons.mp member with rfl | member
    · exact Piece.readsBack_of_read read
    · exact ih p member

theorem Cut.cons {p : Piece} {ps : List Piece} {rest : Text} (back : p.ReadsBack)
    (ends : p.isRun = true → EndsRuns rest) (later : Cut rest ps) : Cut (p.source ++ rest) (p :: ps) := by
  obtain ⟨c, s, source, read⟩ := back
  rw [source]
  exact .piece (read rest ends) later

/-- A run of text ends where no run goes on. -/
theorem endsRuns_of_read {c : Char} {s rest : Text} {p : Piece} (h : Piece.read c s = .ok (p, rest))
    (run : p.isRun = true) : EndsRuns rest := by
  rw [isRun_of_read h, Bool.not_eq_true'] at run
  rw [read_text run] at h
  obtain ⟨-, rfl⟩ := Prod.mk.inj (Except.ok.inj h)
  intro d head
  have stops := Text.stops_dropWhile (!endsRun ·) s d head
  simpa using stops

/-- No run of text follows another one. -/
def Apart (ps : List Piece) : Prop := ps.IsChain fun p q => p.isRun = true → q.isRun = false

theorem apart_of_same {ps qs : List Piece} (same : qs.map Piece.isRun = ps.map Piece.isRun) (apart : Apart ps) :
    Apart qs := by
  have pairs (rs : List Piece) : Apart rs ↔ (rs.map Piece.isRun).IsChain fun a b => a = true → b = false := by
    rw [List.isChain_map]
    rfl
  rw [pairs, same, ← pairs]
  exact apart

theorem Cut.apart {s : Text} {ps : List Piece} (h : Cut s ps) : Apart ps := by
  induction h with
  | done => exact .nil
  | piece read later ih =>
    cases later with
    | done => exact .singleton _
    | piece read' _ =>
      refine .cons_cons (fun run => ?_) ih
      rw [isRun_of_read read', endsRuns_of_read read run _ rfl]
      rfl

theorem endsRuns_source {p : Piece} (markup : p.isRun = false) : EndsRuns p.source := by
  cases p with
  | text run => cases markup
  | _ =>
    intro c head
    obtain rfl := Option.some.inj head
    rfl

theorem cut_of_readsBack {ps : List Piece} (back : ∀ p ∈ ps, p.ReadsBack) (apart : Apart ps) :
    Cut (ps.flatMap Piece.source) ps := by
  induction ps with
  | nil => exact .done
  | cons p ps ih =>
    rw [List.flatMap_cons]
    refine .cons (back p List.mem_cons_self) (fun run => ?_)
      (ih (fun q member => back q (List.mem_cons_of_mem p member)) apart.tail)
    cases ps with
    | nil => exact fun _ head => nomatch head
    | cons q ps =>
      have markup := (List.isChain_cons_cons.mp apart).1 run
      obtain ⟨c, s, source, -⟩ := back q (List.mem_cons_of_mem p List.mem_cons_self)
      have first := endsRuns_source markup
      rw [source] at first
      rw [List.flatMap_cons, source]
      exact first

/-! ## Nesting -/

/-- End tags close what is open, as far as the pieces go. -/
def Nests : (opened : List Text) → List Piece → Prop
  | _, [] => True
  | opened, p :: ps => ∃ opened', openAfter opened p = .ok opened' ∧ Nests opened' ps

/-- Reading pieces without the proof that it ends. -/
theorem readPiecesFrom_cons (opened : List Text) (position : Nat) (c : Char) (s : Text) :
    readPiecesFrom opened position (c :: s) =
      match Piece.read c s with
      | .error (fault, offset) => ([], some (fault, position + offset))
      | .ok (p, rest) =>
        match openAfter opened p with
        | .error fault => ([], some (fault, position))
        | .ok opened' =>
          let later := readPiecesFrom opened' (position + Text.size p.source) rest
          (p :: later.1, later.2) := by
  rw [readPiecesFrom]
  split
  · next read => simp only [read]
  · next read =>
    split
    · next opens => simp only [read, opens]
    · next opens => simp only [read, opens]

theorem cut_of_readPiecesFrom {opened : List Text} {position : Nat} {s : Text} {ps : List Piece}
    (h : readPiecesFrom opened position s = (ps, none)) : Cut s ps := by
  induction n : s.length using Nat.strong_induction_on generalizing opened position s ps with
  | _ n ih =>
    cases s with
    | nil =>
      rw [readPiecesFrom] at h
      obtain ⟨rfl, -⟩ := Prod.mk.inj h
      exact .done
    | cons c s =>
      rw [readPiecesFrom_cons] at h
      split at h
      · cases h
      · next p rest read =>
        split at h
        · cases h
        · next opened' opens =>
          generalize later : readPiecesFrom opened' _ rest = result at h
          obtain ⟨qs, fault⟩ := result
          obtain ⟨rfl, rfl⟩ := Prod.mk.inj h
          exact .piece read (ih rest.length (n ▸ Piece.length_of_read read) later rfl)

theorem Cut.readPiecesFrom {s : Text} {ps : List Piece} (h : Cut s ps) {opened : List Text} (nests : Nests opened ps)
    (position : Nat) : readPiecesFrom opened position s = (ps, none) := by
  induction h generalizing opened position with
  | done => rw [SvgEdit.readPiecesFrom]
  | piece read _ ih =>
    obtain ⟨opened', opens, nests⟩ := nests
    rw [readPiecesFrom_cons]
    simp only [read, opens, ih nests]

/-! ## Putting together -/

namespace Piece

/-- Whether a piece may stand outside of the root: no tag, and no text but blanks. -/
def isOutside : Piece → Bool
  | text run => Text.isBlankText run
  | p => !p.isTag

theorem isTag_of_isOutside {p : Piece} (h : p.isOutside = true) : p.isTag = false := by
  cases p <;> first | rfl | cases h

end Piece

namespace Content

theorem nil_append (c : Content) : nil.append c = c := rfl

theorem append_nil (c : Content) : c.append nil = c := by
  induction c with
  | nil => rfl
  | raw source next ih => rw [append, ih]
  | element tag inside next _ ih => rw [append, ih]

theorem append_assoc (c d e : Content) : (c.append d).append e = c.append (d.append e) := by
  induction c with
  | nil => rfl
  | raw source next ih => rw [append, append, append, ih]
  | element tag inside next _ ih => rw [append, append, append, ih]

theorem forall_elementsFrom_element {tag : Tag} {inside next : Content} {n : Nat}
    {p : Path × Element → Prop} :
    (∀ entry ∈ (element tag inside next).elementsFrom n, p entry) ↔
      p ([n], ⟨tag, inside⟩) ∧ (∀ entry ∈ inside.elementsFrom 0, p (n :: entry.1, entry.2)) ∧
        ∀ entry ∈ next.elementsFrom (n + 1), p entry := by
  rw [elementsFrom, List.cons_append, List.forall_mem_cons, List.forall_mem_append, List.forall_mem_map]

end Content

/-- Elements of the content that is the root alone are those of the document. -/
theorem Document.exists_mem_elements {d : Document} {entry : Path × Element} {n : Nat}
    (member : entry ∈ (Content.element d.root.tag d.root.content .nil).elementsFrom n) :
    ∃ path, (path, entry.2) ∈ d.elements := by
  rw [Content.elementsFrom, Content.elementsFrom, List.append_nil] at member
  rcases List.mem_cons.mp member with rfl | member
  · exact ⟨[], List.mem_cons_self⟩
  · obtain ⟨below, listed, rfl⟩ := List.mem_map.mp member
    exact ⟨below.1, List.mem_cons_of_mem _ listed⟩

/-- The content that pieces stand for. -/
inductive Builds : List Piece → Content → Prop
  | nil : Builds [] .nil
  | raw {p : Piece} {ps : List Piece} {next : Content} (other : p.isTag = false) (later : Builds ps next) :
      Builds (p :: ps) (.raw p.kept next)
  | empty {inside : Text} {e : Element} {ps : List Piece} {next : Content}
      (tag : Assembly.tagElement inside true = .ok e) (later : Builds ps next) :
      Builds (.emptyTag inside :: ps) (.element e.tag .nil next)
  | element {inside close : Text} {e : Element} {ps qs : List Piece} {inner next : Content}
      (tag : Assembly.tagElement inside false = .ok e) (closes : Piece.endName close = e.name)
      (within : Builds ps inner) (later : Builds qs next) :
      Builds (.startTag inside :: (ps ++ .endTag close :: qs)) (.element e.tag inner next)

theorem Builds.append {ps qs : List Piece} {c d : Content} (left : Builds ps c) (right : Builds qs d) :
    Builds (ps ++ qs) (c.append d) := by
  induction left with
  | nil => exact right
  | raw other _ ih => exact .raw other ih
  | empty tag _ ih => exact .empty tag ih
  | element tag closes within _ _ ih =>
    rw [List.cons_append, List.append_assoc]
    exact .element tag closes within ih

/-- The document that pieces stand for, after a mark that is kept. -/
structure BuildsDocument (mark : Text) (ps : List Piece) (d : Document) : Prop where
  parts : ∃ front middle back, ps = front ++ (middle ++ back) ∧ (∀ p ∈ front, p.isOutside = true) ∧
    (∀ p ∈ back, p.isOutside = true) ∧ Builds middle (.element d.root.tag d.root.content .nil) ∧
    d.prolog = (if mark = [] then [] else [mark]) ++ front.map Piece.kept ∧ d.epilog = back.map Piece.kept

namespace Assembly

theorem tagElement_eq_ok_iff {inside : Text} {selfClosing : Bool} {e : Element} :
    tagElement inside selfClosing = .ok e ↔
      ∃ as, readAttributes inside = .ok as ∧ e = ⟨⟨tagName inside, as, selfClosing⟩, .nil⟩ := by
  unfold tagElement
  split
  · next as read => simp [read, eq_comm]
  · next read => simp [read]
  · next read => simp [read]

/-- The names that are open, the innermost first. -/
def names (a : Assembly) : List Text := a.opened.map Element.name

theorem names_addRaw (a : Assembly) (source : Text) : (a.addRaw source).names = a.names := by
  obtain ⟨opened, prolog, root, epilog⟩ := a
  cases opened with
  | nil => cases root <;> rfl
  | cons e outer => rfl

theorem names_of_addElement {a b : Assembly} {e : Element} (h : a.addElement e = .ok b) : b.names = a.names := by
  obtain ⟨opened, prolog, root, epilog⟩ := a
  cases opened with
  | nil =>
    cases root with
    | none =>
      obtain rfl := Except.ok.inj h
      rfl
    | some root => cases h
  | cons outer rest =>
    obtain rfl := Except.ok.inj h
    rfl

/-- What adding a piece does: an element is opened, or added as it is complete, or the piece is kept as it is. -/
inductive Adds (a : Assembly) : Piece → Assembly → Prop
  | startTag {inside : Text} {e : Element} (tag : tagElement inside false = .ok e) :
      Adds a (.startTag inside) { a with opened := e :: a.opened }
  | emptyTag {inside : Text} {e : Element} {b : Assembly} (tag : tagElement inside true = .ok e)
      (added : a.addElement e = .ok b) : Adds a (.emptyTag inside) b
  | endTag {inside : Text} {e : Element} {outer : List Element} {b : Assembly} (opened : a.opened = e :: outer)
      (closes : Piece.endName inside = e.name) (added : { a with opened := outer }.addElement e = .ok b) :
      Adds a (.endTag inside) b
  | raw {p : Piece} (other : p.isTag = false) (outside : a.opened = [] → p.isOutside = true) :
      Adds a p (a.addRaw p.kept)

theorem add_of_other {a : Assembly} {p : Piece} (other : p.isTag = false)
    (allowed : a.opened = [] → p.isOutside = true) : a.add p = .ok (a.addRaw p.kept) := by
  cases p with
  | text run =>
    rw [add, if_neg]
    · rfl
    · rintro ⟨opened, notBlank⟩
      exact notBlank (allowed opened)
  | startTag _ => cases other
  | emptyTag _ => cases other
  | endTag _ => cases other
  | _ => rfl

theorem add_eq_ok_iff {a b : Assembly} {p : Piece} : a.add p = .ok b ↔ Adds a p b := by
  constructor
  · intro h
    cases p with
    | startTag inside =>
      rw [add] at h
      cases tag : tagElement inside false with
      | error fault =>
        rw [tag] at h
        cases h
      | ok e =>
        rw [tag] at h
        obtain rfl := Except.ok.inj h
        exact .startTag tag
    | emptyTag inside =>
      rw [add] at h
      split at h
      · next e tag => exact .emptyTag tag h
      · cases h
    | endTag inside =>
      rw [add, close] at h
      split at h
      · cases h
      · next e outer opened =>
        split at h
        · next closes => exact .endTag opened closes.symm h
        · cases h
    | text run =>
      rw [add] at h
      split at h
      · cases h
      · next allowed =>
        obtain rfl := Except.ok.inj h
        exact .raw rfl fun opened => by simpa [opened, Piece.isOutside] using allowed
    | _ =>
      obtain rfl := Except.ok.inj h
      exact .raw rfl fun _ => rfl
  · intro h
    cases h with
    | startTag tag => rw [add, tag]; rfl
    | emptyTag tag added => rw [add, tag]; exact added
    | endTag opened closes added => rw [add, close, opened, closes]; exact (if_pos rfl).trans added
    | raw other outside => exact add_of_other other outside

theorem openAfter_of_other {opened : List Text} {p : Piece} (other : p.isTag = false) : openAfter opened p = .ok opened := by
  cases p with
  | startTag | emptyTag | endTag => cases other
  | _ => rfl

/-- Pieces that are put together nest. -/
theorem openAfter_of_add {a b : Assembly} {p : Piece} (h : a.add p = .ok b) : openAfter a.names p = .ok b.names := by
  cases add_eq_ok_iff.mp h with
  | startTag tag =>
    obtain ⟨as, -, rfl⟩ := tagElement_eq_ok_iff.mp tag
    rfl
  | emptyTag tag added =>
    rw [names_of_addElement added]
    rfl
  | endTag opened closes added =>
    rw [names_of_addElement added, names, opened, List.map_cons, openAfter, if_pos closes.symm]
    rfl
  | raw other _ =>
    rw [names_addRaw]
    exact openAfter_of_other other

theorem nests_of_addAll {a b : Assembly} {ps : List Piece} (h : a.addAll ps = .ok b) : Nests a.names ps := by
  induction ps generalizing a with
  | nil => trivial
  | cons p ps ih =>
    rw [addAll] at h
    split at h
    · next c added => exact ⟨c.names, openAfter_of_add added, ih h⟩
    · cases h

/-! ### What was put together -/

/-- The elements that are open, and the pieces since the outermost of them began. -/
inductive Opens : List Piece → List Element → Prop
  | nil : Opens [] []
  | cons {ps qs : List Piece} {es : List Element} {inside : Text} {e : Element} {content : Content}
      (outer : Opens ps es) (tag : tagElement inside false = .ok e) (within : Builds qs content) :
      Opens (ps ++ .startTag inside :: qs) (⟨e.tag, content⟩ :: es)

/-- The pieces at the top level, those of the root in the middle, and what is kept of them. -/
inductive Tops (mark : List Text) : List Piece → Assembly → Prop
  | before {front : List Piece} {a : Assembly} (outside : ∀ p ∈ front, p.isOutside = true) (noRoot : a.root = none)
      (prolog : a.prolog = mark ++ front.map Piece.kept) (epilog : a.epilog = []) : Tops mark front a
  | after {front middle back : List Piece} {a : Assembly} {root : Element}
      (outside : ∀ p ∈ front, p.isOutside = true) (outside' : ∀ p ∈ back, p.isOutside = true)
      (top : Builds middle (.element root.tag root.content .nil)) (hasRoot : a.root = some root)
      (prolog : a.prolog = mark ++ front.map Piece.kept) (epilog : a.epilog = back.map Piece.kept) :
      Tops mark (front ++ (middle ++ back)) a

/-- The assembly is what has been put together from the pieces. -/
def Holds (mark : List Text) (ps : List Piece) (a : Assembly) : Prop :=
  ∃ top stack, ps = top ++ stack ∧ Tops mark top a ∧ Opens stack a.opened

theorem Tops.of_same {mark : List Text} {ps : List Piece} {a b : Assembly} (h : Tops mark ps a)
    (root : b.root = a.root) (prolog : b.prolog = a.prolog) (epilog : b.epilog = a.epilog) : Tops mark ps b := by
  cases h with
  | before outside noRoot prolog' epilog' =>
    exact .before outside (root.trans noRoot) (prolog.trans prolog') (epilog.trans epilog')
  | after outside outside' top hasRoot prolog' epilog' =>
    exact .after outside outside' top (root.trans hasRoot) (prolog.trans prolog') (epilog.trans epilog')

/-- More content in the innermost open element. -/
theorem Opens.push {ps qs : List Piece} {e : Element} {es : List Element} {c : Content} (h : Opens ps (e :: es))
    (more : Builds qs c) : Opens (ps ++ qs) (e.push c :: es) := by
  cases h with
  | @cons ps within _ inside e' content outer tag builds =>
    obtain ⟨as, -, rfl⟩ := tagElement_eq_ok_iff.mp tag
    have longer := Opens.cons outer tag (builds.append more)
    rw [List.append_assoc, List.cons_append]
    exact longer

/-- An element where the assembly stands. -/
theorem holds_addElement {mark : List Text} {a b : Assembly} {ps qs : List Piece} {e : Element}
    (holds : Holds mark ps a) (builds : Builds qs (.element e.tag e.content .nil)) (h : a.addElement e = .ok b) :
    Holds mark (ps ++ qs) b := by
  obtain ⟨top, stack, rfl, tops, opens⟩ := holds
  unfold addElement at h
  split at h
  · next outer rest opened =>
    obtain rfl := Except.ok.inj h
    rw [opened] at opens
    exact ⟨top, stack ++ qs, List.append_assoc .., tops.of_same rfl rfl rfl, opens.push builds⟩
  · next opened =>
    split at h
    · next noRoot =>
      obtain rfl := Except.ok.inj h
      rw [opened] at opens
      cases opens
      cases tops with
      | before outside _ prolog epilog =>
        have none : ∀ p ∈ ([] : List Piece), p.isOutside = true := fun _ member => absurd member List.not_mem_nil
        exact ⟨_, [], by simp, .after outside none builds rfl prolog epilog, opened ▸ .nil⟩
      | after _ _ _ hasRoot =>
        rw [hasRoot] at noRoot
        cases noRoot
    · cases h

theorem holds_addRaw {mark : List Text} {a : Assembly} {ps : List Piece} {p : Piece} (holds : Holds mark ps a)
    (other : p.isTag = false) (blank : a.opened = [] → p.isOutside = true) :
    Holds mark (ps ++ [p]) (a.addRaw p.kept) := by
  obtain ⟨top, stack, rfl, tops, opens⟩ := holds
  unfold addRaw
  split
  · next e outer opened =>
    rw [opened] at opens
    exact ⟨top, stack ++ [p], List.append_assoc .., tops.of_same rfl rfl rfl, opens.push (.raw other .nil)⟩
  · next opened =>
    rw [opened] at opens
    cases opens
    have more {qs : List Piece} (outside : ∀ q ∈ qs, q.isOutside = true) : ∀ q ∈ qs ++ [p], q.isOutside = true := by
      intro q member
      rcases List.mem_append.mp member with member | member
      · exact outside q member
      · rw [List.mem_singleton.mp member]
        exact blank opened
    cases tops with
    | before outside noRoot prolog epilog =>
      rw [if_pos (by rw [noRoot]; rfl)]
      refine ⟨top ++ [p], [], by simp, .before (more outside) noRoot ?_ epilog, opened ▸ .nil⟩
      simp [prolog]
    | @after front middle back _ root outside outside' builds hasRoot prolog epilog =>
      rw [if_neg (by rw [hasRoot]; exact Bool.false_ne_true)]
      refine ⟨front ++ (middle ++ (back ++ [p])), [], by simp, .after outside (more outside') builds hasRoot prolog ?_,
        opened ▸ .nil⟩
      simp [epilog]

theorem holds_add {mark : List Text} {a b : Assembly} {ps : List Piece} {p : Piece} (holds : Holds mark ps a)
    (h : a.add p = .ok b) : Holds mark (ps ++ [p]) b := by
  cases add_eq_ok_iff.mp h with
  | @startTag inside e tag =>
    obtain ⟨top, stack, rfl, tops, opens⟩ := holds
    obtain ⟨as, -, rfl⟩ := tagElement_eq_ok_iff.mp tag
    exact ⟨top, stack ++ [.startTag inside], List.append_assoc .., tops.of_same rfl rfl rfl, .cons opens tag .nil⟩
  | emptyTag tag added =>
    obtain ⟨as, -, rfl⟩ := tagElement_eq_ok_iff.mp tag
    exact holds_addElement holds (.empty tag .nil) added
  | @endTag inside _ outer _ opened closes added =>
    obtain ⟨top, stack, rfl, tops, opens⟩ := holds
    rw [opened] at opens
    cases opens with
    | @cons ps qs _ inside' e' content opens tag within =>
      have outside : Holds mark (top ++ ps) { a with opened := outer } :=
        ⟨top, ps, rfl, tops.of_same rfl rfl rfl, opens⟩
      have builds : Builds (.startTag inside' :: (qs ++ [.endTag inside])) (.element e'.tag content .nil) :=
        .element tag closes within .nil
      have whole := holds_addElement (e := ⟨e'.tag, content⟩) outside builds added
      simpa using whole
  | raw other outside => exact holds_addRaw holds other outside

theorem holds_addAll {mark : List Text} {a b : Assembly} {ps qs : List Piece} (holds : Holds mark ps a)
    (h : a.addAll qs = .ok b) : Holds mark (ps ++ qs) b := by
  induction qs generalizing a ps with
  | nil =>
    obtain rfl := Except.ok.inj h
    rwa [List.append_nil]
  | cons q qs ih =>
    rw [addAll] at h
    split at h
    · next c added =>
      have later := ih (holds_add holds added) h
      rwa [List.append_assoc] at later
    · cases h

/-! ### What can be put together -/

theorem addAll_append {a b : Assembly} {ps : List Piece} (qs : List Piece) (h : a.addAll ps = .ok b) :
    a.addAll (ps ++ qs) = b.addAll qs := by
  induction ps generalizing a with
  | nil =>
    obtain rfl := Except.ok.inj h
    rfl
  | cons p ps ih =>
    rw [addAll] at h
    split at h
    · next c added =>
      rw [List.cons_append, addAll, added]
      exact ih h
    · cases h

theorem push_of_going {tag : Tag} (going : tag.selfClosing = false) (content more : Content) :
    Element.push ⟨tag, content⟩ more = ⟨tag, content.append more⟩ := by
  obtain ⟨name, attributes, selfClosing⟩ := tag
  obtain rfl : selfClosing = false := going
  rfl

/-- Content goes to the innermost open element. -/
theorem addAll_of_builds {ps : List Piece} {c : Content} (h : Builds ps c) {a : Assembly} {tag : Tag}
    {content : Content} {outer : List Element} (opened : a.opened = ⟨tag, content⟩ :: outer)
    (going : tag.selfClosing = false) :
    a.addAll ps = .ok { a with opened := ⟨tag, content.append c⟩ :: outer } := by
  obtain ⟨_, prolog, root, epilog⟩ := a
  dsimp only at opened
  subst opened
  induction h generalizing tag content outer with
  | nil =>
    rw [Content.append_nil]
    rfl
  | @raw p ps next other _ ih =>
    rw [addAll, add_of_other other fun none => by cases none]
    simp only [addRaw, push_of_going going]
    rw [ih going, Content.append_assoc]
    rfl
  | @empty inside e ps next empty _ ih =>
    obtain ⟨as, -, rfl⟩ := tagElement_eq_ok_iff.mp empty
    rw [addAll, add, empty]
    simp only [addElement, push_of_going going]
    rw [ih going, Content.append_assoc]
    rfl
  | @element inside close e ps qs inner next start closes _ _ within later =>
    obtain ⟨as, -, rfl⟩ := tagElement_eq_ok_iff.mp start
    have inner := @within ⟨tagName inside, as, false⟩ .nil (⟨tag, content⟩ :: outer) rfl
    rw [addAll, add, start]
    simp only [Except.map]
    rw [addAll_append _ inner, addAll, add, Assembly.close]
    simp only [closes, Element.name, if_true, addElement, push_of_going going, Content.nil_append]
    rw [later going, Content.append_assoc]
    rfl

/-- Pieces that may stand outside of the root go before it as long as there is none. -/
theorem addAll_of_outside {ps : List Piece} (outside : ∀ p ∈ ps, p.isOutside = true) (prolog epilog : List Text)
    (root : Option Element) :
    addAll ⟨[], prolog, root, epilog⟩ ps =
      if root.isNone then .ok ⟨[], prolog ++ ps.map Piece.kept, root, epilog⟩
      else .ok ⟨[], prolog, root, epilog ++ ps.map Piece.kept⟩ := by
  induction ps generalizing prolog epilog with
  | nil => simp [addAll]
  | cons p ps ih =>
    have here := outside p List.mem_cons_self
    rw [addAll, add_of_other (Piece.isTag_of_isOutside here) fun _ => here]
    have later := ih fun q member => outside q (List.mem_cons_of_mem p member)
    cases root <;> simp [addRaw, later]

/-- The pieces of one element become the root. -/
theorem addAll_of_root {ps : List Piece} {root : Element} (h : Builds ps (.element root.tag root.content .nil))
    (prolog epilog : List Text) :
    addAll ⟨[], prolog, none, epilog⟩ ps = .ok ⟨[], prolog, some root, epilog⟩ := by
  obtain ⟨tag, content⟩ := root
  dsimp only at h
  generalize whole : Content.element tag content .nil = c at h
  cases h with
  | nil => cases whole
  | raw => cases whole
  | @empty inside e ps next empty later =>
    obtain ⟨rfl, rfl, rfl⟩ := Content.element.inj whole
    cases later
    obtain ⟨as, -, rfl⟩ := tagElement_eq_ok_iff.mp empty
    rw [addAll, add, empty]
    rfl
  | @element inside close e ps qs inner next start closes within later =>
    obtain ⟨rfl, rfl, rfl⟩ := Content.element.inj whole
    cases later
    obtain ⟨as, -, rfl⟩ := tagElement_eq_ok_iff.mp start
    have inner := addAll_of_builds within (a := ⟨[⟨⟨tagName inside, as, false⟩, .nil⟩], prolog, none, epilog⟩) rfl rfl
    rw [addAll, add, start]
    simp only [Except.map]
    rw [addAll_append _ inner, addAll, add, Assembly.close]
    simp [closes, Element.name, addElement, Content.nil_append, addAll]

theorem finish_eq_ok_iff {a : Assembly} {d : Document} :
    a.finish = .ok d ↔ a.opened = [] ∧ a.root = some d.root ∧ a.prolog = d.prolog ∧ a.epilog = d.epilog := by
  obtain ⟨opened, prolog, root, epilog⟩ := a
  obtain ⟨prolog', root', epilog'⟩ := d
  cases opened with
  | cons e outer => simp [finish]
  | nil =>
    cases root with
    | none => simp [finish]
    | some root =>
      simp only [finish, Except.ok.injEq, Document.mk.injEq, Option.some.injEq, true_and]
      exact ⟨fun ⟨p, r, e⟩ => ⟨r, p, e⟩, fun ⟨r, p, e⟩ => ⟨p, r, e⟩⟩

/-- Pieces are put together exactly if they build a document. -/
theorem finish_addAll_iff {mark : Text} {ps : List Piece} {d : Document} :
    (∃ a, addAll ⟨[], if mark = [] then [] else [mark], none, []⟩ ps = .ok a ∧ a.finish = .ok d) ↔
      BuildsDocument mark ps d := by
  constructor
  · rintro ⟨a, added, finished⟩
    obtain ⟨opened, root, prolog, epilog⟩ := finish_eq_ok_iff.mp finished
    have nothing : Holds (if mark = [] then [] else [mark]) [] ⟨[], if mark = [] then [] else [mark], none, []⟩ :=
      ⟨[], [], rfl, .before (fun _ member => absurd member List.not_mem_nil) rfl (by simp) rfl, .nil⟩
    obtain ⟨top, stack, rfl, tops, opens⟩ := holds_addAll nothing added
    rw [opened] at opens
    cases opens
    cases tops with
    | before _ noRoot =>
      rw [root] at noRoot
      cases noRoot
    | after outside outside' builds hasRoot prolog' epilog' =>
      obtain rfl := Option.some.inj (root.symm.trans hasRoot)
      exact ⟨_, _, _, by simp, outside, outside', builds, prolog.symm.trans prolog', epilog.symm.trans epilog'⟩
  · rintro ⟨front, middle, back, rfl, outside, outside', builds, prolog, epilog⟩
    refine ⟨⟨[], d.prolog, some d.root, d.epilog⟩, ?_, finish_eq_ok_iff.mpr ⟨rfl, rfl, rfl, rfl⟩⟩
    rw [addAll_append _ (addAll_of_outside outside _ _ _), addAll_append _ (addAll_of_root builds _ _),
      addAll_of_outside outside', prolog, epilog]
    rfl

end Assembly

/-- A text is a document exactly if, byte order marks aside, its pieces build the document. -/
theorem Document.parse_eq_ok_iff {s : Text} {d : Document} :
    Document.parse s = .ok d ↔
      ∃ ps, Cut (splitMark (splitMark s).2).2 ps ∧ BuildsDocument (splitMark s).1 ps d := by
  rw [Document.parse]
  dsimp only
  generalize (splitMark s).1 = mark
  generalize (splitMark (splitMark s).2).2 = body
  constructor
  · intro h
    split at h
    · cases h
    · next a added =>
      cases read : readPieces body with
      | mk ps fault =>
        rw [read] at h added
        cases fault with
        | some fault => cases h
        | none => exact ⟨ps, cut_of_readPiecesFrom read, Assembly.finish_addAll_iff.mp ⟨a, added, h⟩⟩
  · rintro ⟨ps, cut, builds⟩
    obtain ⟨a, added, finished⟩ := Assembly.finish_addAll_iff.mpr builds
    have read : readPieces body = (ps, none) := cut.readPiecesFrom (Assembly.nests_of_addAll added) 0
    rw [read]
    simp only [added, finished]

end SvgEdit
