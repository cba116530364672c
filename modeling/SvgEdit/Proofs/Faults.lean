import SvgEdit.Proofs.Acceptance

/-!
# The fault that is told

A text is no document for the first of its pieces that does not fit, for what cannot be cut, or for what is
missing at the end, in this order. What fits is said here by what stands before a piece: the names that are
open, and the elements that are complete at the top level. It is not said by what has been put together.
-/
namespace SvgEdit

/-! ## What stands before a piece -/

/-- The names that are open, the innermost first, and those of the elements complete at the top level, in order. -/
structure Standing where
  opened : List Text
  tops : List Text
deriving DecidableEq, Repr

namespace Standing

/-- After an element of the given name. -/
def complete (st : Standing) (name : Text) : Standing :=
  if st.opened = [] then { st with tops := st.tops ++ [name] } else st

/-- With the innermost name closed. -/
def closed (st : Standing) : Standing := { st with opened := st.opened.tail }

/-- After one more piece. -/
def after (st : Standing) : Piece → Standing
  | .startTag inside => { st with opened := tagName inside :: st.opened }
  | .emptyTag inside => st.complete (tagName inside)
  | .endTag inside => st.closed.complete (Piece.endName inside)
  | _ => st

theorem after_of_other (st : Standing) {p : Piece} (other : p.isTag = false) : st.after p = st := by
  cases p with
  | startTag | emptyTag | endTag => cases other
  | _ => rfl

/-- After more pieces. -/
def afterAll (st : Standing) (ps : List Piece) : Standing := ps.foldl after st

theorem afterAll_append (st : Standing) (ps qs : List Piece) : st.afterAll (ps ++ qs) = (st.afterAll ps).afterAll qs :=
  List.foldl_append

theorem tops_complete (st : Standing) (name : Text) : st.tops <+: (st.complete name).tops := by
  unfold complete
  split
  · exact List.prefix_append _ _
  · exact List.prefix_refl _

theorem tops_after (st : Standing) (p : Piece) : st.tops <+: (st.after p).tops := by
  cases p with
  | emptyTag inside => exact st.tops_complete _
  | endTag inside => exact st.closed.tops_complete _
  | _ => exact List.prefix_refl _

/-- What is complete stays complete. -/
theorem tops_afterAll (st : Standing) (ps : List Piece) : st.tops <+: (st.afterAll ps).tops := by
  induction ps generalizing st with
  | nil => exact List.prefix_refl _
  | cons p ps ih => exact (st.tops_after p).trans (ih (st.after p))

end Standing

/-- What stands after the first pieces of a text. -/
def standing (ps : List Piece) : Standing := Standing.afterAll ⟨[], []⟩ ps

/-! ## Faults of pieces -/

/-- Why a value cannot be unescaped, if it cannot. -/
def WrittenAttribute.fault? (a : WrittenAttribute) : Option EscapeFault :=
  match unescape a.spelling.raw with
  | .ok _ => none
  | .error bad => some bad

/-- The fault of a tag: that of its first bad value, or else the one that ends the splitting of its attributes. -/
def tagFault? (inside : Text) : Option DocumentFault :=
  match (splitAttributes inside).1.findSome? WrittenAttribute.fault? with
  | some bad => some (.escape bad)
  | none => (splitAttributes inside).2.map .attribute

namespace Standing

/-- The fault of an element that is complete: another one is already there at the top level. -/
def rootFault? (st : Standing) (name : Text) : Option DocumentFault :=
  if st.opened = [] ∧ st.tops ≠ [] then some (.secondRoot name) else none

/-- The fault of a piece. -/
def fault? (st : Standing) : Piece → Option DocumentFault
  | .startTag inside => tagFault? inside
  | .emptyTag inside => (tagFault? inside).or (st.rootFault? (tagName inside))
  | .endTag inside => st.closed.rootFault? (Piece.endName inside)
  | .text run => if st.opened = [] ∧ Text.trim run ≠ [] then some .textOutsideRoot else none
  | _ => none

/-- No piece has a fault. -/
def Fits (st : Standing) (ps : List Piece) : Prop :=
  ∀ before p rest, ps = before ++ p :: rest → (st.afterAll before).fault? p = none

theorem fits_nil (st : Standing) : st.Fits [] := by
  intro before p rest whole
  simp at whole

theorem fits_cons_iff {st : Standing} {p : Piece} {ps : List Piece} :
    st.Fits (p :: ps) ↔ st.fault? p = none ∧ (st.after p).Fits ps := by
  constructor
  · intro fits
    refine ⟨fits [] p ps rfl, ?_⟩
    intro before q rest whole
    exact fits (p :: before) q rest (by rw [whole, List.cons_append])
  · rintro ⟨here, later⟩ before q rest whole
    cases before with
    | nil =>
      obtain ⟨rfl, rfl⟩ := List.cons.inj whole
      exact here
    | cons p' before =>
      obtain ⟨rfl, rfl⟩ := List.cons.inj whole
      exact later before q rest rfl

/-- Either all pieces fit, or there is a first one that does not. -/
theorem fits_or_fault (st : Standing) (ps : List Piece) :
    st.Fits ps ∨ ∃ before p rest f,
      ps = before ++ p :: rest ∧ st.Fits before ∧ (st.afterAll before).fault? p = some f := by
  induction ps generalizing st with
  | nil => exact .inl st.fits_nil
  | cons p ps ih =>
    cases here : st.fault? p with
    | some f => exact .inr ⟨[], p, ps, f, rfl, st.fits_nil, here⟩
    | none =>
      rcases ih (st.after p) with fits | ⟨before, q, rest, f, rfl, fits, fault⟩
      · exact .inl (fits_cons_iff.mpr ⟨here, fits⟩)
      · exact .inr ⟨p :: before, q, rest, f, rfl, fits_cons_iff.mpr ⟨here, fits⟩, fault⟩

end Standing

/-! ## Tags -/

theorem unescapeAll_eq_error_iff (written : List WrittenAttribute) (marks : List QuoteMark) {bad : EscapeFault} :
    unescapeAll written marks = .error bad ↔ written.findSome? WrittenAttribute.fault? = some bad := by
  induction written generalizing marks with
  | nil => simp [unescapeAll]
  | cons a written ih =>
    rw [unescapeAll, List.findSome?_cons, WrittenAttribute.fault?]
    cases unescape a.spelling.raw with
    | error bad' => simp
    | ok value =>
      have later := ih marks.tail
      cases result : unescapeAll written marks.tail with
      | error bad' =>
        rw [result] at later
        simpa [Except.map] using later
      | ok as =>
        rw [result] at later
        simpa [Except.map] using later

theorem tagElement_eq_error_iff {inside : Text} (selfClosing : Bool) {f : DocumentFault} :
    Assembly.tagElement inside selfClosing = .error f ↔ tagFault? inside = some f := by
  have value {bad : EscapeFault} :
      unescapeAll (splitAttributes inside).1 (quoteMarks (tagAttributes inside)) = .error bad ↔
        (splitAttributes inside).1.findSome? WrittenAttribute.fault? = some bad := unescapeAll_eq_error_iff _ _
  unfold Assembly.tagElement readAttributes tagFault?
  dsimp only
  cases result : unescapeAll (splitAttributes inside).1 (quoteMarks (tagAttributes inside)) with
  | error bad =>
    rw [value.mp result]
    simp
  | ok as =>
    cases found : (splitAttributes inside).1.findSome? WrittenAttribute.fault? with
    | some bad =>
      rw [value.mpr found] at result
      cases result
    | none => cases (splitAttributes inside).2 <;> simp

theorem tagFault?_eq_none_iff {inside : Text} :
    tagFault? inside = none ↔ (splitAttributes inside).2 = none ∧
      ∀ a ∈ (splitAttributes inside).1, ∃ value, unescape a.spelling.raw = .ok value := by
  have good (a : WrittenAttribute) : a.fault? = none ↔ ∃ value, unescape a.spelling.raw = .ok value := by
    unfold WrittenAttribute.fault?
    cases unescape a.spelling.raw <;> simp
  unfold tagFault?
  cases found : (splitAttributes inside).1.findSome? WrittenAttribute.fault? with
  | some bad =>
    obtain ⟨a, member, fault⟩ := List.exists_of_findSome?_eq_some found
    constructor
    · intro none
      cases none
    · rintro ⟨-, all⟩
      rw [(good a).mpr (all a member)] at fault
      cases fault
  | none =>
    have all := List.findSome?_eq_none_iff.mp found
    simp only [Option.map_eq_none_iff]
    exact ⟨fun split => ⟨split, fun a member => (good a).mp (all a member)⟩, And.left⟩

theorem Text.trim_eq_nil_iff {s : Text} : trim s = [] ↔ isBlankText s = true := by
  rw [trim, dropWhileEnd, List.reverse_eq_nil_iff, List.dropWhile_eq_nil_iff, isBlankText, List.all_eq_true]
  constructor
  · intro blank c member
    rw [← List.takeWhile_append_dropWhile (p := isBlank) (l := s)] at member
    rcases List.mem_append.mp member with first | later
    · exact List.mem_takeWhile_imp first
    · exact blank c (List.mem_reverse.mpr later)
  · intro blank c member
    exact blank c ((List.dropWhile_sublist isBlank).subset (List.mem_reverse.mp member))

/-! ## Assemblies -/

namespace Assembly

/-- What stands in an assembly. -/
def standing (a : Assembly) : Standing := ⟨a.names, (a.root.map Element.name).toList⟩

theorem standing_addRaw (a : Assembly) (source : Text) : (a.addRaw source).standing = a.standing := by
  obtain ⟨opened, prolog, root, epilog⟩ := a
  cases opened with
  | nil => cases root <;> rfl
  | cons e outer => rfl

/-- An element is added unless another one is complete at the top level. -/
theorem addElement_eq_error_iff {a : Assembly} {e : Element} {f : DocumentFault} :
    a.addElement e = .error f ↔ a.standing.rootFault? e.name = some f := by
  obtain ⟨opened, prolog, root, epilog⟩ := a
  cases opened with
  | nil => cases root <;> simp [addElement, standing, names, Standing.rootFault?]
  | cons outer rest => simp [addElement, standing, names, Standing.rootFault?]

theorem standing_of_addElement {a b : Assembly} {e : Element} (h : a.addElement e = .ok b) :
    b.standing = a.standing.complete e.name := by
  obtain ⟨opened, prolog, root, epilog⟩ := a
  cases opened with
  | nil =>
    cases root with
    | none =>
      obtain rfl := Except.ok.inj h
      rfl
    | some root => cases h
  | cons outer rest =>
    obtain rfl := Except.ok.inj h
    rfl

theorem name_of_tagElement {inside : Text} {selfClosing : Bool} {e : Element}
    (tag : tagElement inside selfClosing = .ok e) : e.name = tagName inside := by
  obtain ⟨as, -, rfl⟩ := tagElement_eq_ok_iff.mp tag
  rfl

/-- A piece that closes what is open has the fault by which it cannot be added. -/
theorem add_eq_error_iff {a : Assembly} {p : Piece} {opened : List Text} (opens : openAfter a.names p = .ok opened)
    {f : DocumentFault} : a.add p = .error f ↔ a.standing.fault? p = some f := by
  cases p with
  | startTag inside =>
    rw [add, Standing.fault?, ← tagElement_eq_error_iff false]
    cases tagElement inside false <;> simp [Except.map]
  | emptyTag inside =>
    rw [add, Standing.fault?]
    cases tag : tagElement inside true with
    | error bad => simp [(tagElement_eq_error_iff true).mp tag]
    | ok e =>
      have fits : tagFault? inside = none := by
        cases fault : tagFault? inside with
        | none => rfl
        | some bad =>
          rw [(tagElement_eq_error_iff true).mpr fault] at tag
          cases tag
      rw [fits, Option.none_or, ← name_of_tagElement tag]
      exact addElement_eq_error_iff
  | endTag inside =>
    obtain ⟨elements, prolog, root, epilog⟩ := a
    cases elements with
    | nil => cases opens
    | cons e outer =>
      simp only [names, List.map_cons, openAfter] at opens
      split at opens
      · next same =>
        simp only [add, close, Standing.fault?, ← same]
        exact addElement_eq_error_iff
      · cases opens
  | text run =>
    have outside : a.standing.opened = [] ↔ a.opened = [] := by simp [standing, names]
    by_cases stray : a.opened = [] ∧ ¬ Text.isBlankText run = true
    · simp [add, Standing.fault?, outside, Text.trim_eq_nil_iff, stray]
    · simp only [add, Standing.fault?, outside, ne_eq, Text.trim_eq_nil_iff, stray, if_false, reduceCtorEq]
  | _ => simp [add, Standing.fault?]

theorem standing_of_add {a b : Assembly} {p : Piece} (h : a.add p = .ok b) : b.standing = a.standing.after p := by
  cases add_eq_ok_iff.mp h with
  | startTag tag =>
    rw [Standing.after, ← name_of_tagElement tag]
    rfl
  | emptyTag tag added =>
    rw [standing_of_addElement added, name_of_tagElement tag]
    rfl
  | endTag opened closes added =>
    rw [standing_of_addElement added, ← closes, Standing.after, standing, standing, names, names, opened]
    rfl
  | raw other _ => rw [standing_addRaw, Standing.after_of_other _ other]

theorem standing_of_addAll {a b : Assembly} {ps : List Piece} (h : a.addAll ps = .ok b) :
    b.standing = a.standing.afterAll ps := by
  induction ps generalizing a with
  | nil =>
    obtain rfl := Except.ok.inj h
    rfl
  | cons p ps ih =>
    rw [addAll] at h
    split at h
    · next c added => rw [ih h, standing_of_add added]; rfl
    · cases h

/-- Pieces that fit can be added. -/
theorem exists_addAll {a : Assembly} {ps : List Piece} (nests : Nests a.names ps) (fits : a.standing.Fits ps) :
    ∃ b, a.addAll ps = .ok b := by
  induction ps generalizing a with
  | nil => exact ⟨a, rfl⟩
  | cons p ps ih =>
    obtain ⟨opened, opens, nests⟩ := nests
    obtain ⟨here, later⟩ := Standing.fits_cons_iff.mp fits
    rw [addAll]
    cases added : a.add p with
    | error f =>
      rw [(add_eq_error_iff opens).mp added] at here
      cases here
    | ok b =>
      have same := openAfter_of_add added
      rw [opens] at same
      obtain rfl := Except.ok.inj same
      exact ih nests (standing_of_add added ▸ later)

/-- The first piece that does not fit has the fault by which pieces cannot be added. -/
theorem addAll_of_fault {a : Assembly} {before rest : List Piece} {p : Piece} {f : DocumentFault}
    (nests : Nests a.names (before ++ p :: rest)) (fits : a.standing.Fits before)
    (fault : (a.standing.afterAll before).fault? p = some f) : a.addAll (before ++ p :: rest) = .error f := by
  induction before generalizing a with
  | nil =>
    obtain ⟨opened, opens, -⟩ := nests
    rw [List.nil_append, addAll, (add_eq_error_iff opens).mpr fault]
  | cons q before ih =>
    obtain ⟨opened, opens, nests⟩ := nests
    obtain ⟨here, later⟩ := Standing.fits_cons_iff.mp fits
    rw [List.cons_append, addAll]
    cases added : a.add q with
    | error g =>
      rw [(add_eq_error_iff opens).mp added] at here
      cases here
    | ok b =>
      have same := openAfter_of_add added
      rw [opens] at same
      obtain rfl := Except.ok.inj same
      have next := standing_of_add added
      exact ih nests (next ▸ later) (by rw [next]; exact fault)

end Assembly

/-! ## Documents -/

/-- The pieces of a text after byte order marks, up to what cannot be read. -/
def piecesOf (s : Text) : List Piece := (readPieces (bodyOf s)).1

/-- Why not all of a text can be read, and where that is. -/
def readerFault? (s : Text) : Option (Located SyntaxFault) := (readPieces (bodyOf s)).2

/-- The names that the reader holds open after pieces, the innermost first; it refuses an end tag of another name. -/
def readerOpens (ps : List Piece) : Except SyntaxFault (List Text) := ps.foldlM openAfter []

theorem nests_of_readPiecesFrom (opened : List Text) (position : Nat) (s : Text) :
    Nests opened (readPiecesFrom opened position s).1 := by
  induction n : s.length using Nat.strong_induction_on generalizing opened position s with
  | _ n ih =>
    cases s with
    | nil =>
      rw [readPiecesFrom]
      trivial
    | cons c s =>
      rw [readPiecesFrom_cons]
      split
      · trivial
      · next p rest read =>
        split
        · trivial
        · next opened' opens =>
          exact ⟨opened', opens, ih rest.length (n ▸ Piece.length_of_read read) opened' _ rest rfl⟩

theorem nests_piecesOf (s : Text) : Nests [] (piecesOf s) := nests_of_readPiecesFrom [] 0 (bodyOf s)

/-- The names that the reader holds open are those that stand open. -/
theorem opened_of_openAfter {st : Standing} {p : Piece} {opened : List Text} (h : openAfter st.opened p = .ok opened) :
    (st.after p).opened = opened := by
  have complete (st : Standing) (name : Text) : (st.complete name).opened = st.opened := by
    unfold Standing.complete
    split <;> rfl
  cases p with
  | startTag inside => exact Except.ok.inj h
  | emptyTag inside => exact (complete st _).trans (Except.ok.inj h)
  | endTag inside =>
    refine (complete st.closed _).trans ?_
    obtain ⟨names, tops⟩ := st
    cases names with
    | nil => cases h
    | cons name outer =>
      rw [openAfter] at h
      split at h
      · exact Except.ok.inj h
      · cases h
  | _ => exact Except.ok.inj h

theorem foldlM_openAfter (st : Standing) {ps : List Piece} (nests : Nests st.opened ps) :
    ps.foldlM openAfter st.opened = .ok (st.afterAll ps).opened := by
  induction ps generalizing st with
  | nil => rfl
  | cons p ps ih =>
    obtain ⟨opened, opens, nests⟩ := nests
    have same := opened_of_openAfter opens
    subst same
    rw [List.foldlM_cons, opens]
    exact ih _ nests

theorem Nests.of_append {opened : List Text} {ps : List Piece} (qs : List Piece) (h : Nests opened (ps ++ qs)) :
    Nests opened ps := by
  induction ps generalizing opened with
  | nil => trivial
  | cons p ps ih =>
    obtain ⟨opened', opens, later⟩ := h
    exact ⟨opened', opens, ih later⟩

/-- The fault that comes first: of a piece, of the reader after all pieces, of the end of the text. -/
inductive FirstFault (s : Text) : DocumentFault → Prop
  | piece {before rest : List Piece} {p : Piece} {f : DocumentFault} (whole : piecesOf s = before ++ p :: rest)
      (fits : Standing.Fits ⟨[], []⟩ before) (fault : (standing before).fault? p = some f) : FirstFault s f
  | reader {fault : SyntaxFault} {position : Nat} (fits : Standing.Fits ⟨[], []⟩ (piecesOf s))
      (stopped : readerFault? s = some (fault, position)) :
      FirstFault s (.malformed fault (Text.size (splitMark s).1 + position))
  | unclosed {name : Text} {outer : List Text} (fits : Standing.Fits ⟨[], []⟩ (piecesOf s))
      (read : readerFault? s = none) (opened : (standing (piecesOf s)).opened = name :: outer) :
      FirstFault s (.unclosed name)
  | noRoot (fits : Standing.Fits ⟨[], []⟩ (piecesOf s)) (read : readerFault? s = none)
      (opened : (standing (piecesOf s)).opened = []) (tops : (standing (piecesOf s)).tops = []) :
      FirstFault s .noRoot

/-- The assembly with which reading begins. -/
def Assembly.startOf (s : Text) : Assembly := ⟨[], if (splitMark s).1 = [] then [] else [(splitMark s).1], none, []⟩

theorem Document.parse_eq (s : Text) :
    Document.parse s = match (Assembly.startOf s).addAll (piecesOf s) with
      | .error fault => .error fault
      | .ok a => match readerFault? s with
        | some (fault, position) => .error (.malformed fault (Text.size (splitMark s).1 + position))
        | none => a.finish := rfl

theorem FirstFault.parse_eq {s : Text} {f : DocumentFault} (h : FirstFault s f) : Document.parse s = .error f := by
  have nests : Nests (Assembly.startOf s).names (piecesOf s) := nests_piecesOf s
  rw [Document.parse_eq]
  cases h with
  | piece whole fits fault =>
    rw [whole] at nests ⊢
    rw [Assembly.addAll_of_fault nests fits fault]
  | reader fits stopped =>
    obtain ⟨a, added⟩ := Assembly.exists_addAll nests fits
    simp only [added, stopped]
  | unclosed fits read opened =>
    obtain ⟨a, added⟩ := Assembly.exists_addAll nests fits
    have stands : a.names = (standing (piecesOf s)).opened :=
      congrArg Standing.opened (Assembly.standing_of_addAll added)
    rw [opened] at stands
    simp only [added, read]
    obtain ⟨elements, prolog, root, epilog⟩ := a
    cases elements with
    | nil => cases stands
    | cons e rest =>
      obtain ⟨rfl, -⟩ := List.cons.inj stands
      rfl
  | noRoot fits read opened tops =>
    obtain ⟨a, added⟩ := Assembly.exists_addAll nests fits
    have stands : a.standing = standing (piecesOf s) := Assembly.standing_of_addAll added
    have names : a.names = [] := (congrArg Standing.opened stands).trans opened
    have root : (a.root.map Element.name).toList = [] := (congrArg Standing.tops stands).trans tops
    simp only [added, read]
    obtain ⟨elements, prolog, root', epilog⟩ := a
    simp only [Assembly.names, List.map_eq_nil_iff] at names
    simp only [Option.toList_eq_nil_iff, Option.map_eq_none_iff] at root
    rw [Assembly.finish]
    simp only [names, root]

/-- A text has a first fault, or its pieces fit, all of it is read, and one element is complete at the end. -/
theorem exists_firstFault (s : Text) :
    (∃ f, FirstFault s f) ∨ Standing.Fits ⟨[], []⟩ (piecesOf s) ∧ readerFault? s = none ∧
      (standing (piecesOf s)).opened = [] ∧ (standing (piecesOf s)).tops ≠ [] := by
  rcases Standing.fits_or_fault ⟨[], []⟩ (piecesOf s) with fits | ⟨before, p, rest, f, whole, fits, fault⟩
  · cases read : readerFault? s with
    | some stopped =>
      obtain ⟨fault, position⟩ := stopped
      exact .inl ⟨_, .reader fits read⟩
    | none =>
      cases opened : (standing (piecesOf s)).opened with
      | cons name outer => exact .inl ⟨_, .unclosed fits read opened⟩
      | nil =>
        by_cases tops : (standing (piecesOf s)).tops = []
        · exact .inl ⟨_, .noRoot fits read opened tops⟩
        · exact .inr ⟨fits, rfl, rfl, tops⟩
  · exact .inl ⟨f, .piece whole fits fault⟩

/-- Without a fault there is a document. -/
theorem exists_parse_of_fits {s : Text} (fits : Standing.Fits ⟨[], []⟩ (piecesOf s)) (read : readerFault? s = none)
    (opened : (standing (piecesOf s)).opened = []) (tops : (standing (piecesOf s)).tops ≠ []) :
    (∃ d, Document.parse s = .ok d) ∧ (standing (piecesOf s)).tops.length = 1 := by
  obtain ⟨a, added⟩ := Assembly.exists_addAll (a := Assembly.startOf s) (nests_piecesOf s) fits
  have stands : a.standing = standing (piecesOf s) := Assembly.standing_of_addAll added
  rw [← stands] at opened tops ⊢
  obtain ⟨elements, prolog, root, epilog⟩ := a
  simp only [Assembly.standing, Assembly.names, List.map_eq_nil_iff] at opened
  cases root with
  | none => exact absurd rfl tops
  | some root =>
    refine ⟨⟨⟨prolog, root, epilog⟩, ?_⟩, rfl⟩
    rw [Document.parse_eq]
    simp only [added, read, Assembly.finish, opened]

theorem Document.parse_eq_error_iff {s : Text} {f : DocumentFault} : Document.parse s = .error f ↔ FirstFault s f := by
  constructor
  · intro parsed
    rcases exists_firstFault s with ⟨g, first⟩ | ⟨fits, read, opened, tops⟩
    · have same := first.parse_eq
      rw [parsed] at same
      exact Except.error.inj same ▸ first
    · obtain ⟨⟨d, accepted⟩, -⟩ := exists_parse_of_fits fits read opened tops
      rw [parsed] at accepted
      cases accepted
  · exact FirstFault.parse_eq

/-! ## Conditions on all pieces -/

/-- Where one element is complete at the top level, none was complete before another one. -/
theorem rootFault?_eq_none {st : Standing} {name : Text} {rest : List Piece}
    (single : ((st.complete name).afterAll rest).tops.length = 1) : st.rootFault? name = none := by
  unfold Standing.rootFault?
  split
  · next second =>
    have more := ((st.complete name).tops_afterAll rest).length_le
    have some := List.length_pos_iff.mpr second.2
    rw [Standing.complete, if_pos second.1, List.length_append, List.length_singleton] at more
    rw [Standing.complete, if_pos second.1] at single
    omega
  · rfl

/-- Pieces fit exactly if tags can be read, text at the top level is blank and one element at most is complete there. -/
theorem fits_iff {ps : List Piece} (single : (standing ps).tops.length = 1) :
    Standing.Fits ⟨[], []⟩ ps ↔
      (∀ inside, .startTag inside ∈ ps ∨ .emptyTag inside ∈ ps → tagFault? inside = none) ∧
        ∀ before run rest, ps = before ++ .text run :: rest → (standing before).opened = [] → Text.trim run = [] := by
  constructor
  · intro fits
    constructor
    · rintro inside (start | empty)
      · obtain ⟨before, rest, whole⟩ := List.append_of_mem start
        exact fits before _ rest whole
      · obtain ⟨before, rest, whole⟩ := List.append_of_mem empty
        exact (Option.or_eq_none_iff.mp (fits before _ rest whole)).1
    · intro before run rest whole outside
      have here := fits before _ rest whole
      by_contra text
      rw [Standing.fault?, if_pos ⟨outside, text⟩] at here
      cases here
  · rintro ⟨tags, texts⟩ before p rest whole
    have later : ((standing before).after p).afterAll rest = standing ps := by
      rw [whole, standing, standing, Standing.afterAll_append]
      rfl
    rw [← later] at single
    cases p with
    | startTag inside => exact tags inside (.inl (by simp [whole]))
    | emptyTag inside =>
      exact Option.or_eq_none_iff.mpr ⟨tags inside (.inr (by simp [whole])), rootFault?_eq_none single⟩
    | endTag inside => exact rootFault?_eq_none single
    | text run =>
      rw [Standing.fault?, if_neg]
      rintro ⟨outside, text⟩
      exact text (texts before run rest whole outside)
    | _ => rfl

theorem tagFault?_eq_some {inside : Text} {f : DocumentFault} (fault : tagFault? inside = some f) :
    (∃ bad, f = .escape bad) ∨ ∃ bad, f = .attribute bad := by
  unfold tagFault? at fault
  split at fault
  · next bad _ => exact .inl ⟨bad, (Option.some.inj fault).symm⟩
  · obtain ⟨bad, -, same⟩ := Option.map_eq_some_iff.mp fault
    exact .inr ⟨bad, same.symm⟩

theorem Standing.rootFault?_eq_some {st : Standing} {name : Text} {f : DocumentFault}
    (fault : st.rootFault? name = some f) : f = .secondRoot name := by
  unfold Standing.rootFault? at fault
  split at fault
  · exact (Option.some.inj fault).symm
  · cases fault

/-- Where a piece does not fit, its tag cannot be read, or it stands at the top level where it may not. -/
theorem Standing.fault?_eq_some {st : Standing} {p : Piece} {f : DocumentFault} (fault : st.fault? p = some f) :
    ((∃ bad, f = .escape bad) ∨ ∃ bad, f = .attribute bad) ∨ (∃ name, f = .secondRoot name) ∨ f = .textOutsideRoot := by
  cases p with
  | startTag inside => exact .inl (tagFault?_eq_some fault)
  | emptyTag inside =>
    rcases Option.or_eq_some_iff.mp fault with fault | ⟨-, fault⟩
    · exact .inl (tagFault?_eq_some fault)
    · exact .inr (.inl ⟨_, rootFault?_eq_some fault⟩)
  | endTag inside => exact .inr (.inl ⟨_, rootFault?_eq_some fault⟩)
  | text run =>
    rw [Standing.fault?] at fault
    split at fault
    · exact .inr (.inr (Option.some.inj fault).symm)
    · cases fault
  | _ => cases fault

/-- End tags that fit what is open never have the fault of one that does not. -/
theorem FirstFault.ne_end {s : Text} {f : DocumentFault} (h : FirstFault s f) :
    (∀ expected found, f ≠ .mismatchedEnd expected found) ∧ ∀ found, f ≠ .unexpectedEnd found := by
  cases h with
  | piece whole fits fault =>
    rcases Standing.fault?_eq_some fault with (⟨bad, rfl⟩ | ⟨bad, rfl⟩) | ⟨name, rfl⟩ | rfl <;> simp
  | _ => simp

/--
A text is a document exactly if all of it is read, the attributes of every tag split and unescape, one element
stands at the top level, text there is blank, and none is open at the end. Otherwise the fault that comes first
is told; it is never that of an end tag, as after each piece the names in the assembly are those that the
reader holds open.
-/
theorem Document.parse_tells_first_fault (s : Text) :
    ((∃ d, Document.parse s = .ok d) ↔
      readerFault? s = none ∧
        (∀ inside, .startTag inside ∈ piecesOf s ∨ .emptyTag inside ∈ piecesOf s →
          (splitAttributes inside).2 = none ∧
            ∀ a ∈ (splitAttributes inside).1, ∃ value, unescape a.spelling.raw = .ok value) ∧
        (standing (piecesOf s)).tops.length = 1 ∧
        (∀ before run rest, piecesOf s = before ++ .text run :: rest → (standing before).opened = [] →
          Text.trim run = []) ∧
        (standing (piecesOf s)).opened = []) ∧
    (∀ f, Document.parse s = .error f ↔ FirstFault s f) ∧
    (∀ f, Document.parse s = .error f →
      (∀ expected found, f ≠ .mismatchedEnd expected found) ∧ ∀ found, f ≠ .unexpectedEnd found) ∧
    ∀ before, before <+: piecesOf s → readerOpens before = .ok (standing before).opened ∧
      ∀ a, (Assembly.startOf s).addAll before = .ok a → a.names = (standing before).opened := by
  refine ⟨?_, fun f => parse_eq_error_iff, fun f failed => (parse_eq_error_iff.mp failed).ne_end, ?_⟩
  · simp only [← tagFault?_eq_none_iff]
    constructor
    · rintro ⟨d, parsed⟩
      rcases exists_firstFault s with ⟨f, first⟩ | ⟨fits, read, opened, tops⟩
      · rw [first.parse_eq] at parsed
        cases parsed
      · obtain ⟨-, single⟩ := exists_parse_of_fits fits read opened tops
        obtain ⟨tags, texts⟩ := (fits_iff single).mp fits
        exact ⟨read, tags, single, texts, opened⟩
    · rintro ⟨read, tags, single, texts, opened⟩
      have tops : (standing (piecesOf s)).tops ≠ [] := by
        intro none
        rw [none] at single
        cases single
      exact (exists_parse_of_fits ((fits_iff single).mpr ⟨tags, texts⟩) read opened tops).1
  · rintro before ⟨rest, whole⟩
    have nests : Nests [] before := Nests.of_append rest (whole ▸ nests_piecesOf s)
    refine ⟨foldlM_openAfter ⟨[], []⟩ nests, ?_⟩
    intro a added
    exact congrArg Standing.opened (Assembly.standing_of_addAll added)

end SvgEdit
