import SvgEdit.Proofs.Reselection
import SvgEdit.Proofs.Tidy

/-!
# Fragments of queries

A selector can be written as fragments in any order: a tag, an identifier, classes and attributes, with blanks
between them. Reading takes the marked names and the attributes out of the text one by one. As long as no name
runs into what follows it, each of them is found as it was written, and the tag is what remains.
-/
namespace SvgEdit
namespace Query

/-! ## How selectors are written -/

/-- A mark in which a value can be quoted. -/
def IsQuote (c : Char) : Prop := c = '"' ∨ c = '\''

instance : DecidablePred IsQuote := fun c => inferInstanceAs (Decidable (c = '"' ∨ c = '\''))

/-- How a value is written. -/
inductive Quoting
  | bare (value : Text)
  | quoted (mark : Char) (value : Text)
deriving DecidableEq

namespace Quoting

def value : Quoting → Text
  | bare value => value
  | quoted _ value => value

def text : Quoting → Text
  | bare value => value
  | quoted mark value => mark :: (value ++ [mark])

/-- A value within brackets. One that is not quoted is not empty and does not stand in quotes of its own. -/
def Proper : Quoting → Prop
  | bare value => value ≠ [] ∧ ']' ∉ value ∧ ∀ mark inner, value = mark :: (inner ++ [mark]) → ¬ IsQuote mark
  | quoted mark value => IsQuote mark ∧ ']' ∉ value

end Quoting

/-- A part of a selector: a gap, or a fragment. Names are marked by `#` or `.`, attributes stand in brackets. -/
inductive Part
  | gap (blanks : Text)
  | tag (name : Text)
  | marked (mark : Char) (name : Text)
  | bracketed (name : Text) (value : Option Quoting)
deriving DecidableEq

namespace Part

def text : Part → Text
  | gap blanks => blanks
  | tag name => name
  | marked mark name => mark :: name
  | bracketed name none => '[' :: (name ++ [']'])
  | bracketed name (some value) => '[' :: (name ++ '=' :: value.text ++ [']'])

def Proper : Part → Prop
  | gap blanks => blanks ≠ [] ∧ ∀ c ∈ blanks, Text.isBlank c = true
  | tag name => name ≠ [] ∧ (∀ c ∈ name.head?, Text.isBlank c = false) ∧ (∀ c ∈ name.getLast?, Text.isBlank c = false) ∧
    ∀ c ∈ name, c ≠ '#' ∧ c ≠ '.' ∧ c ≠ '[' ∧ c ≠ ']'
  | marked mark name => (mark = '#' ∨ mark = '.') ∧ name ≠ [] ∧ ∀ c ∈ name, isNameChar c = true
  | bracketed name value => name ≠ [] ∧ (∀ c ∈ name, isNameChar c = true ∨ c = ':') ∧ ∀ v ∈ value, v.Proper

/-- A tag can follow a gap or an attribute. -/
def CanPrecede (p q : Part) : Prop :=
  ∀ name, q = .tag name → (∃ blanks, p = .gap blanks) ∨ ∃ name value, p = .bracketed name value

def tag? : Part → Option Text
  | tag name => some name
  | _ => none

def under? (mark : Char) : Part → Option Text
  | marked m name => if m = mark then some name else none
  | _ => none

def constraint? : Part → Option (Text × Option Text)
  | bracketed name value => some (name, value.map Quoting.value)
  | _ => none

/-- Whether it is a fragment. -/
def isFragment : Part → Bool
  | gap _ => false
  | _ => true

end Part

/-- A selector, part by part. -/
def textOf (ps : List Part) : Text := ps.flatMap Part.text

theorem textOf_cons (p : Part) (ps : List Part) : textOf (p :: ps) = p.text ++ textOf ps := List.flatMap_cons

theorem textOf_append (ps qs : List Part) : textOf (ps ++ qs) = textOf ps ++ textOf qs := List.flatMap_append

def tagsOf (ps : List Part) : List Text := ps.filterMap Part.tag?

def idsOf (ps : List Part) : List Text := ps.filterMap (Part.under? '#')

def classesOf (ps : List Part) : List Text := ps.filterMap (Part.under? '.')

/-- The attributes that are asked for, in the order in which they are written. -/
def constraintsOf (ps : List Part) : List (Text × Option Text) := ps.filterMap Part.constraint?

/-- The parts make a selector: one tag and one identifier at most, and no name runs into the tag. -/
structure IsSelector (ps : List Part) : Prop where
  proper : ∀ p ∈ ps, p.Proper
  oneTag : (tagsOf ps).length ≤ 1
  oneId : (idsOf ps).length ≤ 1
  apart : ps.IsChain Part.CanPrecede

/-- What was asked last of an attribute. -/
def lastValue (constraints : List (Text × Option Text)) (name : Text) : Option Text :=
  (constraints.reverse.lookup name).join

/-- What the parts of a selector ask for: what is repeated counts where it comes first, with its last value. -/
def ofParts (ps : List Part) : Query where
  tag := (tagsOf ps).head?
  id := (idsOf ps).head?
  classes := (classesOf ps).eraseDups
  attributes := ((constraintsOf ps).map Prod.fst).eraseDups.map fun name => (name, lastValue (constraintsOf ps) name)

/-! ## Names that end -/

/-- A text by which a name that stands before it ends. -/
def EndsName (s : Text) : Prop := ∀ c ∈ s.head?, isNameChar c = false

/-- No marked name runs into what follows it. -/
def Ended : List Part → Prop
  | [] => True
  | p :: ps => (∀ mark name, p = .marked mark name → EndsName (textOf ps)) ∧ Ended ps

theorem not_isNameChar_of_isBlank {c : Char} (blank : Text.isBlank c = true) : isNameChar c = false := by
  by_contra named
  simp [isNameChar, Char.isAlphanum, Char.isAlpha, Char.isUpper, Char.isLower, Char.isDigit, Char.ext_iff,
    UInt32.le_iff_toNat_le, ← UInt32.toNat_inj] at named
  simp [Text.isBlank] at blank
  omega

theorem Ended.of_append {ps qs : List Part} (h : Ended (ps ++ qs)) : Ended qs := by
  induction ps with
  | nil => exact h
  | cons p ps ih => exact ih h.2

/-- A part that is no tag begins with what ends a name. -/
theorem Part.endsName {p : Part} (proper : p.Proper) (other : p.tag? = none) (s : Text) : EndsName (p.text ++ s) := by
  have begins {c : Char} {t : Text} (same : p.text = c :: t) (ends : isNameChar c = false) :
      EndsName (p.text ++ s) := by
    intro d head
    rw [same] at head
    obtain rfl := Option.some.inj head
    exact ends
  cases p with
  | gap blanks =>
    obtain ⟨c, t, same⟩ := List.exists_cons_of_ne_nil proper.1
    exact begins same (not_isNameChar_of_isBlank (proper.2 c (same ▸ List.mem_cons_self)))
  | tag name => cases other
  | marked mark name =>
    refine begins rfl ?_
    rcases proper.1 with rfl | rfl <;> decide
  | bracketed name value => cases value <;> exact begins rfl (by decide)

theorem IsSelector.ended {ps : List Part} (h : IsSelector ps) : Ended ps := by
  obtain ⟨proper, -, -, apart⟩ := h
  induction ps with
  | nil => trivial
  | cons p ps ih =>
    refine ⟨?_, ih (fun q member => proper q (List.mem_cons_of_mem p member)) apart.of_cons⟩
    rintro mark name rfl
    cases ps with
    | nil =>
      intro c head
      cases head
    | cons q qs =>
      have follows := (List.isChain_cons_cons.mp apart).1
      rw [textOf_cons]
      refine Part.endsName (proper q (by simp)) ?_ _
      cases q with
      | tag n => rcases follows n rfl with ⟨_, same⟩ | ⟨_, _, same⟩ <;> cases same
      | _ => rfl

/-- The parts that are not under a mark. -/
def without (mark : Char) (ps : List Part) : List Part := ps.filter fun p => (p.under? mark).isNone

theorem mem_of_mem_without {mark : Char} {ps : List Part} {p : Part} (member : p ∈ without mark ps) : p ∈ ps :=
  (List.mem_filter.mp member).1

theorem without_cons (mark : Char) (p : Part) (ps : List Part) :
    without mark (p :: ps) = if p.under? mark = none then p :: without mark ps else without mark ps := by
  simp [without, List.filter_cons]

theorem Part.text_ne_nil {p : Part} (proper : p.Proper) : p.text ≠ [] := by
  cases p with
  | gap blanks => exact proper.1
  | tag name => exact proper.1
  | marked mark name => exact List.cons_ne_nil _ _
  | bracketed name value => cases value <;> exact List.cons_ne_nil _ _

theorem endsName_without {mark : Char} {ps : List Part} (proper : ∀ p ∈ ps, p.Proper) (ended : Ended ps)
    (ends : EndsName (textOf ps)) : EndsName (textOf (without mark ps)) := by
  induction ps with
  | nil => exact ends
  | cons p ps ih =>
    rw [without_cons]
    split
    · obtain ⟨c, t, same⟩ := List.exists_cons_of_ne_nil (Part.text_ne_nil (proper p List.mem_cons_self))
      rw [textOf_cons, same] at ends ⊢
      exact ends
    · next found =>
      refine ih (fun q member => proper q (List.mem_cons_of_mem p member)) ended.2 ?_
      cases p with
      | marked m name => exact ended.1 m name rfl
      | _ => exact absurd rfl found

/-- What ends a name still does when marked names are taken out. -/
theorem Ended.without {mark : Char} {ps : List Part} (proper : ∀ p ∈ ps, p.Proper) (ended : Ended ps) :
    Ended (without mark ps) := by
  induction ps with
  | nil => trivial
  | cons p ps ih =>
    have proper' : ∀ q ∈ ps, q.Proper := fun q member => proper q (List.mem_cons_of_mem p member)
    rw [without_cons]
    split
    · exact ⟨fun m name same => endsName_without proper' ended.2 (ended.1 m name same), ih proper' ended.2⟩
    · exact ih proper' ended.2

/-! ## Marked names -/

/-- Text in which nothing is marked is passed over. -/
theorem takeMarked_append {mark : Char} {t : Text} (plain : ∀ c ∈ t, c ≠ mark ∧ c ≠ '[' ∧ c ≠ ']') (s : Text) :
    takeMarked mark false (t ++ s) = (takeMarked mark false s).map fun found => (found.1, t ++ found.2) := by
  induction t with
  | nil => simp
  | cons c t ih =>
    obtain ⟨unmarked, unopened, unclosed⟩ := plain c List.mem_cons_self
    rw [List.cons_append, takeMarked, if_neg (fun h => unmarked h.1), if_neg unopened, if_neg unclosed,
      ih fun d member => plain d (List.mem_cons_of_mem c member), Option.map_map]
    rfl

/-- What stands between brackets is passed over. -/
theorem takeMarked_inside {mark : Char} {t : Text} (within : ']' ∉ t) (s : Text) :
    takeMarked mark true (t ++ ']' :: s) =
      (takeMarked mark false s).map fun found => (found.1, t ++ ']' :: found.2) := by
  induction t with
  | nil => simp [takeMarked]
  | cons c t ih =>
    obtain ⟨unclosed, within⟩ := not_or.mp (List.mem_cons.not.mp within)
    have still : (if c = '[' then true else if c = ']' then false else true) = true := by simp [Ne.symm unclosed]
    rw [List.cons_append, takeMarked, if_neg (by simp), still, ih within, Option.map_map]
    rfl

/-- The name after a mark is taken if it ends there. -/
theorem takeMarked_name {mark : Char} {name s : Text} (nonempty : name ≠ []) (chars : ∀ c ∈ name, isNameChar c = true)
    (ends : EndsName s) : takeMarked mark false (mark :: (name ++ s)) = some (name, s) := by
  rw [takeMarked, Text.takeWhile_append_of_stop chars ends, Text.dropWhile_append_of_stop chars ends]
  simp [nonempty]

theorem closeBracket_notMem {name : Text} (chars : ∀ c ∈ name, isNameChar c = true ∨ c = ':') : ']' ∉ name := by
  intro member
  rcases chars _ member with named | colon
  · exact absurd named (by decide)
  · exact absurd colon (by decide)

theorem Quoting.closeBracket_notMem {v : Quoting} (proper : v.Proper) : ']' ∉ v.text := by
  cases v with
  | bare value => exact proper.2.1
  | quoted mark value =>
    have other : ']' ≠ mark := by
      rintro rfl
      exact absurd proper.1 (by decide)
    simp [text, other, proper.2]

/-- What stands between the brackets. -/
def insideOf (name : Text) (value : Option Quoting) : Text := name ++ value.elim [] fun v => '=' :: v.text

theorem Part.text_bracketed (name : Text) (value : Option Quoting) :
    (bracketed name value).text = '[' :: (insideOf name value ++ [']']) := by
  cases value <;> simp [text, insideOf]

theorem closeBracket_notMem_insideOf {name : Text} {value : Option Quoting}
    (proper : (Part.bracketed name value).Proper) :
    ']' ∉ insideOf name value := by
  have named := closeBracket_notMem proper.2.1
  cases value with
  | none => simpa [insideOf] using named
  | some v => simp [insideOf, named, Quoting.closeBracket_notMem (proper.2.2 v rfl)]

/-- A part that is not under a mark is passed over in the search for the mark. -/
theorem takeMarked_of_other {mark : Char} (isMark : mark = '#' ∨ mark = '.') {p : Part} (proper : p.Proper)
    (other : p.under? mark = none) (s : Text) :
    takeMarked mark false (p.text ++ s) = (takeMarked mark false s).map fun found => (found.1, p.text ++ found.2) := by
  have plain {c : Char} (named : isNameChar c = true) : c ≠ mark ∧ c ≠ '[' ∧ c ≠ ']' := by
    refine ⟨?_, ?_, ?_⟩ <;> rintro rfl
    · rcases isMark with rfl | rfl <;> exact absurd named (by decide)
    · exact absurd named (by decide)
    · exact absurd named (by decide)
  cases p with
  | gap blanks =>
    refine takeMarked_append (fun c member => ?_) s
    have blank := proper.2 c member
    refine ⟨?_, ?_, ?_⟩ <;> rintro rfl
    · rcases isMark with rfl | rfl <;> exact absurd blank (by decide)
    · exact absurd blank (by decide)
    · exact absurd blank (by decide)
  | tag name =>
    refine takeMarked_append (fun c member => ?_) s
    obtain ⟨noHash, noPoint, unopened, unclosed⟩ := proper.2.2.2 c member
    refine ⟨?_, unopened, unclosed⟩
    rcases isMark with rfl | rfl
    · exact noHash
    · exact noPoint
  | marked m name =>
    have different : m ≠ mark := by
      rintro rfl
      simp [Part.under?] at other
    refine takeMarked_append (fun c member => ?_) s
    rcases List.mem_cons.mp member with rfl | member
    · refine ⟨different, ?_, ?_⟩ <;> rintro rfl <;> exact absurd proper.1 (by decide)
    · exact plain (proper.2.2 c member)
  | bracketed name value =>
    have outside : '[' ≠ mark := by rcases isMark with rfl | rfl <;> decide
    rw [Part.text_bracketed, List.cons_append, List.append_assoc, List.singleton_append, takeMarked,
      if_neg (fun h => outside h.1), if_pos rfl, takeMarked_inside (closeBracket_notMem_insideOf proper),
        Option.map_map]
    simp [Function.comp_def]

/-- Parts that are not under a mark are passed over in the search for the mark. -/
theorem takeMarked_textOf_append {mark : Char} (isMark : mark = '#' ∨ mark = '.') {before : List Part}
    (proper : ∀ p ∈ before, p.Proper) (others : ∀ p ∈ before, p.under? mark = none) (s : Text) :
    takeMarked mark false (textOf before ++ s) =
      (takeMarked mark false s).map fun found => (found.1, textOf before ++ found.2) := by
  induction before with
  | nil => simp [textOf]
  | cons p before ih =>
    rw [textOf_cons, List.append_assoc, takeMarked_of_other isMark (proper p (by simp)) (others p (by simp)),
      ih (fun q member => proper q (by simp [member])) (fun q member => others q (by simp [member])), Option.map_map]
    simp [Function.comp_def]

theorem takeMarked_eq_none {mark : Char} (isMark : mark = '#' ∨ mark = '.') {ps : List Part}
    (proper : ∀ p ∈ ps, p.Proper) (others : ∀ p ∈ ps, p.under? mark = none) :
    takeMarked mark false (textOf ps) = none := by
  have passed := takeMarked_textOf_append isMark proper others []
  rwa [List.append_nil] at passed

/-- The first part under a mark is taken out. -/
theorem takeMarked_eq_some {mark : Char} (isMark : mark = '#' ∨ mark = '.') {before after : List Part} {name : Text}
    (proper : ∀ p ∈ before ++ .marked mark name :: after, p.Proper) (others : ∀ p ∈ before, p.under? mark = none)
    (ends : EndsName (textOf after)) :
    takeMarked mark false (textOf (before ++ .marked mark name :: after)) = some (name, textOf (before ++ after)) := by
  obtain ⟨-, nonempty, chars⟩ := proper (.marked mark name) (by simp)
  rw [textOf_append, textOf_cons, takeMarked_textOf_append isMark (fun p member => proper p (by simp [member])) others,
    Part.text, List.cons_append, takeMarked_name nonempty chars ends, textOf_append]
  rfl

/-! ## Identifiers and classes -/

/-- What is read off the parts does not depend on those that give nothing. -/
theorem filterMap_filter_of {α : Type} {keep : Part → Bool} {f : Part → Option α}
    (none : ∀ p, keep p = false → f p = none)
    (ps : List Part) : (ps.filter keep).filterMap f = ps.filterMap f := by
  induction ps with
  | nil => rfl
  | cons p ps ih =>
    cases kept : keep p with
    | true => rw [List.filter_cons_of_pos kept, List.filterMap_cons, List.filterMap_cons, ih]
    | false => rw [List.filter_cons_of_neg (by simp [kept]), ih, List.filterMap_cons, none p kept]

theorem classesOf_without (ps : List Part) : classesOf (without '#' ps) = classesOf ps := by
  refine filterMap_filter_of (fun p marked => ?_) ps
  cases p with
  | marked mark name =>
    simp only [Part.under?, Option.isNone_eq_false_iff, Option.isSome_ite] at marked
    simp [Part.under?, marked]
  | _ => rfl

theorem constraintsOf_without (mark : Char) (ps : List Part) : constraintsOf (without mark ps) = constraintsOf ps :=
  filterMap_filter_of (fun p marked => by cases p <;> first | rfl | cases marked) ps

theorem tagsOf_without (mark : Char) (ps : List Part) : tagsOf (without mark ps) = tagsOf ps :=
  filterMap_filter_of (fun p marked => by cases p <;> first | rfl | cases marked) ps

theorem without_eq_self {mark : Char} {ps : List Part} (none : ps.filterMap (Part.under? mark) = []) :
    without mark ps = ps :=
  List.filter_eq_self.mpr fun p member => by rw [List.filterMap_eq_nil_iff.mp none p member]; rfl

/-- The one identifier is taken out. -/
theorem takeMarked_id {ps : List Part} (h : IsSelector ps) :
    takeMarked '#' false (textOf ps) = (idsOf ps).head?.map fun name => (name, textOf (without '#' ps)) := by
  have isMark : '#' = '#' ∨ '#' = '.' := .inl rfl
  cases ids : idsOf ps with
  | nil => exact takeMarked_eq_none isMark h.proper (List.filterMap_eq_nil_iff.mp ids)
  | cons id more =>
    obtain ⟨before, p, after, rfl, others, found, later⟩ := List.filterMap_eq_cons_iff.mp ids
    cases p with
    | marked mark name =>
      have one := h.oneId
      have ended := h.ended
      rw [ids, List.length_cons] at one
      have none : more = [] := List.length_eq_zero_iff.mp (by omega)
      rw [none] at later
      obtain ⟨rfl, rfl⟩ : mark = '#' ∧ name = id := by simpa [Part.under?] using found
      have ends : EndsName (textOf after) := ended.of_append.1 _ _ rfl
      have kept : without '#' (before ++ .marked '#' name :: after) = before ++ after := by
        have front : without '#' before = before := without_eq_self (List.filterMap_eq_nil_iff.mpr others)
        have back : without '#' after = after := without_eq_self later
        rw [without, List.filter_append, List.filter_cons]
        exact congrArg₂ (· ++ ·) front back
      rw [takeMarked_eq_some isMark h.proper others ends, kept]
      rfl
    | _ => cases found

/-- One more class, unless it is already there. -/
def noteClass (classes : List Text) (name : Text) : List Text :=
  if classes.contains name then classes else classes ++ [name]

theorem noteClass_eq (classes : List Text) (name : Text) :
    noteClass classes name = if name ∈ classes then classes else classes ++ [name] := by
  simp only [noteClass, List.contains_iff_mem]

theorem nodup_noteClass {classes : List Text} (distinct : classes.Nodup) (name : Text) :
    (noteClass classes name).Nodup := by
  rw [noteClass_eq]
  split
  · exact distinct
  · next new => exact List.concat_eq_append ▸ distinct.concat new

theorem takeClasses_of_some {s name rest : Text} (taken : takeMarked '.' false s = some (name, rest)) (classes : List Text) :
    takeClasses classes s = takeClasses (noteClass classes name) rest := by
  rw [takeClasses, noteClass_eq]
  split
  · next taken' =>
    rw [taken] at taken'
    obtain ⟨rfl, rfl⟩ := Prod.mk.inj (Option.some.inj taken')
    rfl
  · next missing =>
    rw [taken] at missing
    cases missing

theorem takeClasses_of_none {s : Text} (missing : takeMarked '.' false s = none) (classes : List Text) :
    takeClasses classes s = (classes, s) := by
  rw [takeClasses]
  split
  · next taken =>
    rw [missing] at taken
    cases taken
  · rfl

/-- All classes are taken out, each of them noted. -/
theorem takeClasses_textOf (before ps : List Part) (proper : ∀ p ∈ before ++ ps, p.Proper)
    (others : ∀ p ∈ before, p.under? '.' = none) (ended : Ended ps) (classes : List Text) :
    takeClasses classes (textOf (before ++ ps)) =
      ((classesOf ps).foldl noteClass classes, textOf (before ++ without '.' ps)) := by
  have isMark : '.' = '#' ∨ '.' = '.' := .inr rfl
  induction ps generalizing before classes with
  | nil =>
    rw [List.append_nil] at proper ⊢
    rw [takeClasses_of_none (takeMarked_eq_none isMark proper others)]
    simp [classesOf, without]
  | cons p ps ih =>
    rw [without_cons]
    by_cases other : p.under? '.' = none
    · have step := ih (before ++ [p]) (by simpa using proper) (by simpa [or_imp, forall_and, other] using others)
        ended.2 classes
      simpa [classesOf, other] using step
    · cases p with
      | marked mark name =>
        obtain rfl : mark = '.' := by
          by_contra different
          exact other (if_neg different)
        have some := takeMarked_eq_some isMark proper others (ended.1 _ _ rfl)
        have step := ih before (fun q member => proper q (by simp at member ⊢; tauto)) others ended.2
          (noteClass classes name)
        rw [takeClasses_of_some some]
        exact step
      | _ => exact absurd rfl other

theorem eraseDups_concat (names : List Text) (name : Text) :
    (names ++ [name]).eraseDups = noteClass names.eraseDups name := by
  rw [List.eraseDups_append, noteClass_eq]
  by_cases known : name ∈ names <;> simp [known, List.removeAll, List.eraseDups_cons]

/-- Noting classes one by one keeps each of them where it comes first. -/
theorem foldl_noteClass (names : List Text) : names.foldl noteClass [] = names.eraseDups := by
  induction names using List.reverseRecOn with
  | nil => rfl
  | append_singleton names name ih => rw [List.foldl_append, ih, eraseDups_concat]; rfl

/-! ## Attributes -/

theorem stripQuotes_text {v : Quoting} (proper : v.Proper) : stripQuotes v.text = v.value := by
  cases v with
  | bare value =>
    cases value with
    | nil => rfl
    | cons c value =>
      refine if_neg ?_
      rintro ⟨quote, last⟩
      obtain ⟨inner, rfl⟩ := List.getLast?_eq_some_iff.mp last
      exact proper.2.2 c inner rfl quote
  | quoted mark value =>
    rw [Quoting.text, stripQuotes, if_pos ⟨proper.1, by simp⟩]
    simp [Quoting.value]

theorem Quoting.text_ne_nil {v : Quoting} (proper : v.Proper) : v.text ≠ [] := by
  cases v with
  | bare value => exact proper.1
  | quoted mark value => exact List.cons_ne_nil _ _

/-- What stands between brackets is read as it was written. -/
theorem readAttribute?_insideOf {name : Text} {value : Option Quoting} (proper : (Part.bracketed name value).Proper) :
    readAttribute? (insideOf name value) = some (name, value.map Quoting.value) := by
  obtain ⟨nonempty, chars, valued⟩ := proper
  have front : ∀ c ∈ name, decide (c ≠ '=') = true := by
    intro c member
    rw [decide_eq_true_iff]
    rintro rfl
    exact absurd (chars _ member) (by decide)
  have ends : ∀ c ∈ (value.elim [] fun v => '=' :: v.text).head?, decide (c ≠ '=') = false := by
    cases value with
    | none => simp
    | some v => simp
  have all : name.all (fun c => isNameChar c || c = ':') = true := by simpa using chars
  rw [readAttribute?, insideOf, Text.takeWhile_append_of_stop front ends, Text.dropWhile_append_of_stop front ends]
  cases value with
  | none => simp [nonempty, all]
  | some v => simp [nonempty, all, Quoting.text_ne_nil (valued v rfl), stripQuotes_text (valued v rfl)]

/-- Text without brackets is passed over. -/
theorem takeAttribute_append {t : Text} (plain : '[' ∉ t) (s : Text) :
    takeAttribute (t ++ s) = (takeAttribute s).map fun found => (found.1, t ++ found.2) := by
  induction t with
  | nil => simp
  | cons c t ih =>
    obtain ⟨unopened, plain⟩ := not_or.mp (List.mem_cons.not.mp plain)
    rw [List.cons_append, takeAttribute, if_neg (Ne.symm unopened), ih plain, Option.map_map]
    rfl

theorem takeAttribute_bracketed {name : Text} {value : Option Quoting} (proper : (Part.bracketed name value).Proper)
    (s : Text) : takeAttribute ((Part.bracketed name value).text ++ s) = some ((name, value.map Quoting.value), s) := by
  have cut : Text.cut? [']'] (insideOf name value ++ ']' :: s) = some (insideOf name value, s) :=
    Text.cut?_of_lacks_head (closeBracket_notMem_insideOf proper) [] s
  rw [Part.text_bracketed, List.cons_append, List.append_assoc, List.singleton_append, takeAttribute, if_pos rfl]
  simp only [cut, readAttribute?_insideOf proper]

/-- A part without brackets is passed over in the search for attributes. -/
theorem takeAttribute_of_other {p : Part} (proper : p.Proper) (other : p.constraint? = none) (s : Text) :
    takeAttribute (p.text ++ s) = (takeAttribute s).map fun found => (found.1, p.text ++ found.2) := by
  refine takeAttribute_append ?_ s
  intro member
  cases p with
  | gap blanks => exact absurd (proper.2 _ member) (by decide)
  | tag name => exact absurd rfl (proper.2.2.2 _ member).2.2.1
  | marked mark name =>
    rcases List.mem_cons.mp member with rfl | member
    · exact absurd proper.1 (by decide)
    · exact absurd (proper.2.2 _ member) (by decide)
  | bracketed name value => cases other

theorem takeAttribute_textOf_append {before : List Part} (proper : ∀ p ∈ before, p.Proper)
    (others : ∀ p ∈ before, p.constraint? = none) (s : Text) :
    takeAttribute (textOf before ++ s) = (takeAttribute s).map fun found => (found.1, textOf before ++ found.2) := by
  induction before with
  | nil => simp [textOf]
  | cons p before ih =>
    rw [textOf_cons, List.append_assoc, takeAttribute_of_other (proper p (by simp)) (others p (by simp)),
      ih (fun q member => proper q (by simp [member])) (fun q member => others q (by simp [member])), Option.map_map]
    simp [Function.comp_def]

/-- The first attribute is taken out. -/
theorem takeAttribute_eq_some {before after : List Part} {name : Text} {value : Option Quoting}
    (proper : ∀ p ∈ before ++ .bracketed name value :: after, p.Proper) (others : ∀ p ∈ before, p.constraint? = none) :
    takeAttribute (textOf (before ++ .bracketed name value :: after)) =
      some ((name, value.map Quoting.value), textOf (before ++ after)) := by
  rw [textOf_append, textOf_cons, takeAttribute_textOf_append (fun p member => proper p (by simp [member])) others,
    takeAttribute_bracketed (proper _ (by simp)), textOf_append]
  rfl

/-- The parts that are no attributes. -/
def withoutConstraints (ps : List Part) : List Part := ps.filter fun p => p.constraint?.isNone

/-- One more constraint, or a new value for a known one. -/
def noteConstraint (constraints : List (Text × Option Text)) (constraint : Text × Option Text) :
    List (Text × Option Text) :=
  putAttribute constraint.1 constraint.2 constraints

theorem takeAttributes_of_some {s rest : Text} {constraint : Text × Option Text}
    (taken : takeAttribute s = some (constraint, rest)) (constraints : List (Text × Option Text)) :
    takeAttributes constraints s = takeAttributes (noteConstraint constraints constraint) rest := by
  rw [takeAttributes]
  split
  · next taken' =>
    rw [taken] at taken'
    obtain ⟨rfl, rfl⟩ := Prod.mk.inj (Option.some.inj taken')
    rfl
  · next missing =>
    rw [taken] at missing
    cases missing

theorem takeAttributes_of_none {s : Text} (missing : takeAttribute s = none) (constraints : List (Text × Option Text)) :
    takeAttributes constraints s = (constraints, s) := by
  rw [takeAttributes]
  split
  · next taken =>
    rw [missing] at taken
    cases taken
  · rfl

/-- All attributes are taken out, each of them noted. -/
theorem takeAttributes_textOf (before ps : List Part) (proper : ∀ p ∈ before ++ ps, p.Proper)
    (others : ∀ p ∈ before, p.constraint? = none) (constraints : List (Text × Option Text)) :
    takeAttributes constraints (textOf (before ++ ps)) =
      ((constraintsOf ps).foldl noteConstraint constraints, textOf (before ++ withoutConstraints ps)) := by
  induction ps generalizing before constraints with
  | nil =>
    rw [List.append_nil] at proper ⊢
    have none := takeAttribute_textOf_append proper others []
    rw [List.append_nil] at none
    rw [takeAttributes_of_none none]
    simp [constraintsOf, withoutConstraints]
  | cons p ps ih =>
    by_cases other : p.constraint? = none
    · have step := ih (before ++ [p]) (by simpa using proper) (by simpa [or_imp, forall_and, other] using others)
        constraints
      simpa [constraintsOf, withoutConstraints, other] using step
    · cases p with
      | bracketed name value =>
        have some := takeAttribute_eq_some proper others
        have step := ih before (fun q member => proper q (by simp at member ⊢; tauto)) others
          (noteConstraint constraints (name, value.map Quoting.value))
        rw [takeAttributes_of_some some]
        exact step
      | _ => exact absurd rfl other

theorem lastValue_concat (constraints : List (Text × Option Text)) (constraint : Text × Option Text) (name : Text) :
    lastValue (constraints ++ [constraint]) name =
      if name = constraint.1 then constraint.2 else lastValue constraints name := by
  rw [lastValue, List.reverse_append, List.reverse_singleton, List.singleton_append, List.lookup_cons]
  by_cases same : name = constraint.1
  · simp [same]
  · simp [same, beq_false_of_ne same, lastValue]

theorem putAttribute_map {names : List Text} (distinct : names.Nodup) (f : Text → Option Text) (name : Text)
    (value : Option Text) :
    putAttribute name value (names.map fun n => (n, f n)) =
      (noteClass names name).map fun n => (n, if n = name then value else f n) := by
  induction names with
  | nil => simp [putAttribute, noteClass_eq]
  | cons n names ih =>
    obtain ⟨new, distinct⟩ := List.nodup_cons.mp distinct
    rw [List.map_cons, putAttribute]
    by_cases same : n = name
    · subst same
      have kept : ∀ m ∈ names, (m, f m) = (m, if m = n then value else f m) := by
        intro m member
        rw [if_neg]
        rintro rfl
        exact new member
      simp [noteClass_eq, List.map_congr_left kept]
    · rw [if_neg same, ih distinct]
      by_cases known : name ∈ names <;> simp [noteClass_eq, known, same, Ne.symm same]

theorem nodup_eraseDups (names : List Text) : names.eraseDups.Nodup := by
  induction names using List.reverseRecOn with
  | nil => exact List.nodup_nil
  | append_singleton names name ih =>
    rw [eraseDups_concat]
    exact nodup_noteClass ih name

/-- Noting constraints one by one keeps each name where it comes first, with its last value. -/
theorem foldl_noteConstraint (constraints : List (Text × Option Text)) :
    constraints.foldl noteConstraint [] =
      (constraints.map Prod.fst).eraseDups.map fun name => (name, lastValue constraints name) := by
  induction constraints using List.reverseRecOn with
  | nil => rfl
  | append_singleton constraints constraint ih =>
    rw [List.foldl_append, ih, List.foldl_cons, List.foldl_nil, noteConstraint, putAttribute_map (nodup_eraseDups _),
      List.map_append, List.map_singleton, eraseDups_concat]
    simp only [lastValue_concat]

theorem putAttribute_of_new {constraints : List (Text × Option Text)} {name : Text}
    (new : name ∉ constraints.map Prod.fst) (value : Option Text) :
    putAttribute name value constraints = constraints ++ [(name, value)] := by
  induction constraints with
  | nil => rfl
  | cons constraint constraints ih =>
    obtain ⟨other, new⟩ := not_or.mp (List.mem_cons.not.mp new)
    rw [putAttribute, if_neg (Ne.symm other), ih new]
    rfl

/-- Where no name is repeated, the constraints are noted as they are. -/
theorem foldl_noteConstraint_of_nodup {constraints : List (Text × Option Text)}
    (distinct : (constraints.map Prod.fst).Nodup) : constraints.foldl noteConstraint [] = constraints := by
  induction constraints using List.reverseRecOn with
  | nil => rfl
  | append_singleton constraints constraint ih =>
    rw [List.map_append, List.map_singleton, ← List.concat_eq_append, List.nodup_concat] at distinct
    rw [List.foldl_append, ih distinct.2, List.foldl_cons, List.foldl_nil, noteConstraint,
      putAttribute_of_new distinct.1]

/-! ## Tags -/

theorem trim_append {front name back : Text} (blank : ∀ c ∈ front, Text.isBlank c = true)
    (first : ∀ c ∈ name.head?, Text.isBlank c = false) (last : ∀ c ∈ name.getLast?, Text.isBlank c = false)
    (blank' : ∀ c ∈ back, Text.isBlank c = true) (nonempty : name ≠ []) :
      Text.trim (front ++ (name ++ back)) = name := by
  obtain ⟨c, name, rfl⟩ := List.exists_cons_of_ne_nil nonempty
  rw [Text.trim, Text.dropWhile_append_of_stop blank (by simpa using first),
    Text.dropWhileEnd_append_of_stop blank' last]

theorem isBlank_textOf {ps : List Part} (proper : ∀ p ∈ ps, p.Proper) (gaps : ∀ p ∈ ps, ∃ blanks, p = .gap blanks) :
    ∀ c ∈ textOf ps, Text.isBlank c = true := by
  intro c member
  obtain ⟨p, listed, inside⟩ := List.mem_flatMap.mp member
  obtain ⟨blanks, rfl⟩ := gaps p listed
  exact (proper _ listed).2 c inside

/-- What remains is the tag. -/
theorem trim_textOf {ps : List Part} (proper : ∀ p ∈ ps, p.Proper)
    (rest : ∀ p ∈ ps, (∃ blanks, p = .gap blanks) ∨ ∃ name, p = .tag name) (one : (tagsOf ps).length ≤ 1) :
    (if Text.trim (textOf ps) = [] then none else some (Text.trim (textOf ps))) = (tagsOf ps).head? := by
  have gap {p : Part} (member : p ∈ ps) (other : p.tag? = none) : ∃ blanks, p = .gap blanks := by
    rcases rest p member with found | ⟨name, rfl⟩
    · exact found
    · cases other
  cases tags : tagsOf ps with
  | nil =>
    have blank := isBlank_textOf proper fun p member => gap member (List.filterMap_eq_nil_iff.mp tags p member)
    have empty : Text.trim (textOf ps) = [] := by
      rw [Text.trim, List.dropWhile_eq_nil_iff.mpr blank]
      rfl
    rw [if_pos empty]
    rfl
  | cons name more =>
    obtain ⟨before, p, after, rfl, others, found, later⟩ := List.filterMap_eq_cons_iff.mp tags
    rw [tags, List.length_cons] at one
    obtain rfl : more = [] := List.length_eq_zero_iff.mp (by omega)
    cases p with
    | tag n =>
      obtain rfl := Option.some.inj found
      obtain ⟨nonempty, first, last, -⟩ := proper (.tag n) (by simp)
      have front := isBlank_textOf (fun p member => proper p (by simp [member])) fun p member =>
        gap (by simp [member]) (others p member)
      have back := isBlank_textOf (fun p member => proper p (by simp [member])) fun p member =>
        gap (by simp [member]) (List.filterMap_eq_nil_iff.mp later p member)
      have trimmed : Text.trim (textOf (before ++ .tag n :: after)) = n := by
        rw [textOf_append, textOf_cons]
        exact trim_append front first last back nonempty
      rw [trimmed, if_neg nonempty]
      rfl
    | _ => cases found

/-! ## Whole selectors -/

/-- The parts that remain when all names and attributes are taken out. -/
def remaining (ps : List Part) : List Part := withoutConstraints (without '.' (without '#' ps))

theorem mem_of_mem_remaining {ps : List Part} {p : Part} (member : p ∈ remaining ps) : p ∈ ps :=
  mem_of_mem_without (mem_of_mem_without (List.mem_filter.mp member).1)

theorem gap_or_tag_of_mem_remaining {ps : List Part} (proper : ∀ p ∈ ps, p.Proper) {p : Part}
    (member : p ∈ remaining ps) :
    (∃ blanks, p = .gap blanks) ∨ ∃ name, p = .tag name := by
  have spelled := proper p (mem_of_mem_remaining member)
  simp only [remaining, withoutConstraints, without, List.mem_filter] at member
  obtain ⟨⟨⟨-, noId⟩, noClass⟩, noConstraint⟩ := member
  cases p with
  | gap blanks => exact .inl ⟨blanks, rfl⟩
  | tag name => exact .inr ⟨name, rfl⟩
  | marked mark name =>
    rcases spelled.1 with rfl | rfl
    · cases noId
    · cases noClass
  | bracketed name value => cases noConstraint

theorem tagsOf_remaining (ps : List Part) : tagsOf (remaining ps) = tagsOf ps := by
  have kept : tagsOf (remaining ps) = tagsOf (without '.' (without '#' ps)) :=
    filterMap_filter_of (fun p asked => by cases p <;> first | rfl | cases asked) _
  rw [kept, tagsOf_without, tagsOf_without]

/-- A selector is read as what its parts ask for. -/
theorem parse_textOf {ps : List Part} (h : IsSelector ps) : parse (textOf ps) = ofParts ps := by
  have proper' : ∀ p ∈ without '#' ps, p.Proper := fun p member => h.proper p (mem_of_mem_without member)
  have proper'' : ∀ p ∈ without '.' (without '#' ps), p.Proper := fun p member => proper' p (mem_of_mem_without member)
  have id := takeMarked_id h
  have classes : takeClasses [] (textOf (without '#' ps)) =
      ((classesOf ps).eraseDups, textOf (without '.' (without '#' ps))) := by
    have taken := takeClasses_textOf [] (without '#' ps) proper' (by simp) (h.ended.without h.proper) []
    rwa [foldl_noteClass, classesOf_without] at taken
  have attributes : takeAttributes [] (textOf (without '.' (without '#' ps))) =
      ((ofParts ps).attributes, textOf (remaining ps)) := by
    have taken := takeAttributes_textOf [] (without '.' (without '#' ps)) proper'' (by simp) []
    rwa [foldl_noteConstraint, constraintsOf_without, constraintsOf_without] at taken
  have tag := trim_textOf (fun p member => h.proper p (mem_of_mem_remaining member))
    (fun p => gap_or_tag_of_mem_remaining h.proper) (by rw [tagsOf_remaining]; exact h.oneTag)
  rw [tagsOf_remaining] at tag
  rw [parse, id]
  cases ids : idsOf ps with
  | nil =>
    rw [without_eq_self ids] at classes attributes
    simp only [List.head?_nil, Option.map_none, classes, attributes, tag]
    simp [ofParts, ids]
  | cons id more =>
    simp only [List.head?_cons, Option.map_some, classes, attributes, tag]
    simp [ofParts, ids]

/-! ## Fragments in another order -/

theorem isMatch_congr {q q' : Query} (tag : q.tag = q'.tag) (id : q.id = q'.id)
    (classes : ∀ c, c ∈ q.classes ↔ c ∈ q'.classes)
    (attributes : ∀ a, a ∈ q.attributes ↔ a ∈ q'.attributes) (e : Element) :
    q.isMatch e = q'.isMatch e := by
  rw [Bool.eq_iff_iff, isMatch_iff, isMatch_iff, tag, id]
  simp only [classes, attributes]

theorem head?_eq_of_perm {names names' : List Text} (same : names.Perm names') (one : names.length ≤ 1) :
    names.head? = names'.head? := by
  match names, one with
  | [], _ => rw [List.nil_perm.mp same]
  | [name], _ => rw [List.singleton_perm.mp same]

/-- Two selectors with the same fragments match the same elements. -/
theorem isMatch_ofParts {ps qs : List Part} (h : IsSelector ps)
    (same : (ps.filter Part.isFragment).Perm (qs.filter Part.isFragment))
    (distinct : ((constraintsOf ps).map Prod.fst).Nodup) (e : Element) :
    (ofParts ps).isMatch e = (ofParts qs).isMatch e := by
  have alike {α : Type} {f : Part → Option α} (gap : ∀ blanks, f (.gap blanks) = none) :
      (ps.filterMap f).Perm (qs.filterMap f) := by
    have dropped (p : Part) (none : p.isFragment = false) : f p = .none := by
      cases p with
      | gap blanks => exact gap blanks
      | _ => cases none
    have shared := same.filterMap f
    rwa [filterMap_filter_of dropped, filterMap_filter_of dropped] at shared
  have constraints : (constraintsOf ps).Perm (constraintsOf qs) := alike fun _ => rfl
  have distinct' : ((constraintsOf qs).map Prod.fst).Nodup := (constraints.map Prod.fst).nodup_iff.mp distinct
  have classes : (classesOf ps).Perm (classesOf qs) := alike fun _ => rfl
  refine isMatch_congr (head?_eq_of_perm (alike fun _ => rfl) h.oneTag)
    (head?_eq_of_perm (alike fun _ => rfl) h.oneId) ?_ ?_ e
  · intro c
    rw [ofParts, ofParts, List.mem_eraseDups, List.mem_eraseDups]
    exact classes.mem_iff
  · intro a
    rw [ofParts, ofParts, ← foldl_noteConstraint, ← foldl_noteConstraint, foldl_noteConstraint_of_nodup distinct,
      foldl_noteConstraint_of_nodup distinct']
    exact constraints.mem_iff

/--
A selector is read as exactly its tag, its identifier, its classes without repetitions and its attributes, each
with the value that is written last. Where no attribute is repeated, the order of the fragments does not count.
-/
theorem parse_selector {ps : List Part} (h : IsSelector ps) :
    parse (textOf ps) = ofParts ps ∧
      ∀ qs, IsSelector qs → (ps.filter Part.isFragment).Perm (qs.filter Part.isFragment) →
        ((constraintsOf ps).map Prod.fst).Nodup →
          (∀ d, matchingPaths d (parse (textOf ps)) = matchingPaths d (parse (textOf qs))) ∧
            ∀ s, selectElements s (textOf ps) = selectElements s (textOf qs) := by
  refine ⟨parse_textOf h, ?_⟩
  intro qs h' same distinct
  have paths (d : Document) : matchingPaths d (parse (textOf ps)) = matchingPaths d (parse (textOf qs)) := by
    simp only [parse_textOf h, parse_textOf h', matchingPaths, isMatch_ofParts h same distinct]
  refine ⟨paths, fun s => ?_⟩
  simp only [selectElements, Document.select, paths]

/-- A selector with quotes that hold marks, a class that is repeated, and a tag that comes late. -/
def crowdedParts : List Part :=
  [.bracketed "data-x".toList (some (.quoted '"' "#a.b[".toList)), .tag "g rect".toList, .marked '.' "big".toList,
    .marked '#' "one".toList, .gap [' '], .bracketed "x:y".toList (some (.bare "'1".toList)), .marked '.' "big".toList,
    .bracketed "id".toList none]

/-- The same fragments in another order, with other gaps. -/
def reorderedParts : List Part :=
  [.marked '#' "one".toList, .marked '.' "big".toList, .gap ['\n', ' '], .tag "g rect".toList, .gap [' '],
    .bracketed "id".toList none, .bracketed "x:y".toList (some (.bare "'1".toList)),
    .bracketed "data-x".toList (some (.quoted '"' "#a.b[".toList)), .marked '.' "big".toList]

theorem parse_selector_crowded :
    IsSelector crowdedParts ∧ IsSelector reorderedParts ∧
      (crowdedParts.filter Part.isFragment).Perm (reorderedParts.filter Part.isFragment) ∧
      ((constraintsOf crowdedParts).map Prod.fst).Nodup ∧
      parse (textOf crowdedParts) = ofParts crowdedParts ∧
      ∀ s, selectElements s (textOf crowdedParts) = selectElements s (textOf reorderedParts) := by
  have crowded : IsSelector crowdedParts := by
    refine ⟨?_, by decide, by decide, by simp [crowdedParts, Part.CanPrecede]⟩
    simp +decide [crowdedParts, Part.Proper, Quoting.Proper, List.singleton_eq_append_iff]
  have reordered : IsSelector reorderedParts := by
    refine ⟨?_, by decide, by decide, by simp [reorderedParts, Part.CanPrecede]⟩
    simp +decide [reorderedParts, Part.Proper, Quoting.Proper, List.singleton_eq_append_iff]
  have same : (crowdedParts.filter Part.isFragment).Perm (reorderedParts.filter Part.isFragment) := by
    decide +kernel
  have distinct : ((constraintsOf crowdedParts).map Prod.fst).Nodup := by decide
  obtain ⟨read, order⟩ := parse_selector crowded
  exact ⟨crowded, reordered, same, distinct, read, (order _ reordered same distinct).2⟩

example : parse (textOf crowdedParts) = ⟨some "g rect".toList, some "one".toList, ["big".toList],
    [("data-x".toList, some "#a.b[".toList), ("x:y".toList, some "'1".toList), ("id".toList, none)]⟩ := by cbv

end Query
end SvgEdit
