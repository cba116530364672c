import SvgEdit.Proofs.Escape
import SvgEdit.Proofs.Pieces

/-!
# Attributes of a tag

`Splits` says how attributes stand in a text: blanks, a key, an equals sign, and a value between
marks of one kind, no key twice. Splitting succeeds exactly on such texts, and the scan for marks
finds the marks around the values as long as no key begins with an equals sign.
-/
namespace SvgEdit

/-- Nothing but blanks of markup. -/
def Spaces (s : Text) : Prop := ∀ c ∈ s, isSpace c = true

instance (s : Text) : Decidable (Spaces s) := inferInstanceAs (Decidable (∀ c ∈ s, _))

theorem spaces_takeWhile (s : Text) : Spaces (s.takeWhile isSpace) := fun _ member => List.mem_takeWhile_imp member

/-! ## One attribute -/

/-- The text after the first character of a key: the rest of the key, the value, and what follows. -/
structure Assigns (s key raw : Text) (quote : QuoteMark) (rest : Text) : Prop where
  whole : ∃ between after, s = key ++ between ++ '=' :: (after ++ quote.char :: (raw ++ quote.char :: rest)) ∧
    Spaces between ∧ Spaces after
  key : ∀ c ∈ key, endsKey c = false
  closed : quote.char ∉ raw

theorem QuoteMark.ofChar?_char (quote : QuoteMark) : QuoteMark.ofChar? quote.char = some quote :=
  QuoteMark.ofChar?_eq_some_iff.mpr rfl

theorem isSpace_char (quote : QuoteMark) : isSpace quote.char = false := by cases quote <;> rfl

theorem Assigns.readAttribute {s key raw rest : Text} {quote : QuoteMark} (h : Assigns s key raw quote rest)
    (seen : KeyPositions) (start : Nat) (first : Char) (new : seen.lookup (first :: key) = none) :
    readAttribute seen start first s = .ok (⟨first :: key, raw, quote⟩, rest) := by
  obtain ⟨⟨between, after, rfl, blank, blank'⟩, inKey, closed⟩ := h
  have keyChars : ∀ c ∈ key, (!endsKey c) = true := fun c member => by rw [inKey c member]; rfl
  have keyStops : ∀ c ∈ (between ++ '=' :: (after ++ quote.char :: (raw ++ quote.char :: rest))).head?,
      (!endsKey c) = false := by
    intro c head
    cases between with
    | nil =>
      obtain rfl := Option.some.inj head
      rfl
    | cons d between =>
      obtain rfl := Option.some.inj head
      simp [endsKey, blank d List.mem_cons_self]
  have rawChars : ∀ c ∈ raw, decide (c ≠ quote.char) = true := fun c member =>
    decide_eq_true fun same => closed (same ▸ member)
  have rawStops : ∀ c ∈ (quote.char :: rest).head?, decide (c ≠ quote.char) = false := by simp
  unfold SvgEdit.readAttribute
  simp only [List.append_assoc, Text.takeWhile_append_of_stop keyChars keyStops,
    Text.dropWhile_append_of_stop keyChars keyStops]
  rw [Text.dropWhile_append_of_stop blank (by simp [isSpace])]
  simp only [new]
  rw [Text.dropWhile_append_of_stop blank' (by simp [isSpace_char])]
  simp only [QuoteMark.ofChar?_char, Text.dropWhile_append_of_stop rawChars rawStops,
    Text.takeWhile_append_of_stop rawChars rawStops]

theorem assigns_of_readAttribute {seen : KeyPositions} {start : Nat} {first : Char} {s rest : Text}
    {a : WrittenAttribute} (h : readAttribute seen start first s = .ok (a, rest)) :
    ∃ key raw quote, a = ⟨first :: key, raw, quote⟩ ∧ seen.lookup (first :: key) = none ∧
      Assigns s key raw quote rest := by
  unfold readAttribute at h
  dsimp only at h
  split at h
  · next s' afterKey =>
    split at h
    · contradiction
    · next new =>
      split at h
      · contradiction
      · next c body afterEquals =>
        split at h
        · contradiction
        · next quote mark =>
          split at h
          · contradiction
          · next close rest closed =>
            obtain ⟨rfl, rfl⟩ := Prod.mk.inj (Except.ok.inj h)
            obtain rfl := QuoteMark.ofChar?_eq_some_iff.mp mark
            have same : close = quote.char := by
              have stops := Text.stops_dropWhile (· ≠ quote.char) body close (by rw [closed]; rfl)
              simpa using stops
            subst same
            refine ⟨_, _, _, rfl, new, ?_, fun c member => ?_, fun member => ?_⟩
            · refine ⟨_, _, ?_, spaces_takeWhile (s.dropWhile (!endsKey ·)), spaces_takeWhile s'⟩
              rw [← closed, List.takeWhile_append_dropWhile, ← afterEquals, List.takeWhile_append_dropWhile,
                ← afterKey, List.append_assoc, List.takeWhile_append_dropWhile, List.takeWhile_append_dropWhile]
            · simpa using List.mem_takeWhile_imp member
            · simpa using List.mem_takeWhile_imp member
  · contradiction

/-! ## All attributes -/

/-- The attributes as they stand in a text, no key among those seen before. -/
inductive Splits : (seen : List Text) → Text → List WrittenAttribute → Prop
  | done {seen : List Text} {s : Text} (blank : Spaces s) : Splits seen s []
  | assign {seen : List Text} {before s key raw rest : Text} {first : Char} {quote : QuoteMark}
      {as : List WrittenAttribute} (blank : Spaces before) (begins : isSpace first = false)
      (new : first :: key ∉ seen) (assigns : Assigns s key raw quote rest)
      (later : Splits (seen ++ [first :: key]) rest as) :
      Splits seen (before ++ first :: s) (⟨first :: key, raw, quote⟩ :: as)

/-- Splitting without the proof that it ends. -/
theorem splitAttributesFrom_eq (seen : KeyPositions) (start : Nat) (s : Text) :
    splitAttributesFrom seen start s =
      match s.dropWhile isSpace with
      | [] => ([], none)
      | first :: rest =>
        let position := start + Text.size s - Text.size (first :: rest)
        match readAttribute seen position first rest with
        | .error fault => ([], some fault)
        | .ok (a, rest') =>
          let later := splitAttributesFrom (seen ++ [(a.key, position)]) (start + Text.size s - Text.size rest') rest'
          (a :: later.1, later.2) := by
  rw [splitAttributesFrom]
  split
  · next blanks => simp only [blanks]
  · next first rest blanks =>
    dsimp only
    split
    · next read => simp only [blanks, read]
    · next read => simp only [blanks, read]

theorem splits_of_splitAttributesFrom {seen : KeyPositions} {start : Nat} {s : Text} {as : List WrittenAttribute}
    (h : splitAttributesFrom seen start s = (as, none)) : Splits (seen.map Prod.fst) s as := by
  induction n : s.length using Nat.strong_induction_on generalizing seen start s as with
  | _ n ih =>
    rw [splitAttributesFrom_eq] at h
    split at h
    · next blanks =>
      obtain ⟨rfl, -⟩ := Prod.mk.inj h
      exact .done fun c member => List.dropWhile_eq_nil_iff.mp blanks c member
    · next first rest blanks =>
      dsimp only at h
      split at h
      · cases h
      · next a rest' read =>
        generalize split : splitAttributesFrom (seen ++ [(a.key, _)]) _ rest' = result at h
        obtain ⟨as, fault⟩ := result
        obtain ⟨rfl, rfl⟩ := Prod.mk.inj h
        have whole : s = s.takeWhile isSpace ++ first :: rest := by
          rw [← blanks, List.takeWhile_append_dropWhile]
        have shorter := length_of_readAttribute read
        have long := congrArg List.length whole
        rw [List.length_append] at long
        obtain ⟨key, raw, quote, rfl, new, assigns⟩ := assigns_of_readAttribute read
        have later := ih rest'.length (by omega) split rfl
        rw [List.map_append] at later
        rw [whole]
        refine .assign (spaces_takeWhile s) ?_ ?_ assigns later
        · exact Text.stops_dropWhile isSpace s first (by rw [blanks]; rfl)
        · rintro member
          obtain ⟨⟨k, i⟩, listed, same⟩ := List.mem_map.mp member
          have ne := List.lookup_eq_none_iff.mp new _ listed
          rw [← show k = first :: key from same] at ne
          simp at ne

theorem Splits.splitAttributesFrom {seen : KeyPositions} {s : Text} {as : List WrittenAttribute}
    (h : Splits (seen.map Prod.fst) s as) (start : Nat) : splitAttributesFrom seen start s = (as, none) := by
  generalize same : seen.map Prod.fst = keys at h
  induction h generalizing seen start with
  | done blank =>
    rw [splitAttributesFrom_eq, List.dropWhile_eq_nil_iff.mpr blank]
  | @assign _ before s key raw rest first quote as blank begins new assigns later ih =>
    subst same
    have absent (seen : KeyPositions) (new : first :: key ∉ seen.map Prod.fst) : seen.lookup (first :: key) = none := by
      rw [List.lookup_eq_none_iff]
      rintro ⟨k, i⟩ listed
      rw [bne_iff_ne]
      rintro rfl
      exact new (List.mem_map_of_mem (f := Prod.fst) listed)
    rw [splitAttributesFrom_eq, Text.dropWhile_append_of_stop blank (by simpa using begins)]
    dsimp only
    rw [assigns.readAttribute seen _ first (absent seen new)]
    dsimp only
    rw [ih _ (by rw [List.map_append]; rfl)]

theorem splitAttributesFrom_eq_iff {seen : KeyPositions} {start : Nat} {s : Text} {as : List WrittenAttribute} :
    splitAttributesFrom seen start s = (as, none) ↔ Splits (seen.map Prod.fst) s as :=
  ⟨splits_of_splitAttributesFrom, fun h => h.splitAttributesFrom start⟩

/-! ## Marks -/

/-- The scan for marks without the proof that it ends. -/
theorem quoteMarks_eq (s : Text) :
    quoteMarks s =
      match s.dropWhile (· ≠ '=') with
      | [] => []
      | _ :: rest =>
        match rest.dropWhile isAsciiBlank with
        | [] => []
        | c :: body =>
          match QuoteMark.ofChar? c with
          | none => []
          | some quote =>
            match body.dropWhile (· ≠ c) with
            | [] => []
            | _ :: rest' => quote :: quoteMarks rest' := by
  rw [quoteMarks]
  split
  · next equals => simp only [equals]
  · next equals =>
    split
    · next opening => simp only [equals, opening]
    · next opening =>
      split
      · next mark => simp only [equals, opening, mark]
      · next mark =>
        split
        · next closing => simp only [equals, opening, mark, closing]
        · next closing => simp only [equals, opening, mark, closing]

theorem quoteMarks_of_no_equals {s : Text} (none : '=' ∉ s) : quoteMarks s = [] := by
  have empty : s.dropWhile (· ≠ '=') = [] := by
    rw [List.dropWhile_eq_nil_iff]
    exact fun c member => decide_eq_true fun same => none (same ▸ member)
  rw [quoteMarks_eq]
  simp only [empty]

/-- The scan finds the mark after the first equals sign and goes on after the value. -/
theorem quoteMarks_of_value {front after raw rest : Text} {quote : QuoteMark} (none : '=' ∉ front)
    (blank : Spaces after) (closed : quote.char ∉ raw) :
    quoteMarks (front ++ '=' :: (after ++ quote.char :: (raw ++ quote.char :: rest))) = quote :: quoteMarks rest := by
  have frontChars : ∀ c ∈ front, decide (c ≠ '=') = true := fun c member =>
    decide_eq_true fun same => none (same ▸ member)
  have blanks : ∀ c ∈ after, isAsciiBlank c = true := fun c member => by
    rw [isAsciiBlank, blank c member]
    rfl
  have opens : ∀ c ∈ (quote.char :: (raw ++ quote.char :: rest)).head?, isAsciiBlank c = false := by
    intro c head
    obtain rfl := Option.some.inj head
    cases quote <;> rfl
  have rawChars : ∀ c ∈ raw, decide (c ≠ quote.char) = true := fun c member =>
    decide_eq_true fun same => closed (same ▸ member)
  rw [quoteMarks_eq, Text.dropWhile_append_of_stop frontChars (by simp)]
  dsimp only
  rw [Text.dropWhile_append_of_stop blanks opens]
  simp only [QuoteMark.ofChar?_char, Text.dropWhile_append_of_stop rawChars
    (show ∀ c ∈ (quote.char :: rest).head?, decide (c ≠ quote.char) = false by simp)]

theorem Assigns.quoteMarks {s key raw rest : Text} {quote : QuoteMark} (h : Assigns s key raw quote rest)
    {front : Text} (none : '=' ∉ front) : quoteMarks (front ++ s) = quote :: quoteMarks rest := by
  obtain ⟨⟨between, after, rfl, blank, blank'⟩, inKey, closed⟩ := h
  rw [← List.append_assoc, ← List.append_assoc]
  refine quoteMarks_of_value ?_ blank' closed
  rw [List.append_assoc, List.mem_append, List.mem_append]
  rintro (member | member | member)
  · exact none member
  · exact absurd (inKey _ member) (by decide)
  · exact absurd (blank _ member) (by decide)

/-- The marks that the scan finds are those around the values, if no key begins with an equals sign. -/
theorem Splits.quoteMarks {seen : List Text} {s : Text} {as : List WrittenAttribute} (h : Splits seen s as)
    (clear : ∀ a ∈ as, a.key.head? ≠ some '=') : quoteMarks s = as.map (·.spelling.quote) := by
  induction h with
  | done blank => exact quoteMarks_of_no_equals fun member => absurd (blank _ member) (by decide)
  | @assign _ before s key raw rest first quote as blank begins new assigns later ih =>
    have none : '=' ∉ before ++ [first] := by
      rw [List.mem_append, List.mem_singleton]
      rintro (member | same)
      · exact absurd (blank _ member) (by decide)
      · exact clear _ List.mem_cons_self (congrArg some same.symm)
    rw [List.append_cons, assigns.quoteMarks none, ih fun a member => clear a (List.mem_cons_of_mem _ member)]
    rfl

/-! ## Attributes with their values -/

/-- The attribute has the value and the spelling with which it is written. -/
structure Spells (w : WrittenAttribute) (a : Attribute) : Prop where
  name : a.name = w.key
  spelling : a.spelling = some w.spelling
  value : unescape w.spelling.raw = .ok a.value

theorem unescapeAll_cons_eq_ok_iff {w : WrittenAttribute} {written : List WrittenAttribute} {marks : List QuoteMark}
    {as : Attributes} :
    unescapeAll (w :: written) marks = .ok as ↔
      ∃ value rest, unescape w.spelling.raw = .ok value ∧ unescapeAll written marks.tail = .ok rest ∧
        as = ⟨w.key, value, some ⟨w.spelling.raw, marks.headD .double⟩⟩ :: rest := by
  rw [unescapeAll]
  cases unescape w.spelling.raw with
  | error fault => simp
  | ok value =>
    cases unescapeAll written marks.tail with
    | error fault => simp [Except.map]
    | ok rest => simp [Except.map, eq_comm]

theorem names_of_unescapeAll {written : List WrittenAttribute} {marks : List QuoteMark} {as : Attributes}
    (h : unescapeAll written marks = .ok as) : as.map (·.name) = written.map (·.key) := by
  induction written generalizing marks as with
  | nil =>
    obtain rfl := Except.ok.inj h
    rfl
  | cons w written ih =>
    obtain ⟨value, rest, -, later, rfl⟩ := unescapeAll_cons_eq_ok_iff.mp h
    rw [List.map_cons, ih later, List.map_cons]

theorem unescapeAll_eq_ok_iff {written : List WrittenAttribute} {as : Attributes} :
    unescapeAll written (written.map (·.spelling.quote)) = .ok as ↔ List.Forall₂ Spells written as := by
  induction written generalizing as with
  | nil => simp [unescapeAll, eq_comm, List.forall₂_nil_left_iff]
  | cons w written ih =>
    rw [unescapeAll_cons_eq_ok_iff, List.map_cons, List.tail_cons, List.headD_cons, List.forall₂_cons_left_iff]
    constructor
    · rintro ⟨value, rest, read, later, rfl⟩
      exact ⟨_, rest, ⟨rfl, rfl, read⟩, ih.mp later, rfl⟩
    · rintro ⟨⟨name, value, spelling⟩, rest, ⟨named, spelled, read⟩, later, rfl⟩
      dsimp only at named spelled read
      subst named spelled
      exact ⟨value, rest, read, ih.mpr later, rfl⟩

/-- What reading the attributes of a tag comes to. -/
theorem readAttributes_eq_ok_iff {inside : Text} {as : Attributes} :
    readAttributes inside = .ok as ↔ ∃ written, Splits [] (tagAttributes inside) written ∧
      unescapeAll written (quoteMarks (tagAttributes inside)) = .ok as := by
  rw [readAttributes, splitAttributes]
  cases split : splitAttributesFrom [] (Text.size (tagName inside)) (tagAttributes inside) with
  | mk written fault =>
    dsimp only
    constructor
    · intro h
      cases values : unescapeAll written (quoteMarks (tagAttributes inside)) with
      | error bad =>
        rw [values] at h
        cases h
      | ok values =>
        rw [values] at h
        cases fault with
        | some fault => cases h
        | none =>
          obtain rfl := Except.ok.inj h
          exact ⟨written, splitAttributesFrom_eq_iff.mp split, by assumption⟩
    · rintro ⟨written', splits, values⟩
      obtain ⟨rfl, rfl⟩ := Prod.mk.inj (split.symm.trans (@Splits.splitAttributesFrom [] _ _ splits _))
      rw [values]

/-- The attributes that are read are the ones that are written, if no name begins with an equals sign. -/
theorem readAttributes_eq_ok_iff_spells {inside : Text} {as : Attributes}
    (clear : ∀ a ∈ as, a.name.head? ≠ some '=') :
    readAttributes inside = .ok as ↔
      ∃ written, Splits [] (tagAttributes inside) written ∧ List.Forall₂ Spells written as := by
  rw [readAttributes_eq_ok_iff]
  refine exists_congr fun written => and_congr_right fun splits => ?_
  have transfer (names : as.map (·.name) = written.map (·.key)) : ∀ w ∈ written, w.key.head? ≠ some '=' := by
    intro w member
    have named := List.mem_map_of_mem (f := (·.key)) member
    rw [← names] at named
    obtain ⟨a, listed, same⟩ := List.mem_map.mp named
    exact same ▸ clear a listed
  constructor
  · intro values
    rwa [splits.quoteMarks (transfer (names_of_unescapeAll values)), unescapeAll_eq_ok_iff] at values
  · intro spells
    have values := unescapeAll_eq_ok_iff.mpr spells
    rwa [splits.quoteMarks (transfer (names_of_unescapeAll values))]

end SvgEdit
