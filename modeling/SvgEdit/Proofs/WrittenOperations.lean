import SvgEdit.Proofs.PlainNumbers
import SvgEdit.Request.Basic

/-!
# Operations as they are written

A request writes its operations in one order, each of them once at most. One is written if it is asked for and
all of its numbers are finite; each number is then a numeral, and their count is one that the operation takes.
-/
namespace SvgEdit

/-! ## Kinds of operations -/

inductive OperationKind
  | translate
  | rotate
  | scale
  | skewX
  | skewY
  | matrix
deriving DecidableEq, Repr

namespace OperationKind

/-- All kinds, in the order in which they are written. -/
def all : List OperationKind := [translate, rotate, scale, skewX, skewY, matrix]

def name : OperationKind → String
  | translate => "translate"
  | rotate => "rotate"
  | scale => "scale"
  | skewX => "skewX"
  | skewY => "skewY"
  | matrix => "matrix"

/-- How many numbers an operation can have. -/
def counts : OperationKind → List Nat
  | translate => [2]
  | rotate => [1, 3]
  | scale => [2]
  | skewX => [1]
  | skewY => [1]
  | matrix => [6]

theorem nodup_all : all.Nodup := by decide

theorem mem_all (kind : OperationKind) : kind ∈ all := by cases kind <;> decide

end OperationKind

/-! ## Numbers of operations -/

/-- A finite number is written as a numeral, zero without a sign. -/
theorem isNumeral_unsignedZero {x : Binary64} (finite : x.isFinite = true) : IsNumeral x.unsignedZero := by
  cases x with
  | nan => cases finite
  | infinite negative => cases finite
  | finite negative steps =>
    rw [Binary64.unsignedZero]
    split
    · exact ⟨⟨false, ['0'], [], by decide⟩, by decide⟩
    · next other => exact isNumeral_plain negative fun zero => other (decide_eq_true zero)

/-! ## What is asked for -/

namespace Request

/--
An operation that is asked for, with its numbers. Half a centre is none; without a second number, the first one
scales both directions; and a skew is asked for in each direction in which it is not zero, if the other is finite.
-/
inductive Asks (r : Request) : OperationKind → List Binary64 → Prop
  | translate {x y : Binary64} (given : r.translate = some ⟨x, y⟩) : Asks r .translate [x, y]
  | rotate {angle : Binary64} {cx cy : Option Binary64} (given : r.rotate = some ⟨angle, cx, cy⟩)
      (centreless : cx = none ∨ cy = none) : Asks r .rotate [angle]
  | rotateAround {angle cx cy : Binary64} (given : r.rotate = some ⟨angle, some cx, some cy⟩) :
      Asks r .rotate [angle, cx, cy]
  | scale {x : Binary64} {y : Option Binary64} (given : r.scale = some ⟨x, y⟩) : Asks r .scale [x, y.getD x]
  | skewX {x y : Binary64} (given : r.skew = some ⟨x, y⟩) (nonzero : x.isZero = false) (other : y.isFinite = true) :
      Asks r .skewX [x]
  | skewY {x y : Binary64} (given : r.skew = some ⟨x, y⟩) (nonzero : y.isZero = false) (other : x.isFinite = true) :
      Asks r .skewY [y]
  | matrix {numbers : List Binary64} (given : r.matrix = some numbers) (six : numbers.length = 6) :
      Asks r .matrix numbers

variable {r : Request} {kind : OperationKind} {numbers numbers' : List Binary64}

theorem Asks.length_mem (asked : r.Asks kind numbers) : numbers.length ∈ kind.counts := by
  cases asked with
  | matrix _ six => exact List.mem_singleton.mpr six
  | rotateAround => exact List.mem_cons_of_mem _ (List.mem_singleton.mpr rfl)
  | _ => exact List.mem_cons_self

/-- No operation is asked for with other numbers. -/
theorem Asks.unique (asked : r.Asks kind numbers) (asked' : r.Asks kind numbers') : numbers = numbers' := by
  cases asked <;> cases asked' <;> grind

/-- One of its operations is written. -/
def Demands (r : Request) (kind : OperationKind) : Prop :=
  ∃ numbers, r.Asks kind numbers ∧ allFinite numbers = true

/-! ## What is written -/

/-- Of the kinds in a list, those that are demanded are written as operations, in this order. -/
inductive Writes (r : Request) : List OperationKind → List Operation → Prop
  | nil : Writes r [] []
  | skip {kind : OperationKind} {kinds : List OperationKind} {ops : List Operation} (none : ¬ r.Demands kind)
      (rest : Writes r kinds ops) : Writes r (kind :: kinds) ops
  | write {kind : OperationKind} {kinds : List OperationKind} {numbers : List Binary64} {ops : List Operation}
      (asked : r.Asks kind numbers) (finite : allFinite numbers = true) (rest : Writes r kinds ops) :
      Writes r (kind :: kinds) (⟨kind.name.toList, numbers⟩ :: ops)

namespace Writes

variable {kinds kinds' : List OperationKind} {ops ops' : List Operation}

theorem append (h : r.Writes kinds ops) (h' : r.Writes kinds' ops') : r.Writes (kinds ++ kinds') (ops ++ ops') := by
  induction h with
  | nil => exact h'
  | skip none _ ih => exact .skip none ih
  | write asked finite _ ih => exact .write asked finite ih

theorem single (asked : r.Asks kind numbers) : r.Writes [kind] (Operation.ifFinite kind.name numbers) := by
  rw [Operation.ifFinite]
  split
  · next finite => exact .write asked finite .nil
  · next infinite =>
    refine .skip ?_ .nil
    rintro ⟨others, asked', finite⟩
    rw [asked.unique asked'] at infinite
    exact infinite finite

theorem none (unasked : ∀ numbers, ¬ r.Asks kind numbers) : r.Writes [kind] [] :=
  .skip (fun ⟨numbers, asked, _⟩ => unasked numbers asked) .nil

/-- The kinds that are written are those that are demanded. -/
theorem exists_kinds (h : r.Writes kinds ops) : ∃ written, written.Sublist kinds ∧
    List.Forall₂ (fun kind op => op.name = kind.name.toList ∧ r.Asks kind op.numbers ∧ allFinite op.numbers = true)
      written ops ∧ ∀ kind, kind ∈ written ↔ kind ∈ kinds ∧ r.Demands kind := by
  induction h with
  | nil => exact ⟨[], .slnil, .nil, by simp⟩
  | @skip kind _ _ none _ ih =>
    obtain ⟨written, inside, each, demanded⟩ := ih
    refine ⟨written, inside.cons kind, each, fun other => ?_⟩
    rw [demanded, List.mem_cons, or_and_right, or_iff_right]
    rintro ⟨rfl, demands⟩
    exact none demands
  | @write kind _ numbers _ asked finite _ ih =>
    obtain ⟨written, inside, each, demanded⟩ := ih
    refine ⟨kind :: written, inside.cons_cons kind, .cons ⟨rfl, asked, finite⟩ each, fun other => ?_⟩
    rw [List.mem_cons, demanded, List.mem_cons, or_and_right]
    refine or_congr_left ⟨?_, And.left⟩
    rintro rfl
    exact ⟨rfl, numbers, asked, finite⟩

end Writes

/-! ## One record after the other -/

namespace Writes

/-- Without its record, an operation is not written. -/
theorem of_record {α : Type} {record : Option α} {f : α → List Operation}
    (missing : record = .none → ∀ numbers, ¬ r.Asks kind numbers) (given : ∀ t, record = some t → r.Writes [kind] (f t)) :
    r.Writes [kind] (record.elim [] f) := by
  cases record with
  | none => exact .none (missing rfl)
  | some t => exact given t rfl

/-- A direction is skewed unless its number is zero. -/
theorem of_direction {x : Binary64} (finite : x.isFinite = true) (asked : x.isZero = false → r.Asks kind [x])
    (unasked : x.isZero = true → ∀ numbers, ¬ r.Asks kind numbers) :
    r.Writes [kind] (if x.isZero then [] else [⟨kind.name.toList, [x]⟩]) := by
  cases zero : x.isZero with
  | true => exact .none (unasked zero)
  | false => exact .write (asked zero) (by rw [allFinite, List.all_cons, finite]; rfl) .nil

end Writes

theorem writes_translate (r : Request) :
    r.Writes [.translate] (r.translate.elim [] fun t => Operation.ifFinite "translate" [t.x, t.y]) := by
  refine .of_record (fun missing numbers asked => ?_) fun t given => .single (.translate given)
  cases asked
  simp_all

theorem writes_rotate (r : Request) :
    r.Writes [.rotate] (r.rotate.elim [] fun t => Operation.ifFinite "rotate" t.numbers) := by
  refine .of_record (fun missing numbers asked => ?_) fun ⟨angle, cx, cy⟩ given => ?_
  · cases asked <;> simp_all
  · rcases cx with _ | cx
    · exact .single (.rotate given (.inl rfl))
    · rcases cy with _ | cy
      · exact .single (.rotate given (.inr rfl))
      · exact .single (.rotateAround given)

theorem writes_scale (r : Request) :
    r.Writes [.scale] (r.scale.elim [] fun t => Operation.ifFinite "scale" t.numbers) := by
  refine .of_record (fun missing numbers asked => ?_) fun t given => .single (.scale given)
  cases asked
  simp_all

theorem writes_skew (r : Request) : r.Writes [.skewX, .skewY] (r.skew.elim [] Skew.operations) := by
  cases given : r.skew with
  | none =>
    have left : r.Writes [.skewX] [] := .none fun numbers asked => by
      cases asked
      simp_all
    have right : r.Writes [.skewY] [] := .none fun numbers asked => by
      cases asked
      simp_all
    exact left.append right
  | some t =>
    obtain ⟨x, y⟩ := t
    rw [Option.elim_some, Skew.operations]
    split
    · next finite =>
      obtain ⟨finiteX, finiteY⟩ : x.isFinite = true ∧ y.isFinite = true := by simpa [allFinite] using finite
      have left : r.Writes [.skewX] (if x.isZero then [] else [⟨"skewX".toList, [x]⟩]) := by
        refine .of_direction finiteX (fun nonzero => .skewX given nonzero finiteY) fun zero numbers asked => ?_
        cases asked
        simp_all
      have right : r.Writes [.skewY] (if y.isZero then [] else [⟨"skewY".toList, [y]⟩]) := by
        refine .of_direction finiteY (fun nonzero => .skewY given nonzero finiteX) fun zero numbers asked => ?_
        cases asked
        simp_all
      exact left.append right
    · next infinite =>
      -- Each direction is asked for only with the other number finite, and it is written only with its own.
      have left : ¬ r.Demands .skewX := by
        rintro ⟨numbers, asked, finite⟩
        cases asked
        simp_all [allFinite]
      have right : ¬ r.Demands .skewY := by
        rintro ⟨numbers, asked, finite⟩
        cases asked
        simp_all [allFinite]
      exact .skip left (.skip right .nil)

theorem writes_matrix (r : Request) : r.Writes [.matrix]
    (r.matrix.elim [] fun m => if m.length = 6 then Operation.ifFinite "matrix" m else []) := by
  refine .of_record (fun missing numbers asked => ?_) fun m given => ?_
  · cases asked
    simp_all
  · split
    · next six => exact .single (.matrix given six)
    · next other =>
      refine .none fun numbers asked => ?_
      cases asked
      simp_all

/-- Every kind is written in its place, or it is not demanded. -/
theorem writes_operations (r : Request) : r.Writes OperationKind.all r.operations :=
  (((r.writes_translate.append r.writes_rotate).append r.writes_scale).append r.writes_skew).append r.writes_matrix

/-! ## Tokens -/

/-- An operation that is asked for, as it is written: numerals in parentheses, with a blank between two of them. -/
def Spells (r : Request) (kind : OperationKind) (token : Text) : Prop :=
  ∃ numbers, r.Asks kind numbers ∧ numbers.length ∈ kind.counts ∧
    (∀ x ∈ numbers, IsNumeral x.unsignedZero ∧ x.unsignedZero ≠ "-0".toList) ∧
      token = kind.name.toList ++ '(' :: (Text.joinWith [' '] (numbers.map Binary64.unsignedZero) ++ [')'])

theorem spells_text {op : Operation} (named : op.name = kind.name.toList) (asked : r.Asks kind op.numbers)
    (finite : allFinite op.numbers = true) : r.Spells kind op.text := by
  refine ⟨op.numbers, asked, asked.length_mem, fun x member => ?_, by rw [Operation.text, named]⟩
  have numeral := isNumeral_unsignedZero (List.all_eq_true.mp finite x member)
  exact ⟨numeral, numeral.ne_negativeZero⟩

/--
The tokens of a request are operations of different kinds, in the order of the kinds, each with as many numerals as
it takes and none of them a zero with a sign. An operation is among them exactly if it is asked for and all of its
numbers are finite.
-/
theorem tokens_in_order (r : Request) : ∃ kinds : List OperationKind, kinds.Sublist OperationKind.all ∧ kinds.Nodup ∧
    List.Forall₂ r.Spells kinds r.tokens ∧
      ∀ kind, kind ∈ kinds ↔ ∃ numbers, r.Asks kind numbers ∧ ∀ x ∈ numbers, x.isFinite = true := by
  obtain ⟨kinds, inside, each, demanded⟩ := r.writes_operations.exists_kinds
  refine ⟨kinds, inside, OperationKind.nodup_all.sublist inside, ?_, fun kind => ?_⟩
  · refine List.forall₂_map_right_iff.mpr (each.imp ?_)
    rintro kind op ⟨named, asked, finite⟩
    exact spells_text named asked finite
  · rw [demanded, and_iff_right kind.mem_all]
    simp only [Demands, allFinite, List.all_eq_true]

/-- A zero has no sign, half a centre does not count, and nothing is moved by what is no number. -/
example : tokens
    { translate := some ⟨.nan, .zero⟩
      rotate := some ⟨.finite true 0, some .nan, none⟩
      skew := some ⟨.zero, .ofRatio true 3 2⟩ } = ["rotate(0)".toList, "skewY(-1.5)".toList] := by
  decide +kernel

end Request
end SvgEdit
