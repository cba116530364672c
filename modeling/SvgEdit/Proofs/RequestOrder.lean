import SvgEdit.Proofs.Application
import SvgEdit.Proofs.References

/-!
# Requests whose members come in another order

What a request does is decided by the values under the names that have a meaning, each taken by itself.
Neither the order of the members, nor that of the members inside of a value, nor members under other
names make a difference.
-/
namespace SvgEdit
namespace Json

/-! ## Members by name -/

namespace Members

/-- The value of the first member under a name. -/
def value? (name : Text) : Members → Option Tree
  | closed => none
  | broken _ => none
  | member (.ok key) value next => if key = name then some value else next.value? name
  | member (.error _) _ next => next.value? name

/-- The names of members, in order. -/
def keys : Members → List Text
  | closed => []
  | broken _ => []
  | member (.ok key) _ next => key :: next.keys
  | member (.error _) _ next => next.keys

/-- The members of an object that is not broken off. -/
def ofList (entries : List (Text × Tree)) : Members :=
  entries.foldr (fun entry next => .member (.ok entry.1) entry.2 next) .closed

theorem value?_eq_none_iff (name : Text) : ∀ ms : Members, ms.value? name = none ↔ name ∉ ms.keys
  | closed => by simp [value?, keys]
  | broken _ => by simp [value?, keys]
  | member (.ok key) value next => by
    by_cases same : key = name
    · simp [value?, keys, same]
    · simp [value?, keys, same, Ne.symm same, value?_eq_none_iff name next]
  | member (.error _) _ next => by simpa [value?, keys] using value?_eq_none_iff name next

theorem value?_ofList (name : Text) (entries : List (Text × Tree)) : (ofList entries).value? name = entries.lookup name := by
  induction entries with
  | nil => rfl
  | cons entry entries ih =>
    rw [ofList, List.foldr_cons, ← ofList, value?, ih, List.lookup_cons]
    by_cases same : entry.1 = name
    · simp [same]
    · simp [same, beq_false_of_ne (Ne.symm same)]

end Members

/-- The members of the object that a text is. -/
def membersOf (s : Text) : Members :=
  match (Tree.ofText s).1 with
  | .object members => members
  | _ => .closed

/-! ## The same values -/

/-- One value is the other with the members of its objects in another order. -/
inductive Tree.Same : Tree → Tree → Prop
  | refl (tree : Tree) : Same tree tree
  | object {ms ns : Members} (members : ∀ name, Option.Rel Same (ms.value? name) (ns.value? name)) :
      Same (.object ms) (.object ns)

theorem lookup_of_perm {entries entries' : List (Text × Tree)} (perm : entries.Perm entries')
    (distinct : (entries.map Prod.fst).Nodup) (name : Text) : entries.lookup name = entries'.lookup name := by
  induction perm with
  | nil => rfl
  | cons entry _ ih =>
    rw [List.lookup_cons, List.lookup_cons, ih (List.nodup_cons.mp distinct).2]
  | swap first second entries =>
    have ne : second.1 ≠ first.1 := fun same => (List.nodup_cons.mp distinct).1 (by simp [same])
    rw [List.lookup_cons, List.lookup_cons, List.lookup_cons, List.lookup_cons]
    cases here : name == first.1 with
    | false => rfl
    | true =>
      have other : (name == second.1) = false := eq_of_beq here ▸ beq_false_of_ne ne.symm
      rw [other]
  | trans first _ ih ih' => exact (ih distinct).trans (ih' ((first.map Prod.fst).nodup_iff.mp distinct))

/-- Members under distinct names may change places. -/
theorem Tree.same_of_perm {entries entries' : List (Text × Tree)} (perm : entries.Perm entries')
    (distinct : (entries.map Prod.fst).Nodup) : Same (.object (.ofList entries)) (.object (.ofList entries')) := by
  refine .object fun name => ?_
  rw [Members.value?_ofList, Members.value?_ofList, lookup_of_perm perm distinct]
  cases entries'.lookup name with
  | none => exact .none
  | some value => exact .some (.refl value)

/-! ## Readers -/

/-- What a reader gives for two values that are the same is equal, if it gives something for both. -/
structure Respects {α : Type} (reader : Tree → Except Fault α) : Prop where
  eq : ∀ {v w : Tree}, v.Same w → ∀ {a b : α}, reader v = .ok a → reader w = .ok b → a = b

theorem Respects.map {α β : Type} {reader : Tree → Except Fault α} (h : Respects reader) (f : α → β) :
    Respects fun tree => (reader tree).map f := by
  refine ⟨fun {v w} same {a b} left right => ?_⟩
  obtain ⟨x, read, rfl⟩ := map_eq_ok_iff.mp left
  obtain ⟨y, read', rfl⟩ := map_eq_ok_iff.mp right
  rw [h.eq same read read']

/-- Where values are the same or there are none, so is what was read of them. -/
theorem Respects.option_eq {α : Type} {reader : Tree → Except Fault α} (h : Respects reader) {v w : Option Tree} {x y : Option α}
    (same : Option.Rel Tree.Same v w) (left : Option.Rel (fun v x => reader v = .ok x) v x)
    (right : Option.Rel (fun w y => reader w = .ok y) w y) : x = y := by
  cases same with
  | none =>
    cases left
    cases right
    rfl
  | some same =>
    cases left with
    | some left =>
      cases right with
      | some right => rw [h.eq same left right]

/-- A reader that takes no objects respects all values. -/
theorem respects_of_object {α : Type} {reader : Tree → Except Fault α} (refuses : ∀ ms a, reader (.object ms) ≠ .ok a) :
    Respects reader := by
  refine ⟨fun {v w} same {a b} left right => ?_⟩
  cases same with
  | refl => exact Except.ok.inj (left.symm.trans right)
  | object => exact absurd left (refuses _ a)

theorem respects_readField (field : NumberField) : Respects field.read := by
  refine respects_of_object fun ms x read => ?_
  cases kind : field.optional <;> simp [NumberField.read, kind, Tree.readNumber, Except.map] at read

namespace NumberRecord

/-- A member is passed over, or its number is kept as that of a field that was not met before. -/
theorem readMembers_member {r : NumberRecord} {seen result : Seen} {key : Except JsonBreak Text} {value : Tree} {next : Members}
    (read : r.readMembers seen (.member key value next) = .ok result) : ∃ name, key = .ok name ∧
      (r.fields.find? (·.name = name) = none ∧ r.readMembers seen next = .ok result ∨
        ∃ field number, r.fields.find? (·.name = name) = some field ∧ seen.lookup name = none ∧
          field.read value = .ok number ∧ r.readMembers (seen ++ [(name, number)]) next = .ok result) := by
  cases key with
  | error fault => cases read
  | ok name =>
    refine ⟨name, rfl, ?_⟩
    simp only [readMembers, Except.mapError, bind, Except.bind] at read
    split at read
    · next unknown =>
      cases skipped : value.skip with
      | error fault =>
        rw [skipped] at read
        cases read
      | ok =>
        rw [skipped] at read
        exact .inl ⟨unknown, read⟩
    · next field known =>
      by_cases again : (seen.lookup name).isSome = true
      · rw [if_pos again] at read
        cases read
      · rw [if_neg again] at read
        cases number : field.read value with
        | error fault =>
          rw [number] at read
          cases read
        | ok x =>
          rw [number] at read
          exact .inr ⟨field, x, known, Option.not_isSome_iff_eq_none.mp again, number, read⟩

/-- A field that was met keeps its number, and any other one gets the number of the member under its name. -/
theorem lookup_readMembers {r : NumberRecord} {name : Text} {field : NumberField}
    (known : r.fields.find? (·.name = name) = some field) :
    ∀ (ms : Members) {seen result : Seen}, r.readMembers seen ms = .ok result →
      (∀ x, seen.lookup name = some x → result.lookup name = some x) ∧
        (seen.lookup name = none → Option.Rel (fun v x => field.read v = .ok x) (ms.value? name) (result.lookup name))
  | .closed, seen, result, read => by
    obtain rfl := Except.ok.inj read
    exact ⟨fun _ met => met, fun new => new ▸ .none⟩
  | .broken _, seen, result, read => nomatch read
  | .member key value next, seen, result, read => by
    obtain ⟨key, rfl, ⟨unknown, later⟩ | ⟨other, number, found, new, here, later⟩⟩ := readMembers_member read
    · have ne : key ≠ name := by
        rintro rfl
        rw [known] at unknown
        cases unknown
      rw [Members.value?, if_neg ne]
      exact lookup_readMembers known next later
    · obtain ⟨kept, added⟩ := lookup_readMembers known next later
      by_cases same : key = name
      · subst same
        obtain rfl := Option.some.inj (known.symm.trans found)
        refine ⟨fun x met => (nomatch new.symm.trans met), fun _ => ?_⟩
        rw [Members.value?, if_pos rfl, kept number (by simp [List.lookup_append, new])]
        exact .some here
      · have aside : (seen ++ [(key, number)]).lookup name = seen.lookup name := by
          simp [List.lookup_append, List.lookup_cons, beq_false_of_ne (Ne.symm same)]
        rw [aside] at kept added
        rw [Members.value?, if_neg same]
        exact ⟨kept, added⟩

theorem respects_read (r : NumberRecord) (depth : Nat) : Respects (r.read depth) := by
  refine ⟨fun {v w} same {a b} left right => ?_⟩
  cases same with
  | refl => exact Except.ok.inj (left.symm.trans right)
  | @object ms ns members =>
    simp only [read] at left right
    by_cases deep : depth < maxDepth
    · rw [if_pos deep] at left right
      obtain ⟨seen, met, rfl⟩ := map_eq_ok_iff.mp left
      obtain ⟨seen', met', rfl⟩ := map_eq_ok_iff.mp right
      refine List.map_congr_left fun field listed => congrArg Option.join ?_
      obtain ⟨first, known⟩ : ∃ first, r.fields.find? (·.name = field.name) = some first :=
        Option.isSome_iff_exists.mp (List.find?_isSome.mpr ⟨field, listed, by simp⟩)
      exact (respects_readField first).option_eq (members field.name) ((lookup_readMembers known ms met).2 rfl)
        ((lookup_readMembers known ns met').2 rfl)
    · rw [if_neg deep] at left
      cases left

end NumberRecord
end Json

namespace Request

open Json (Tree Members Fault Respects)

/-! ## Operations -/

/-- The operations that a request has under a key. -/
def operationsUnder (r : Request) : OperationKey → List Operation
  | .translate => r.translate.elim [] fun t => Operation.ifFinite "translate" [t.x, t.y]
  | .rotate => r.rotate.elim [] fun t => Operation.ifFinite "rotate" t.numbers
  | .scale => r.scale.elim [] fun t => Operation.ifFinite "scale" t.numbers
  | .skew => r.skew.elim [] Skew.operations
  | .matrix => r.matrix.elim [] fun m => if m.length = 6 then Operation.ifFinite "matrix" m else []

theorem operations_eq (r : Request) : r.operations = OperationKey.all.flatMap r.operationsUnder := by
  simp [operations, operationsUnder, OperationKey.all]

/-- The operations that a value stands for under a key. -/
def readOperations (key : OperationKey) (tree : Tree) : Except Fault (List Operation) :=
  (withOperation {} key tree).map (·.operationsUnder key)

theorem respects_readOptional {α : Type} {reader : Tree → Except Fault α} (h : Respects reader) :
    Respects (readOptional reader) := by
  refine ⟨fun {v w} same {a b} left right => ?_⟩
  cases same with
  | refl => exact Except.ok.inj (left.symm.trans right)
  | object members =>
    obtain ⟨x, read, rfl⟩ := map_eq_ok_iff.mp left
    obtain ⟨y, read', rfl⟩ := map_eq_ok_iff.mp right
    rw [h.eq (.object members) read read']

theorem respects_readOperations (key : OperationKey) : Respects (readOperations key) := by
  have record (r : Json.NumberRecord) := r.respects_read 1
  cases key with
  | translate => exact ((respects_readOptional ((record translateRecord).map _)).map _).map _
  | rotate => exact ((respects_readOptional ((record rotateRecord).map _)).map _).map _
  | scale => exact ((respects_readOptional ((record scaleRecord).map _)).map _).map _
  | skew => exact ((respects_readOptional ((record skewRecord).map _)).map _).map _
  | matrix =>
    have refuses : ∀ ms m, readMatrix (.object ms) ≠ .ok m := fun _ _ read => nomatch read
    exact ((respects_readOptional (Json.respects_of_object refuses)).map _).map _

/-- Reading the value of an operation sets what is under its key, and nothing else. -/
theorem operationsUnder_withOperation {r r' : Request} {key : OperationKey} {tree : Tree}
    (read : r.withOperation key tree = .ok r') : readOperations key tree = .ok (r'.operationsUnder key) ∧
      r'.overrides = r.overrides ∧ ∀ other, other ≠ key → r'.operationsUnder other = r.operationsUnder other := by
  cases key
  all_goals
    obtain ⟨value, inner, rfl⟩ := map_eq_ok_iff.mp read
    refine ⟨by rw [readOperations, withOperation, inner]; rfl, rfl, fun other ne => ?_⟩
    cases other <;> first | rfl | exact absurd rfl ne

/-! ## Members -/

/-- A member is that of an operation that was not met before, or its value is kept. -/
theorem addMembers_member {r r' : Request} {seen : List OperationKey} {key : Except JsonBreak Text} {value : Tree}
    {next : Members} (added : r.addMembers seen (.member key value next) = .ok r') : ∃ name, key = .ok name ∧
      ((∃ operation read, OperationKey.ofText? name = some operation ∧ operation ∉ seen ∧
          r.withOperation operation value = .ok read ∧ read.addMembers (operation :: seen) next = .ok r') ∨
        ∃ json, OperationKey.ofText? name = none ∧ value.capture 1 = .ok json ∧
          (r.withOverride name json).addMembers seen next = .ok r') := by
  cases key with
  | error fault => cases added
  | ok name =>
    refine ⟨name, rfl, ?_⟩
    simp only [addMembers, Except.mapError, bind, Except.bind] at added
    split at added
    · next operation known =>
      by_cases again : operation ∈ seen
      · rw [if_pos again] at added
        cases added
      · rw [if_neg again] at added
        cases read : r.withOperation operation value with
        | error fault =>
          rw [read] at added
          cases added
        | ok more =>
          rw [read] at added
          exact .inl ⟨operation, more, known, again, read, added⟩
    · next unknown =>
      cases captured : value.capture 1 with
      | error fault =>
        rw [captured] at added
        cases added
      | ok json =>
        rw [captured] at added
        exact .inr ⟨json, unknown, rfl, added⟩

theorem OperationKey.ofText?_eq_some_iff {name : Text} {key : OperationKey} :
    OperationKey.ofText? name = some key ↔ name = key.name.toList := by
  constructor
  · intro known
    have named := List.find?_some known
    exact (of_decide_eq_true named).symm
  · rintro rfl
    cases key <;> decide

/-- What is under a key comes from the member with its name, if there is one and the key was not met before. -/
theorem operationsUnder_addMembers (key : OperationKey) : ∀ (ms : Members) {r r' : Request} {seen : List OperationKey},
    r.addMembers seen ms = .ok r' → (key ∈ seen → r'.operationsUnder key = r.operationsUnder key) ∧
      (key ∉ seen → ∃ read, Option.Rel (fun v x => readOperations key v = .ok x) (ms.value? key.name.toList) read ∧
        r'.operationsUnder key = read.getD (r.operationsUnder key))
  | .closed, r, r', seen, added => by
    obtain rfl := Except.ok.inj added
    exact ⟨fun _ => rfl, fun _ => ⟨none, .none, rfl⟩⟩
  | .broken _, r, r', seen, added => nomatch added
  | .member key' value next, r, r', seen, added => by
    obtain ⟨name, rfl, ⟨operation, more, known, new, read, later⟩ | ⟨json, unknown, -, later⟩⟩ := addMembers_member added
    · obtain ⟨here, -, elsewhere⟩ := operationsUnder_withOperation read
      obtain ⟨kept, set⟩ := operationsUnder_addMembers key next later
      have named := OperationKey.ofText?_eq_some_iff.mp known
      by_cases same : key = operation
      · subst same
        refine ⟨fun met => absurd met new, fun _ => ⟨some (more.operationsUnder key), ?_, kept List.mem_cons_self⟩⟩
        rw [Members.value?, if_pos named]
        exact .some here
      · have other : name ≠ key.name.toList := fun equal =>
          same (Option.some.inj ((OperationKey.ofText?_eq_some_iff.mpr equal).symm.trans known))
        rw [elsewhere key same] at kept set
        rw [Members.value?, if_neg other]
        exact ⟨fun met => kept (List.mem_cons_of_mem _ met), fun unmet => set fun met => (List.mem_cons.mp met).elim same unmet⟩
    · have other : name ≠ key.name.toList := fun equal =>
        nomatch (OperationKey.ofText?_eq_some_iff.mpr equal).symm.trans unknown
      have aside : (r.withOverride name json).operationsUnder key = r.operationsUnder key := by cases key <;> rfl
      obtain ⟨kept, set⟩ := operationsUnder_addMembers key next later
      rw [aside] at kept set
      rw [Members.value?, if_neg other]
      exact ⟨kept, set⟩

/-! ## Attributes -/

/-- The text that a value stands for under the name of an attribute, if it stands for one. -/
def readScalar (tree : Tree) : Except Fault (Option Text) := ((tree.capture 1).mapError .text).map scalarText?

theorem respects_readScalar : Respects readScalar := by
  refine ⟨fun {v w} same {a b} left right => ?_⟩
  cases same with
  | refl => exact Except.ok.inj (left.symm.trans right)
  | object members =>
    have none {ms : Members} {x : Option Text} (read : readScalar (.object ms) = .ok x) : x = none := by
      obtain ⟨json, captured, rfl⟩ := map_eq_ok_iff.mp read
      rw [Tree.capture] at captured
      split at captured
      · cases pairs : ms.capture 2 with
        | error fault =>
          rw [pairs] at captured
          cases captured
        | ok entries =>
          rw [pairs] at captured
          obtain rfl := Except.ok.inj captured
          rfl
      · cases captured
    rw [none left, none right]

theorem lookup_insert (key name : Text) (value : Json) (entries : List (Text × Json)) :
    (Json.insert key value entries).lookup name = if name = key then some value else entries.lookup name := by
  induction entries with
  | nil =>
    rw [Json.insert, List.lookup_cons]
    by_cases same : name = key
    · rw [if_pos same, beq_iff_eq.mpr same]
    · rw [if_neg same, beq_false_of_ne same]
  | cons entry entries ih =>
    obtain ⟨k, v⟩ := entry
    rw [Json.insert]
    by_cases here : k = key
    · subst here
      rw [if_pos rfl, List.lookup_cons, List.lookup_cons]
      by_cases same : name = k
      · rw [if_pos same, beq_iff_eq.mpr same]
      · rw [if_neg same, beq_false_of_ne same]
    · rw [if_neg here, List.lookup_cons, List.lookup_cons, ih]
      by_cases first : name = k
      · have other : name ≠ key := fun equal => here (first.symm.trans equal)
        simp only [beq_iff_eq.mpr first, if_neg other]
      · rw [beq_false_of_ne first]

/-- If names are distinct, then what is kept under a name is the value of the member with that name. -/
theorem scalar_addMembers {name : Text} (plain : OperationKey.ofText? name = none) : ∀ (ms : Members) {r r' : Request}
    {seen : List OperationKey}, ms.keys.Nodup → r.addMembers seen ms = .ok r' →
      ∃ read, Option.Rel (fun v x => readScalar v = .ok x) (ms.value? name) read ∧
        (r'.overrides.lookup name).map scalarText? = read.or ((r.overrides.lookup name).map scalarText?)
  | .closed, r, r', seen, distinct, added => by
    obtain rfl := Except.ok.inj added
    exact ⟨none, .none, rfl⟩
  | .broken _, r, r', seen, distinct, added => nomatch added
  | .member key value next, r, r', seen, distinct, added => by
    obtain ⟨key, rfl, ⟨operation, more, known, new, read, later⟩ | ⟨json, -, captured, later⟩⟩ := addMembers_member added
    · have other : key ≠ name := by
        rintro rfl
        rw [plain] at known
        cases known
      obtain ⟨-, same, -⟩ := operationsUnder_withOperation read
      rw [Members.value?, if_neg other, ← same]
      exact scalar_addMembers plain next (List.nodup_cons.mp distinct).2 later
    · obtain ⟨absent, distinct⟩ := List.nodup_cons.mp distinct
      obtain ⟨read, there, kept⟩ := scalar_addMembers plain next distinct later
      rw [withOverride, lookup_insert] at kept
      by_cases same : key = name
      · subst same
        rw [(Members.value?_eq_none_iff key next).mpr absent] at there
        obtain rfl : read = none := by cases there; rfl
        rw [if_pos rfl] at kept
        refine ⟨some (scalarText? json), ?_, kept⟩
        rw [Members.value?, if_pos rfl]
        exact .some (by rw [readScalar, captured]; rfl)
      · rw [if_neg (Ne.symm same)] at kept
        rw [Members.value?, if_neg same]
        exact ⟨read, there, kept⟩

/-! ## Requests -/

theorem parse_eq_ok_iff {s : Text} {r : Request} :
    parse s = .ok r ↔ ∃ tree, Tree.ofText s = (tree, false) ∧ ofTree tree = .ok r := by
  rw [parse, Json.readText]
  obtain ⟨tree, more⟩ := Tree.ofText s
  cases read : ofTree tree with
  | error fault => simp [read, bind, Except.bind]
  | ok value => cases more <;> simp [read, bind, Except.bind, pure, Except.pure]

theorem addMembers_of_parse {s : Text} {r : Request} (parsed : parse s = .ok r) :
    addMembers {} [] (Json.membersOf s) = .ok r := by
  obtain ⟨tree, text, read⟩ := parse_eq_ok_iff.mp parsed
  rw [Json.membersOf, text]
  cases tree with
  | object members => exact read
  | _ => cases read

theorem apply_congr {r r' : Request} (tokens : r.tokens = r'.tokens) (direct : r.directAttributes = r'.directAttributes) :
    r.apply = r'.apply := by
  funext e
  rw [apply, apply, compose, compose, tokens, direct]

end Request

/-- The names that have a meaning in a request. -/
def meaningfulNames : List Text := Request.OperationKey.all.map (·.name.toList) ++ directNames

theorem transformMatching_congr {r r' : Request} (same : r.apply = r'.apply) (s selector : Text) :
    transformMatching s selector r = transformMatching s selector r' := by
  have step (d : Document) (id : Text) : d.applyRequest? id r = d.applyRequest? id r' := by
    rw [Document.applyRequest?, Document.applyRequest?, same]
  have all (d : Document) (found : List Match) : d.applyToMatches r found = d.applyToMatches r' found := by
    simp only [Document.applyToMatches, step]
  simp only [transformMatching, all]

/--
Two requests with distinct names whose values are the same under each name that has a meaning write the same
operations and give the same values, and transforming comes to the same in every text.
-/
theorem transformMatching_ignores_order {s s' : Text} {r r' : Request} (parsed : Request.parse s = .ok r)
    (parsed' : Request.parse s' = .ok r') (distinct : (Json.membersOf s).keys.Nodup)
    (distinct' : (Json.membersOf s').keys.Nodup)
    (same : ∀ name ∈ meaningfulNames,
      Option.Rel Json.Tree.Same ((Json.membersOf s).value? name) ((Json.membersOf s').value? name)) :
    r.tokens = r'.tokens ∧ r.directAttributes = r'.directAttributes ∧
      ∀ text selector, transformMatching text selector r = transformMatching text selector r' := by
  have added := Request.addMembers_of_parse parsed
  have added' := Request.addMembers_of_parse parsed'
  have operations (key : Request.OperationKey) : r.operationsUnder key = r'.operationsUnder key := by
    have listed : key.name.toList ∈ meaningfulNames := by cases key <;> decide
    obtain ⟨read, there, here⟩ := (Request.operationsUnder_addMembers key _ added).2 List.not_mem_nil
    obtain ⟨read', there', here'⟩ := (Request.operationsUnder_addMembers key _ added').2 List.not_mem_nil
    rw [here, here', (Request.respects_readOperations key).option_eq (same _ listed) there there']
  have tokens : r.tokens = r'.tokens := by
    rw [Request.tokens, Request.tokens, Request.operations_eq, Request.operations_eq, funext operations]
  have scalars : ∀ name ∈ directNames, (r.overrides.lookup name).bind Request.scalarText? = (r'.overrides.lookup name).bind Request.scalarText? := by
    intro name listed
    have plain : Request.OperationKey.ofText? name = none := by
      revert name
      decide
    obtain ⟨read, there, here⟩ := Request.scalar_addMembers plain _ distinct added
    obtain ⟨read', there', here'⟩ := Request.scalar_addMembers plain _ distinct' added'
    have equal := Request.respects_readScalar.option_eq (same _ (List.mem_append_right _ listed)) there there'
    have kept : (r.overrides.lookup name).map Request.scalarText? = (r'.overrides.lookup name).map Request.scalarText? := by
      rw [here, here', equal]
    simpa [Option.bind_map] using congrArg (Option.bind · id) kept
  have direct : r.directAttributes = r'.directAttributes := by
    rw [Request.directAttributes, Request.directAttributes]
    exact List.filterMap_congr fun name listed => by rw [scalars name listed]
  exact ⟨tokens, direct, transformMatching_congr (Request.apply_congr tokens direct)⟩

/-- What is read of a request that scales and paints, with a member that has no meaning. -/
def scalingEntries (x y : JsonNumber) : List (Text × Json.Tree) :=
  [("note".toList, .array .closed), ("fill".toList, .string (.ok "red".toList)),
    ("scale".toList, .object (.ofList [(['y'], .number (.ok y)), (['x'], .number (.ok x))]))]

/-- What is read of that request in another order, without that member. -/
def reorderedEntries (x y : JsonNumber) : List (Text × Json.Tree) :=
  [("scale".toList, .object (.ofList [(['x'], .number (.ok x)), (['y'], .number (.ok y))])),
    ("fill".toList, .string (.ok "red".toList))]

theorem transformMatching_ignores_order_reordered :
    let fill : Text × Json := ("fill".toList, .string "red".toList)
    let scale : Text × Json := ("scale".toList, .object [(['y'], .ofNat 3), (['x'], .ofNat 2)])
    let scale' : Text × Json := ("scale".toList, .object [(['x'], .ofNat 2), (['y'], .ofNat 3)])
    let s := (Json.object [("note".toList, .array []), fill, scale]).compact
    let s' := (Json.object [scale', fill]).compact
    ∃ r r', Request.parse s = .ok r ∧ Request.parse s' = .ok r' ∧
      (Json.membersOf s).keys.Nodup ∧ (Json.membersOf s').keys.Nodup ∧
      (∀ name ∈ meaningfulNames,
        Option.Rel Json.Tree.Same ((Json.membersOf s).value? name) ((Json.membersOf s').value? name)) ∧
      r.tokens = r'.tokens ∧ r.directAttributes = r'.directAttributes ∧
        ∀ text selector, transformMatching text selector r = transformMatching text selector r' := by
  intro fill scale scale' s s'
  have text : Json.Tree.ofText s = (.object (.ofList (scalingEntries (.natural 2) (.natural 3))), false) := by cbv
  have text' : Json.Tree.ofText s' = (.object (.ofList (reorderedEntries (.natural 2) (.natural 3))), false) := by cbv
  -- for any numbers, so that none of them is computed
  have read (x y : JsonNumber) : Request.ofTree (.object (.ofList (scalingEntries x y))) =
      .ok { scale := some ⟨x.toBinary64, some y.toBinary64⟩, overrides := [("note".toList, .array []), fill] } := rfl
  have read' (x y : JsonNumber) : Request.ofTree (.object (.ofList (reorderedEntries x y))) =
      .ok { scale := some ⟨x.toBinary64, some y.toBinary64⟩, overrides := [fill] } := rfl
  have parsed := Request.parse_eq_ok_iff.mpr ⟨_, text, read _ _⟩
  have parsed' := Request.parse_eq_ok_iff.mpr ⟨_, text', read' _ _⟩
  have members : Json.membersOf s = .ofList (scalingEntries (.natural 2) (.natural 3)) := by rw [Json.membersOf, text]
  have members' : Json.membersOf s' = .ofList (reorderedEntries (.natural 2) (.natural 3)) := by rw [Json.membersOf, text']
  have distinct : (Json.membersOf s).keys.Nodup := members ▸ by decide
  have distinct' : (Json.membersOf s').keys.Nodup := members' ▸ by decide
  have same : ∀ name ∈ meaningfulNames,
      Option.Rel Json.Tree.Same ((Json.membersOf s).value? name) ((Json.membersOf s').value? name) := by
    intro name listed
    rw [members, members', Json.Members.value?_ofList, Json.Members.value?_ofList]
    by_cases isScale : name = "scale".toList
    · subst isScale
      exact .some (Json.Tree.same_of_perm (.swap _ _ _) (by decide))
    by_cases isFill : name = "fill".toList
    · subst isFill
      exact .some (.refl _)
    have other : name ≠ "note".toList := by
      rintro rfl
      revert listed
      decide
    have absent : (scalingEntries (.natural 2) (.natural 3)).lookup name = none := by
      simpa [scalingEntries, List.lookup_eq_none_iff] using ⟨other, isFill, isScale⟩
    have absent' : (reorderedEntries (.natural 2) (.natural 3)).lookup name = none := by
      simpa [reorderedEntries, List.lookup_eq_none_iff] using ⟨isScale, isFill⟩
    rw [absent, absent']
    exact .none
  exact ⟨_, _, parsed, parsed', distinct, distinct', same,
    transformMatching_ignores_order parsed parsed' distinct distinct' same⟩

end SvgEdit
