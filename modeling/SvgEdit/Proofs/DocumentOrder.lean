import SvgEdit.Proofs.Application

/-!
# The order of the document

The elements below an element can be visited with a stack: the one on top is taken off, and those directly
inside it are put on, the first of them last. This visits each of them once, parents first, which is the order
of their paths; and it is over when the stack is empty. What reads and what changes the element that a path
leads to follow the path alike, and an identifier leads to the least path with it.
-/
namespace SvgEdit

/-! ## Visiting with a stack -/

/-- What is given step by step until there is nothing more. -/
inductive Yields {σ α : Type} (next : σ → Option (α × σ)) : σ → List α → Prop
  | done {state : σ} (ended : next state = none) : Yields next state []
  | step {state later : σ} {a : α} {as : List α} (given : next state = some (a, later)) (rest : Yields next later as) :
      Yields next state (a :: as)

/-- The elements of a content without those inside them. Its first place is `place`, and it stands at `path`. -/
def Content.childrenFrom (path : Path) (place : Nat) : Content → List (Path × Element)
  | nil => []
  | raw _ next => next.childrenFrom path (place + 1)
  | element tag inside next => (path ++ [place], ⟨tag, inside⟩) :: next.childrenFrom path (place + 1)

/-- A visit to elements: those that are still to be visited, the next one on top. -/
structure Visit where
  stack : List (Path × Element)

namespace Visit

/-- One more element on top. -/
def push (v : Visit) (entry : Path × Element) : Visit := ⟨entry :: v.stack⟩

/-- The elements directly inside an element on top, pushed from the last one to the first. -/
def pushInside (v : Visit) (path : Path) (e : Element) : Visit :=
  (e.content.childrenFrom path 0).reverse.foldl push v

/-- Takes the element on top, and goes on with those inside it. -/
def next (v : Visit) : Option ((Path × Element) × Visit) :=
  match v.stack with
  | [] => none
  | (path, e) :: rest => some ((path, e), pushInside ⟨rest⟩ path e)

/-- The visit to all elements below an element. -/
def below (e : Element) : Visit := pushInside ⟨[]⟩ [] e

theorem stack_foldl_push (entries : List (Path × Element)) (v : Visit) :
    (entries.foldl push v).stack = entries.reverse ++ v.stack := by
  induction entries generalizing v with
  | nil => rfl
  | cons entry entries ih =>
    rw [List.foldl_cons, ih, List.reverse_cons, List.append_assoc]
    rfl

theorem stack_pushInside (v : Visit) (path : Path) (e : Element) :
    (v.pushInside path e).stack = e.content.childrenFrom path 0 ++ v.stack := by
  rw [pushInside, stack_foldl_push, List.reverse_reverse]

end Visit

/-- An entry, seen from above its path. -/
def beneath (path : Path) (entry : Path × Element) : Path × Element := (path ++ entry.1, entry.2)

/-- An element at a path and those below it, parents first. -/
def Element.elementsAt (entry : Path × Element) : List (Path × Element) := entry.2.elements.map (beneath entry.1)

theorem map_beneath_nil (entries : List (Path × Element)) : entries.map (beneath []) = entries := List.map_id entries

/-- What is below an element is what is directly inside it, each with what is below that. -/
theorem Content.map_beneath_elementsFrom (c : Content) (path : Path) (place : Nat) :
    (c.elementsFrom place).map (beneath path) = (c.childrenFrom path place).flatMap Element.elementsAt := by
  induction c generalizing place with
  | nil => rfl
  | raw source next ih => exact ih (place + 1)
  | element tag inside next _ ih =>
    have here : ((inside.elementsFrom 0).map fun entry => (place :: entry.1, entry.2)).map (beneath path) =
        (inside.elementsFrom 0).map (beneath (path ++ [place])) := by
      rw [List.map_map]
      refine List.map_congr_left fun entry _ => ?_
      rw [Function.comp_apply, beneath, beneath, List.append_assoc, List.singleton_append]
    rw [elementsFrom, List.cons_append, List.map_cons, List.map_append, here, ih, childrenFrom,
      List.flatMap_cons, Element.elementsAt, Element.elements, List.map_cons, List.cons_append]
    rw [beneath, beneath, List.append_nil]
    rfl

namespace Visit

/-- All elements that are visited: those on the stack, each with what is below it. -/
def visited (v : Visit) : List (Path × Element) := v.stack.flatMap Element.elementsAt

theorem visited_pushInside (v : Visit) (path : Path) (e : Element) :
    (v.pushInside path e).visited = e.descendants.map (beneath path) ++ v.visited := by
  rw [visited, stack_pushInside, List.flatMap_append, ← Content.map_beneath_elementsFrom]
  rfl

theorem visited_below (e : Element) : (below e).visited = e.descendants := by
  rw [below, visited_pushInside, map_beneath_nil]
  exact List.append_nil _

/-- One step visits the first of the elements that are left. -/
theorem visited_of_next {v later : Visit} {entry : Path × Element} (given : v.next = some (entry, later)) :
    v.visited = entry :: later.visited := by
  obtain ⟨_ | ⟨⟨path, e⟩, rest⟩⟩ := v
  · cases given
  · obtain ⟨rfl, rfl⟩ := Prod.mk.inj (Option.some.inj given)
    have top : beneath path ([], e) = (path, e) := by rw [beneath, List.append_nil]
    rw [visited_pushInside, visited, List.flatMap_cons, Element.elementsAt, Element.elements, List.map_cons, top]
    rfl

theorem visited_of_ended {v : Visit} (ended : v.next = none) : v.visited = [] := by
  obtain ⟨_ | ⟨⟨path, e⟩, rest⟩⟩ := v
  · rfl
  · cases ended

/-- A visit gives all elements in their order, and then it is over. -/
theorem yields_visited (v : Visit) : Yields next v v.visited := by
  -- Each step leaves one element less to visit.
  induction count : v.visited.length generalizing v with
  | zero =>
    cases given : v.next with
    | none =>
      rw [visited_of_ended given]
      exact .done given
    | some found =>
      rw [visited_of_next given] at count
      cases count
  | succ n ih =>
    cases given : v.next with
    | none =>
      rw [visited_of_ended given] at count
      cases count
    | some found =>
      rw [visited_of_next given] at count ⊢
      exact .step given (ih found.2 (Nat.succ.inj count))

end Visit

/-! ## Reading and changing at a path -/

namespace Content

variable {f g : Element → Element}

theorem element?_modify (c : Content) (f : Element → Element) (n : Nat) :
    (c.modify f n).element? n = (c.element? n).map f := by
  induction c generalizing n with
  | nil => rfl
  | raw source next ih =>
    cases n with
    | zero => rfl
    | succ n => exact ih n
  | element tag inside next _ ih =>
    cases n with
    | zero => rfl
    | succ n => exact ih n

theorem modify_congr {c : Content} {n : Nat} (same : ∀ x, c.element? n = some x → f x = g x) :
    c.modify f n = c.modify g n := by
  induction c generalizing n with
  | nil => rfl
  | raw source next ih =>
    cases n with
    | zero => rfl
    | succ n => rw [modify, modify, ih same]
  | element tag inside next _ ih =>
    cases n with
    | zero => rw [modify, modify, same _ rfl]
    | succ n => rw [modify, modify, ih same]

theorem modify_id (c : Content) (n : Nat) : c.modify id n = c := by
  induction c generalizing n with
  | nil => rfl
  | raw source next ih =>
    cases n with
    | zero => rfl
    | succ n => rw [modify, ih]
  | element tag inside next _ ih =>
    cases n with
    | zero => rfl
    | succ n => rw [modify, ih]

theorem modify_modify (c : Content) (f g : Element → Element) (n : Nat) :
    (c.modify f n).modify g n = c.modify (fun e => g (f e)) n := by
  induction c generalizing n with
  | nil => rfl
  | raw source next ih =>
    cases n with
    | zero => rfl
    | succ n => rw [modify, modify, modify, ih]
  | element tag inside next _ ih =>
    cases n with
    | zero => rfl
    | succ n => rw [modify, modify, modify, ih]

end Content

namespace Element

/-- A change at a path is seen at that path. -/
theorem elementAt?_modifyAt (f : Element → Element) (path : Path) (e : Element) :
    (e.modifyAt f path).elementAt? path = (e.elementAt? path).map f := by
  induction path generalizing e with
  | nil => rfl
  | cons place path ih =>
    rw [modifyAt, elementAt?, Content.element?_modify, elementAt?]
    cases e.content.element? place with
    | none => rfl
    | some inner => exact ih inner

/-- A change at a path depends on nothing but what it does to the element that the path leads to. -/
theorem modifyAt_congr {f g : Element → Element} {path : Path} {e : Element}
    (same : ∀ x, e.elementAt? path = some x → f x = g x) : e.modifyAt f path = e.modifyAt g path := by
  induction path generalizing e with
  | nil => exact same e rfl
  | cons place path ih =>
    have inner : e.content.modify (modifyAt f path) place = e.content.modify (modifyAt g path) place := by
      refine Content.modify_congr fun x found => ih fun y leads => same y ?_
      rw [elementAt?, found]
      exact leads
    rw [modifyAt, modifyAt, inner]

theorem modifyAt_id (e : Element) (path : Path) : e.modifyAt id path = e := by
  induction path generalizing e with
  | nil => rfl
  | cons place path ih =>
    have same : modifyAt id path = id := funext ih
    rw [modifyAt, same, Content.modify_id]

theorem modifyAt_eq_self {f : Element → Element} {path : Path} {e : Element}
    (same : ∀ x, e.elementAt? path = some x → f x = x) : e.modifyAt f path = e :=
  (modifyAt_congr (g := id) same).trans (e.modifyAt_id path)

/-- Two changes at a path are one. -/
theorem modifyAt_modifyAt (f g : Element → Element) (path : Path) (e : Element) :
    (e.modifyAt f path).modifyAt g path = e.modifyAt (fun x => g (f x)) path := by
  induction path generalizing e with
  | nil => rfl
  | cons place path ih =>
    have inner : (fun x => modifyAt g path (modifyAt f path x)) = modifyAt (fun x => g (f x)) path := funext ih
    rw [modifyAt, modifyAt, modifyAt, Content.modify_modify, inner]

/-! ## Lookups -/

/-- A lookup finds the least of the paths that lead to an identifier. -/
theorem findId?_eq_some_iff_least (e : Element) {id : Text} {path : Path} :
    e.findId? id = some path ↔
      (∃ x, e.elementAt? path = some x ∧ x.attribute? idName = some id) ∧
        ∀ other x, e.elementAt? other = some x → x.attribute? idName = some id → path ≤ other := by
  have ordered := e.pairwise_elements
  rw [e.findId?_eq_some_iff]
  constructor
  · rintro ⟨before, x, after, split, carries, none⟩
    rw [split, List.map_append, List.map_cons, List.pairwise_append, List.pairwise_cons] at ordered
    refine ⟨⟨x, e.mem_elements_iff.mp (by rw [split]; simp), carries⟩, fun other y leads theirs => ?_⟩
    have member := e.mem_elements_iff.mpr leads
    rw [split, List.mem_append, List.mem_cons] at member
    rcases member with early | here | later
    · exact absurd theirs (none _ early)
    · exact le_of_eq (Prod.mk.inj here).1.symm
    · exact le_of_lt (ordered.2.1.1 other (List.mem_map_of_mem later))
  · rintro ⟨⟨x, leads, carries⟩, least⟩
    obtain ⟨before, after, split⟩ := List.append_of_mem (e.mem_elements_iff.mpr leads)
    rw [split, List.map_append, List.map_cons, List.pairwise_append] at ordered
    refine ⟨before, x, after, split, carries, ?_⟩
    rintro ⟨other, y⟩ early theirs
    have listed : (other, y) ∈ e.elements := by rw [split]; simp [early]
    have less := ordered.2.2 other (List.mem_map_of_mem early) path List.mem_cons_self
    exact absurd less (not_lt_of_ge (least other y (e.mem_elements_iff.mp listed) theirs))

theorem findId?_eq_none_iff (e : Element) {id : Text} :
    e.findId? id = none ↔ ∀ path x, e.elementAt? path = some x → x.attribute? idName ≠ some id := by
  rw [findId?, Option.map_eq_none_iff, List.find?_eq_none]
  constructor
  · intro none path x leads carries
    exact none (path, x) (e.mem_elements_iff.mpr leads) (decide_eq_true carries)
  · rintro none ⟨path, x⟩ member carries
    exact none path x (e.mem_elements_iff.mp member) (of_decide_eq_true carries)

end Element

/--
A visit to the elements below an element gives exactly those that longer paths lead to, each of them once and
with its path, in the order of the paths, and then it is over. A change at a path is one of the element that the
path leads to, and of nothing if it leads to none. An identifier leads to the least path, that of the element
itself included, at which it stands, and to none if it stands nowhere.
-/
theorem Element.visited_in_order (e : Element) :
    Yields Visit.next (Visit.below e) e.descendants ∧
      (∀ path x, (path, x) ∈ e.descendants ↔ path ≠ [] ∧ e.elementAt? path = some x) ∧
      (e.descendants.map Prod.fst).Pairwise (· < ·) ∧
      (∀ path f, (e.modifyAt f path).elementAt? path = (e.elementAt? path).map f) ∧
      (∀ path f g, (∀ x, e.elementAt? path = some x → f x = g x) → e.modifyAt f path = e.modifyAt g path) ∧
      (∀ path f, (∀ x, e.elementAt? path = some x → f x = x) → e.modifyAt f path = e) ∧
      (∀ id path, e.findId? id = some path ↔
        (∃ x, e.elementAt? path = some x ∧ x.attribute? idName = some id) ∧
          ∀ other x, e.elementAt? other = some x → x.attribute? idName = some id → path ≤ other) ∧
      ∀ id, e.findId? id = none ↔ ∀ path x, e.elementAt? path = some x → x.attribute? idName ≠ some id := by
  have visit := (Visit.below e).yields_visited
  rw [Visit.visited_below] at visit
  exact ⟨visit, fun path x => e.mem_descendants_iff, e.content.pairwise_elementsFrom 0,
    fun path f => e.elementAt?_modifyAt f path, fun path f g => Element.modifyAt_congr, fun path f => Element.modifyAt_eq_self,
    fun id path => e.findId?_eq_some_iff_least, fun id => e.findId?_eq_none_iff⟩

end SvgEdit
