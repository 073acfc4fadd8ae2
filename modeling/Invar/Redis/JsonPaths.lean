import Invar.Redis.Requests

/-!
# Queries by path

A path is a list of steps, each from a node of the document to the nodes it selects. A node
on which a step does not apply should add nothing to the answer. The code fails there, also
when other nodes have been selected, so its answer is the selection only if every step applies
wherever it is tried.
-/

namespace Invar.Json

open Requests

mutual

/-- A value and all values below it, in document order. -/
def nodes : JValue → List JValue
  | .arr items => .arr items :: itemNodes items
  | .obj members => .obj members :: memberNodes members
  | v => [v]

def itemNodes : List JValue → List JValue
  | [] => []
  | v :: rest => nodes v ++ itemNodes rest

def memberNodes : List (Bytes × JValue) → List JValue
  | [] => []
  | (_, v) :: rest => nodes v ++ memberNodes rest

end

/-- The nodes that a step selects, or `none` where it does not apply. -/
def step : Part → JValue → Option (List JValue)
  | .recursive, v => some (nodes v)
  | .wildcard, .obj members => some (members.map (·.2))
  | .wildcard, .arr items => some items
  | .key k, .obj members => (members.lookup k).map ([·])
  | .index i, .arr items => (position i items.length).map fun n => [items.getD n .null]
  | _, _ => none

/-- The values of a path; a node to which a step does not apply adds none. -/
def select : List Part → JValue → List JValue
  | [], v => [v]
  | p :: rest, v => ((step p v).getD []).flatMap (select rest)

/-- A query that gives `vs` if `ok` and fails otherwise. -/
def Selects (result : Except String (List JValue)) (ok : Bool) (vs : List JValue) : Prop :=
  result.toOption = if ok then some vs else none

theorem Selects.append {x y : Except String (List JValue)} {b c : Bool} {vs ws : List JValue}
    (hx : Selects x b vs) (hy : Selects y c ws) :
    Selects (do return (← x) ++ (← y)) (b && c) (vs ++ ws) := by
  cases b <;> cases x <;> cases hx <;> cases c <;> cases y <;> cases hy <;> rfl

variable {f : JValue → Except String (List JValue)} {ok : JValue → Bool}
  {values : JValue → List JValue}

mutual

theorem selects_descend (h : ∀ v, Selects (f v) (ok v) (values v)) :
    ∀ v, Selects (descend f v) ((nodes v).all ok) ((nodes v).flatMap values)
  | .arr items => (h _).append (selects_descendItems h items)
  | .obj members => (h _).append (selects_descendMembers h members)
  | .null | .bool _ | .number _ | .str _ => by simpa [descend, nodes] using h _

theorem selects_descendItems (h : ∀ v, Selects (f v) (ok v) (values v)) :
    ∀ items, Selects (descendItems f items) ((itemNodes items).all ok)
      ((itemNodes items).flatMap values)
  | [] => rfl
  | v :: rest => by
    rw [itemNodes, List.all_append, List.flatMap_append]
    exact (selects_descend h v).append (selects_descendItems h rest)

theorem selects_descendMembers (h : ∀ v, Selects (f v) (ok v) (values v)) :
    ∀ members, Selects (descendMembers f members) ((memberNodes members).all ok)
      ((memberNodes members).flatMap values)
  | [] => rfl
  | (_, v) :: rest => by
    rw [memberNodes, List.all_append, List.flatMap_append]
    exact (selects_descend h v).append (selects_descendMembers h rest)

end

/-- The selected values in document order; a query may fail only if there is none. -/
def Finds (result : Except String (List JValue)) (selected : List JValue) : Prop :=
  result = .ok selected ∨ selected = [] ∧ ∃ e, result = .error e

end Invar.Json
