import OpenLustre.Ir.Project
import OpenLustre.Lib.Dependency

/-! The checker's own dependency analysis: combinational cycles that do not
cross a temporal break. -/

namespace OpenLustre.Typecheck

open OpenLustre.Ir

mutual

/-- Immediate dependencies.  Edges through a `pre` and through the body of a
`->` are left out. -/
def collectImmediateDeps : Expr → List String
  | .const _ => []
  | .var name => [name]
  | .unary _ arg | .cast _ arg => collectImmediateDeps arg
  | .binary _ lhs rhs => collectImmediateDeps lhs ++ collectImmediateDeps rhs
  | .ifThenElse c t e =>
    collectImmediateDeps c ++ (collectImmediateDeps t ++ collectImmediateDeps e)
  | .pre _ => []
  | .arrow init _ => collectImmediateDeps init
  | .call _ args => collectImmediateDepsList args
  | .field base _ => collectImmediateDeps base
  | .index base i => collectImmediateDeps base ++ collectImmediateDeps i
  | .tuple items | .array items => collectImmediateDepsList items
  | .struct _ fields => collectImmediateDepsFields fields
  | .when arg clock _ => clock :: collectImmediateDeps arg
  | .merge clock t f => clock :: (collectImmediateDeps t ++ collectImmediateDeps f)
  | .iterate _ _ none arrays => collectImmediateDepsList arrays
  | .iterate _ _ (some init) arrays => collectImmediateDeps init ++ collectImmediateDepsList arrays

def collectImmediateDepsList : List Expr → List String
  | [] => []
  | e :: es => collectImmediateDeps e ++ collectImmediateDepsList es

def collectImmediateDepsFields : List (String × Expr) → List String
  | [] => []
  | (_, e) :: fields => collectImmediateDeps e ++ collectImmediateDepsFields fields

end

/-- Insert into a sorted list without duplicates. -/
def insertSorted (x : String) : List String → List String
  | [] => [x]
  | y :: ys => if x = y then y :: ys else if x < y then x :: y :: ys else y :: insertSorted x ys

def sortedSet (xs : List String) : List String := xs.foldl (fun set x => insertSorted x set) []

/-- The keys of the dependency map, in order. -/
def assignedNames (n : NodeDef) : List String := sortedSet (n.equations.flatMap (·.lhs))

/-- The dependencies of `name`, over all equations that define it, in order. -/
def immediateDeps (n : NodeDef) (name : String) : List String :=
  sortedSet ((n.equations.filter (·.lhs.contains name)).flatMap (collectImmediateDeps ·.rhs))

/-- Depth-first search along the dependencies.  A name that is never assigned has
none, so the search is never deeper than the number of assigned names plus one. -/
def dfs (n : NodeDef) (fuel : Nat) (path : List String) (name : String) : Option (List String) :=
  Dependency.search (immediateDeps n) fuel path name

def detectCombinationalCycle (n : NodeDef) : Option (List String) :=
  let names := assignedNames n
  names.findSome? (dfs n (names.length + 2) [])

end OpenLustre.Typecheck
