/-! Paths: the child indices that lead from one node down to another. -/
namespace UiLint

/-- The indices of the children to descend to, outermost first. The empty path stays at
the node it starts from. -/
abbrev Path := List Nat

namespace Path

/-- The path to the child with the given index. -/
def child (path : Path) (index : Nat) : Path :=
  path ++ [index]

/-- The path to the parent; the empty path has none. -/
def parent? (path : Path) : Option Path :=
  if path.isEmpty then none else some path.dropLast

/-- The index of the node among its siblings. -/
def index? (path : Path) : Option Nat :=
  path.getLast?

/-- The rest of the path below `ancestor`, if it leads there or further down. -/
def relativeTo? : (path ancestor : Path) → Option Path
  | path, [] => some path
  | [], _ :: _ => none
  | i :: path, j :: ancestor => if i = j then relativeTo? path ancestor else none

/-- Whether the path leads to `ancestor` or below it. -/
def startsWith (path ancestor : Path) : Bool :=
  (path.relativeTo? ancestor).isSome

/-- The lexicographic order of paths. An ancestor comes before what lies below it. -/
def order : (first second : Path) → Ordering
  | [], [] => .eq
  | [], _ :: _ => .lt
  | _ :: _, [] => .gt
  | i :: first, j :: second => (compare i j).then (order first second)

theorem relativeTo?_eq_some_iff {path ancestor rest : Path} :
    path.relativeTo? ancestor = some rest ↔ path = ancestor ++ rest := by
  fun_induction relativeTo? path ancestor with
  | case1 path => simp
  | case2 => simp
  | case3 path i ancestor ih => simpa using ih
  | case4 i path j ancestor hne => simp [hne]

end Path

end UiLint
