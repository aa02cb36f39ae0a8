import UiLint.Tree.Layout

/-! Nodes seen from where they stand in their tree: the ways up, down and sideways. -/
namespace UiLint

/-- The paths of the ancestors, nearest first. -/
def Path.ancestors (path : Path) : List Path :=
  (List.range path.length).reverse.map path.take

/-- A node with the tree around it and its path there. -/
structure Site where
  root : Node
  path : Path
  node : Node

namespace Site

/-- The node that a path from the root leads to. -/
def at? (root : Node) (path : Path) : Option Site :=
  (root.descendant? path).map fun node => ⟨root, path, node⟩

theorem at?_eq_some {root node : Node} {path : Path} (hNode : root.descendant? path = some node) :
    at? root path = some ⟨root, path, node⟩ := by
  rw [at?, hNode, Option.map_some]

/-- The children, tokens included. -/
def children (site : Site) : List Site :=
  site.node.children.zipIdx.map fun entry => ⟨site.root, site.path.child entry.2, entry.1⟩

/-- The children that are not tokens. -/
def childNodes (site : Site) : List Site :=
  site.children.filter (·.node.kind != .token)

/-- The first child of a kind. -/
def childOfKind? (site : Site) (kind : Kind) : Option Site :=
  site.children.find? (·.node.kind == kind)

/-- The parent; the root has none. -/
def parent? (site : Site) : Option Site :=
  site.path.parent?.bind (at? site.root)

/-- The sibling after the node, tokens included. -/
def next? (site : Site) : Option Site :=
  match site.path.parent?, site.path.index? with
  | some parent, some index => at? site.root (parent.child (index + 1))
  | _, _ => none

/-- The sibling before the node, tokens included. -/
def previous? (site : Site) : Option Site :=
  match site.path.parent?, site.path.index? with
  | some parent, some (index + 1) => at? site.root (parent.child index)
  | _, _ => none

/-- The ancestors, nearest first. -/
def ancestors (site : Site) : List Site :=
  site.path.ancestors.filterMap (at? site.root)

/-- The last token at or below the node. -/
def lastToken? (site : Site) : Option Site :=
  site.node.lastTokenPath?.bind fun below => at? site.root (site.path ++ below)

end Site

end UiLint
