import UiLint.Proofs.Engine.Suppression
import UiLint.Proofs.Tree.Preorder
import UiLint.Proofs.Tree.Shape

/-! The calls that a file asks for: one round for the file, then the rounds of each declaration in
pre-order. They are told twice, from the file as a whole and by the way down through it, and the
two agree. -/
namespace UiLint

/-- A call to be made: the rule by its place among the rules, the hook, and the path and payload of
the node. -/
structure Turn where
  rule : Nat
  hook : Hook
  path : Path
  declared : Payload
  deriving DecidableEq

/-- The turn that a call is made for. -/
def Call.turn (call : Call) : Turn :=
  ⟨call.rule, call.hook, call.site.path, call.site.node.payload⟩

/-- The places of the rules that are called at a hook where the listed rules are suppressed. -/
def ActiveRule.listening (rules : List ActiveRule) (hook : Hook) (suppressed : List String) :
    List Nat :=
  (rules.filter (·.listens hook suppressed)).map (·.index)

namespace Node

/-- The hooks of a declaration, in the order in which the rules are called. -/
def hooks (declaration : Node) : List Hook :=
  if declaration.kind = .typeDeclaration then [.type]
  else .function ::
    if declaration.payload.functionHeader?.any (·.isComposable) then [.composable] else []

/-- The declarations at and below a node in pre-order, with their paths. -/
def declarations (root : Node) : List (Path × Node) :=
  root.preorder.filter fun entry => Run.isDeclaration entry.2.kind

end Node

/-- The round of calls at a hook for the node at a path with the given payload. -/
def roundAt (listening : Hook → List String → List Nat) (suppressed : List String) (path : Path)
    (declared : Payload) (hook : Hook) : List Turn :=
  (listening hook suppressed).map fun rule => ⟨rule, hook, path, declared⟩

/-- The calls that a file asks for: at the hook for files for its root, and then at its hooks for
each declaration in pre-order. At each hook the rules that listen are called in order, less those
that a mark on the node, on a declaration around it or on the file suppresses. -/
def schedule (rules : List ActiveRule) (root : Node) : List Turn :=
  roundAt (ActiveRule.listening rules) (root.suppressedAt []) [] root.payload .file ++
    root.declarations.flatMap fun entry => entry.2.hooks.flatMap
      (roundAt (ActiveRule.listening rules) (root.suppressedAt entry.1) entry.1 entry.2.payload)

namespace Node

mutual

/-- The calls for the declarations at and below the node at a path, where the listed rules are
suppressed around it. -/
def turnsFrom (listening : Hook → List String → List Nat) (path : Path) (suppressed : List String) :
    Node → List Turn
  | ⟨kind, span, payload, children⟩ =>
    if Run.isDeclaration kind then
      (hooks ⟨kind, span, payload, children⟩).flatMap
          (roundAt listening (suppressedBy payload.annotations ++ suppressed) path payload) ++
        turnsOfAll listening path (suppressedBy payload.annotations ++ suppressed) 0 children
    else turnsOfAll listening path suppressed 0 children

/-- The calls for the declarations at and below the children from the given index on. -/
def turnsOfAll (listening : Hook → List String → List Nat) (path : Path) (suppressed : List String)
    (index : Nat) : List Node → List Turn
  | [] => []
  | node :: nodes =>
    turnsFrom listening (path.child index) suppressed node ++
      turnsOfAll listening path suppressed (index + 1) nodes

end

variable (listening : Hook → List String → List Nat)

theorem turnsFrom_eq (path : Path) (suppressed : List String) (node : Node) :
    node.turnsFrom listening path suppressed =
      if Run.isDeclaration node.kind then
        node.hooks.flatMap
            (roundAt listening (suppressedBy node.payload.annotations ++ suppressed) path
              node.payload) ++
          turnsOfAll listening path (suppressedBy node.payload.annotations ++ suppressed) 0
            node.children
      else turnsOfAll listening path suppressed 0 node.children := by
  cases node
  rw [turnsFrom]

theorem turnsOfAll_append (path : Path) (suppressed : List String) (index : Nat)
    (first second : List Node) :
    turnsOfAll listening path suppressed index (first ++ second) =
      turnsOfAll listening path suppressed index first ++
        turnsOfAll listening path suppressed (index + first.length) second := by
  induction first generalizing index with
  | nil => rfl
  | cons node first ih =>
      rw [List.cons_append, turnsOfAll, ih, turnsOfAll, List.append_assoc, List.length_cons,
        Nat.add_assoc, Nat.add_comm 1]

theorem turnsOfAll_map_shape_of (path : Path) (suppressed : List String) (index : Nat)
    (nodes : List Node) (hTurns : ∀ node ∈ nodes, ∀ path suppressed,
      node.shape.turnsFrom listening path suppressed = node.turnsFrom listening path suppressed) :
    turnsOfAll listening path suppressed index (nodes.map shape) =
      turnsOfAll listening path suppressed index nodes := by
  induction nodes generalizing index with
  | nil => rfl
  | cons node nodes ih =>
      rw [List.map_cons, turnsOfAll, turnsOfAll, hTurns node (by simp),
        ih _ fun n hn => hTurns n (by simp [hn])]

/-- What is asked for does not depend on spans. -/
theorem turnsFrom_shape (path : Path) (suppressed : List String) (node : Node) :
    node.shape.turnsFrom listening path suppressed = node.turnsFrom listening path suppressed := by
  induction node using inductionOn generalizing path suppressed with
  | step kind span payload children ih =>
      have hAll := fun suppressed => turnsOfAll_map_shape_of listening path suppressed 0 children
        fun child hChild path suppressed => ih child hChild path suppressed
      rw [turnsFrom_eq, turnsFrom_eq]
      simp only [kind_shape, payload_shape, children_shape, hAll, hooks]

theorem turnsOfAll_of_shape {nodes others : List Node} (path : Path) (suppressed : List String)
    (index : Nat) (hShape : nodes.map shape = others.map shape) :
    turnsOfAll listening path suppressed index nodes =
      turnsOfAll listening path suppressed index others := by
  rw [← turnsOfAll_map_shape_of listening path suppressed index nodes
      fun node _ path suppressed => turnsFrom_shape listening path suppressed node, hShape,
    turnsOfAll_map_shape_of listening path suppressed index others
      fun node _ path suppressed => turnsFrom_shape listening path suppressed node]

/-- The calls for those of the entries of a pre-order that are declarations. -/
def turnsOf (root : Node) (entries : List (Path × Node)) : List Turn :=
  (entries.filter fun entry => Run.isDeclaration entry.2.kind).flatMap fun entry =>
    entry.2.hooks.flatMap
      (roundAt listening (root.suppressedAt entry.1) entry.1 entry.2.payload)

theorem turnsOf_append (root : Node) (first second : List (Path × Node)) :
    turnsOf listening root (first ++ second) =
      turnsOf listening root first ++ turnsOf listening root second := by
  rw [turnsOf, List.filter_append, List.flatMap_append, turnsOf, turnsOf]

/-- The calls for several children, if they are known for each of them. -/
theorem turnsOfAll_eq_turnsOf {root : Node} {path : Path} (nodes : List Node) (start : Nat)
    (hTurns : ∀ place node, nodes[place]? = some node →
      node.turnsFrom listening (path.child (start + place)) (root.suppressedAt path) =
        turnsOf listening root (preorderFrom (path.child (start + place)) node)) :
    turnsOfAll listening path (root.suppressedAt path) start nodes =
      turnsOf listening root (preorderOfAll path start nodes) := by
  induction nodes generalizing start with
  | nil => rfl
  | cons node nodes ih =>
      rw [turnsOfAll, preorderOfAll, turnsOf_append, ← ih (start + 1)]
      · exact congrArg (· ++ _) (hTurns 0 node rfl)
      · intro place other hOther
        rw [Nat.add_assoc, Nat.add_comm 1]
        exact hTurns (place + 1) other hOther

theorem descendant?_child {root node : Node} {path : Path}
    (hNode : root.descendant? path = some node) (index : Nat) :
    root.descendant? (path.child index) = node.children[index]? := by
  rw [Path.child, descendant?_append, hNode, Option.bind_some, descendant?_cons]
  cases node.children[index]? <;> rfl

/-- The calls for a node other than the root, told from the file as a whole. -/
theorem turnsFrom_eq_turnsOf {root node : Node} {path : Path} {index : Nat}
    (hNode : root.descendant? (path.child index) = some node) :
    node.turnsFrom listening (path.child index) (root.suppressedAt path) =
      turnsOf listening root (preorderFrom (path.child index) node) := by
  induction node using inductionOn generalizing path index with
  | step kind span payload children ih =>
      have hMarks := root.suppressedAt_child path index
      simp only [marksAt, hNode] at hMarks
      have hParts := turnsOfAll_eq_turnsOf listening children 0 fun place child hChild => by
        apply ih child (List.mem_of_getElem? hChild)
        rw [descendant?_child hNode, Nat.zero_add]
        exact hChild
      rw [turnsFrom, preorderFrom, turnsOf, List.filter_cons]
      split
      · rename_i hDeclaration
        rw [if_pos (.inr hDeclaration)] at hMarks
        rw [← hMarks, List.flatMap_cons, hParts, turnsOf]
      · rename_i hDeclaration
        have hNone : ¬ (path.child index = [] ∨ Run.isDeclaration kind = true) := by
          simp [Path.child, hDeclaration]
        rw [if_neg hNone, List.nil_append] at hMarks
        rw [← hMarks, hParts, turnsOf]

end Node

/-- What a file asks for, by the way down. -/
theorem schedule_eq_turnsOfAll (rules : List ActiveRule) {root : Node} (hFile : root.kind = .file) :
    schedule rules root =
      roundAt (ActiveRule.listening rules) (root.suppressedAt []) [] root.payload .file ++
        Node.turnsOfAll (ActiveRule.listening rules) [] (root.suppressedAt []) 0 root.children := by
  have hRoot : root.descendant? [] = some root := rfl
  have hTurns : ∀ place child, root.children[place]? = some child →
      child.turnsFrom (ActiveRule.listening rules) (Path.child [] (0 + place))
        (root.suppressedAt []) = Node.turnsOf (ActiveRule.listening rules) root
          (Node.preorderFrom (Path.child [] (0 + place)) child) := by
    intro place child hChild
    refine Node.turnsFrom_eq_turnsOf _ ?_
    rw [Node.descendant?_child hRoot, Nat.zero_add]
    exact hChild
  have hParts := Node.turnsOfAll_eq_turnsOf _ root.children 0 hTurns
  rw [schedule, Node.declarations, Node.preorder, Node.preorderFrom_eq,
    List.filter_cons_of_neg (by simp [hFile, Run.isDeclaration]), hParts, Node.turnsOf]

end UiLint
