import Mathlib.Data.List.Forall2
import UiLint.Proofs.Checks.HandleDefault
import UiLint.Proofs.Sketch.Build

/-! Sketches read back from their trees. What a sketch says of a file, a type, a function or a
parameter is what the parts of the tree say, at every depth of local functions and whatever the
names and texts are. -/
namespace UiLint

open List (Forall₂)

/-- The node is a token with the text. -/
structure Node.IsToken (text : String) (node : Node) : Prop where
  kind : node.kind = .token
  payload : node.payload = .token text

theorem Node.tokenText?_eq_some_iff {node : Node} {text : String} :
    node.tokenText? = some text ↔ node.payload = .token text := by
  rw [tokenText?]
  cases node.payload <;> simp [Payload.tokenText?]

theorem Node.IsToken.text {text : String} {node : Node} (h : node.IsToken text) :
    node.text = text := by
  rw [text_eq, h.payload]
  rfl

theorem Node.textOfAll_of_tokens {texts : List String} {nodes : List Node}
    (h : Forall₂ IsToken texts nodes) : textOfAll nodes = texts.foldr (· ++ ·) "" := by
  induction h with
  | nil => rfl
  | cons hToken _ ih => rw [textOfAll, hToken.text, ih, List.foldr_cons]

theorem Node.exists_text_of_tokens {texts : List String} {nodes : List Node}
    (h : Forall₂ IsToken texts nodes) : ∀ node ∈ nodes, ∃ text ∈ texts, node.IsToken text := by
  induction h with
  | nil => exact fun _ hNode => absurd hNode List.not_mem_nil
  | @cons text node texts nodes hToken _ ih =>
      refine List.forall_mem_cons.mpr ⟨⟨text, List.mem_cons_self, hToken⟩, fun other hOther => ?_⟩
      obtain ⟨found, hFound, hSame⟩ := ih other hOther
      exact ⟨found, List.mem_cons_of_mem _ hFound, hSame⟩

theorem Node.kind_of_tokens {texts : List String} {nodes : List Node}
    (h : Forall₂ IsToken texts nodes) : ∀ node ∈ nodes, node.kind = .token := by
  intro node hNode
  obtain ⟨_, -, hToken⟩ := exists_text_of_tokens h node hNode
  exact hToken.kind

namespace Node

/-- The nodes that are not tokens. -/
def inner (nodes : List Node) : List Node :=
  nodes.filter (·.kind != .token)

theorem inner_append (first second : List Node) :
    inner (first ++ second) = inner first ++ inner second :=
  List.filter_append ..

theorem inner_singleton {node : Node} (hKind : node.kind ≠ .token) : inner [node] = [node] := by
  simp [inner, hKind]

theorem inner_eq_nil {nodes : List Node} (h : ∀ node ∈ nodes, node.kind = .token) :
    inner nodes = [] := by
  rw [inner, List.filter_eq_nil_iff]
  intro node hNode
  simp [h node hNode]

theorem map_fst_nonTokens (node : Node) : node.nonTokens.map Prod.fst = inner node.children := by
  have hFilter := List.filter_map (l := node.children.zipIdx) (f := Prod.fst)
    (p := fun child : Node => child.kind != .token)
  rw [List.zipIdx_map_fst] at hFilter
  exact hFilter.symm

/-- Parts are listed as items are, if the children other than tokens are those of the items. -/
theorem forall₂_partsWith {α β Header : Type} {header? : Payload → Option Header}
    {select : α → Option β} {R : β → Placed Header → Prop} {items : List α} {node : Node}
    (h : Forall₂ (fun item child => Option.Rel
      (fun selected header => ∀ path, R selected ⟨path, child, header⟩)
      (select item) (header? child.payload)) items (inner node.children)) :
    Forall₂ R (items.filterMap select) (node.partsWith header?) := by
  rw [← map_fst_nonTokens, List.forall₂_map_right_iff] at h
  refine List.rel_filterMap ?_ h
  rintro item ⟨child, index⟩ hEntry
  simp only at hEntry ⊢
  generalize select item = selected? at hEntry
  generalize header? child.payload = found? at hEntry
  cases hEntry with
  | none => exact .none
  | some hListed => exact .some (hListed [index])

/-- The same where every item has its part. -/
theorem forall₂_partsWith_of_all {α Header : Type} {header? : Payload → Option Header}
    {R : α → Placed Header → Prop} {items : List α} {node : Node}
    (h : Forall₂ (fun item child => ∃ header, header? child.payload = some header ∧
      ∀ path, R item ⟨path, child, header⟩) items (inner node.children)) :
    Forall₂ R items (node.partsWith header?) := by
  rw [← List.filterMap_some (l := items)]
  refine forall₂_partsWith (h.imp fun item child hChild => ?_)
  obtain ⟨header, hHeader, hListed⟩ := hChild
  rw [hHeader]
  exact .some hListed

/-- The first child of a kind comes after children of other kinds. -/
theorem firstOfKind?_of_children {node part : Node} {before after : List Node} {kind : Kind}
    (hChildren : node.children = before ++ part :: after) (hKind : part.kind = kind)
    (hBefore : ∀ child ∈ before, child.kind ≠ kind) :
    node.firstOfKind? kind = some (part, before.length) := by
  rw [firstOfKind?_eq_some_iff, hChildren]
  refine ⟨by simp, hKind, fun k other hLess hOther => hBefore other ?_⟩
  rw [List.getElem?_append_left hLess] at hOther
  exact List.mem_of_getElem? hOther

/-- The name is the second token after the keyword if the first one reads otherwise. -/
theorem nameOffset_of_children {node keyword blank token : Node} {before after : List Node}
    {name : String} (hChildren : node.children = before ++ keyword :: blank :: token :: after)
    (hBefore : ∀ child ∈ before, child.payload ≠ .token "fun")
    (hKeyword : keyword.IsToken "fun") (hKind : blank.kind = .token)
    (hBlank : blank.payload ≠ .token name) (hToken : token.IsToken name) :
    node.nameOffset name = token.span.start := by
  have hTokens : node.children.filter (·.kind == .token) =
      before.filter (·.kind == .token) ++ keyword :: blank :: token ::
        after.filter (·.kind == .token) := by
    simp [hChildren, hKeyword.kind, hKind, hToken.kind]
  -- No token before the keyword is taken for it, so the search starts right behind the keyword.
  have hSkipped : ∀ child ∈ before.filter (·.kind == .token),
      (!child.tokenText? == some "fun") = true := by
    intro child hChild
    simpa [tokenText?_eq_some_iff] using hBefore child (List.mem_of_mem_filter hChild)
  have hHere : keyword.tokenText? = some "fun" := tokenText?_eq_some_iff.mpr hKeyword.payload
  have hNext : blank.tokenText? ≠ some name := fun hSame =>
    hBlank (tokenText?_eq_some_iff.mp hSame)
  have hThere : token.tokenText? = some name := tokenText?_eq_some_iff.mpr hToken.payload
  rw [nameOffset, hTokens, List.dropWhile_append_of_pos hSkipped]
  simp [hHere, hNext, hThere]

/-- The default value is the trimmed text behind the equals sign. -/
theorem defaultText?_of_text {node part : Node} {index : Nat} {expression : String}
    (hPart : node.defaultPart? = some (part, index)) (hText : part.text = " = " ++ expression) :
    node.defaultText? = some (Text.trim expression) := by
  have hBlank : Text.isBlank ' ' = true := by decide
  have hSign : Text.isBlank '=' = false := by decide
  have hLetters : part.text.toList = ' ' :: '=' :: ' ' :: expression.toList := by
    rw [hText, String.toList_append]
    rfl
  rw [defaultText?, hPart, Option.map_some, hLetters]
  simp [Text.trim, Text.trimmed, hBlank, hSign]

end Node

/-- The nodes that the events add have the property, wherever they are laid out. -/
def Gives (events : List Event) (P : List Node → Prop) : Prop :=
  ∃ nodes, Spells events nodes ∧
    ∀ laid : List Node, laid.map Node.shape = nodes.map Node.shape → P laid

namespace Gives

variable {events more : List Event} {P Q : List Node → Prop}

theorem mono (h : Gives events P) (hPQ : ∀ nodes, P nodes → Q nodes) : Gives events Q := by
  obtain ⟨nodes, hNodes, hLaid⟩ := h
  exact ⟨nodes, hNodes, fun laid hShape => hPQ laid (hLaid laid hShape)⟩

theorem nil : Gives [] (· = []) :=
  ⟨[], .nil, fun _ hShape => List.map_eq_nil_iff.mp hShape⟩

theorem append (h : Gives events P) (hMore : Gives more Q) :
    Gives (events ++ more) fun nodes =>
      ∃ first second, nodes = first ++ second ∧ P first ∧ Q second := by
  obtain ⟨nodes, hNodes, hLaid⟩ := h
  obtain ⟨others, hOthers, hOthersLaid⟩ := hMore
  refine ⟨_, hNodes.append hOthers, fun laid hShape => ?_⟩
  rw [List.map_append, List.map_eq_append_iff] at hShape
  obtain ⟨first, second, rfl, hFirst, hSecond⟩ := hShape
  exact ⟨first, second, rfl, hLaid first hFirst, hOthersLaid second hSecond⟩

theorem token (text : String) :
    Gives [.token text] fun nodes => ∃ node, nodes = [node] ∧ node.IsToken text := by
  refine ⟨_, .token text, fun laid hShape => ?_⟩
  obtain ⟨node, rfl, hNode⟩ := List.map_eq_singleton_iff.mp hShape
  refine ⟨node, rfl, ?_, ?_⟩
  · rw [← Node.kind_shape, hNode]
    rfl
  · rw [← Node.payload_shape, hNode]
    rfl

theorem tokens (texts : List String) :
    Gives (Sketch.tokens texts) (Forall₂ Node.IsToken texts) := by
  induction texts with
  | nil => exact nil.mono fun _ hNil => hNil ▸ .nil
  | cons text texts ih =>
      refine ((token text).append ih).mono ?_
      rintro _ ⟨_, rest, rfl, ⟨node, rfl, hNode⟩, hRest⟩
      exact .cons hNode hRest

/-- A node around events has nodes with the property as its children. -/
theorem inside (h : Gives events P) {kind : Kind} {payload : Payload} (hKind : kind ≠ .token)
    (hFits : payload.fits kind = true) :
    Gives (Sketch.inside kind payload events) fun nodes =>
      ∃ node, nodes = [node] ∧ node.kind = kind ∧ node.payload = payload ∧ P node.children := by
  obtain ⟨children, hChildren, hLaid⟩ := h
  refine ⟨_, hChildren.inside hKind hFits, fun laid hShape => ?_⟩
  obtain ⟨node, rfl, hNode⟩ := List.map_eq_singleton_iff.mp hShape
  refine ⟨node, rfl, ?_, ?_, hLaid node.children ?_⟩
  · rw [← Node.kind_shape, hNode, Node.kind_shape]
  · rw [← Node.payload_shape, hNode, Node.payload_shape]
  · rw [← Node.children_shape, hNode, Node.children_shape]

/-- A file around events. -/
theorem ofEvents (h : Gives events P) (header : FileHeader) :
    ∃ tree, SourceTree.ofEvents (Sketch.inside .file (.file header) events) = .ok tree ∧
      tree.root.payload = .file header ∧ P tree.root.children := by
  obtain ⟨children, hChildren, hLaid⟩ := h
  refine ⟨_, hChildren.ofEvents header, Node.payload_layout .., hLaid _ ?_⟩
  rw [← Node.children_shape, Node.shape_layout, Node.children_shape]

end Gives

namespace Sketch

/-- The parameter is read back: its name and type, whether it has a default value, and that value
without the blanks around it. -/
structure Parameter.IsListedAs (parameter : Parameter) (part : Placed ParameterHeader) : Prop where
  header : part.header = ⟨parameter.name, parameter.typeName⟩
  hasDefault : part.node.hasDefault = parameter.default.isSome
  defaultText : part.node.defaultText? = parameter.default.map Text.trim

/-- The name stands at the token right before the parameter list. -/
def NamedBeforeParameters (node : Node) (name : String) : Prop :=
  ∃ list index token, node.parameterList? = some (list, index + 1) ∧
    node.children[index]? = some token ∧ token.IsToken name ∧
    node.nameOffset name = token.span.start

mutual

/-- The function is read back: what it declares, its parameters and its statements in order, and
the place of its name unless the name or a modifier can be taken for another token. -/
inductive Function.IsShownBy : Function → Node → Prop
  | intro {header : FunctionHeader} {parameters : List Parameter} {statements : List Statement}
      {node : Node} (declared : node.payload = .function header)
      (listed : Forall₂ Parameter.IsListedAs parameters node.parameters)
      (body : Forall₂ Statement.IsShownBy statements (node.statements.map Prod.snd))
      (named : header.name ≠ " " → "fun" ∉ header.modifiers →
        NamedBeforeParameters node header.name) :
      Function.IsShownBy (.mk header parameters statements) node

/-- The statement is read back: a call with its header, a local function with all that is in it,
and any other text as such. -/
inductive Statement.IsShownBy : Statement → Node → Prop
  | call {call : Call} {node : Node} (called : node.payload = .call call.header) :
      Statement.IsShownBy (.call call) node
  | function {function : Function} {node : Node} (shown : Function.IsShownBy function node) :
      Statement.IsShownBy (.function function) node
  | other {text : String} {node : Node} (plain : node.payload = .plain) (same : node.text = text) :
      Statement.IsShownBy (.other text) node

end

/-- What the function declares. -/
def Function.header : Function → FunctionHeader
  | .mk header _ _ => header

/-- The function is listed with its header and shown by its node. -/
structure Function.IsListedAs (function : Function) (part : Placed FunctionHeader) : Prop where
  header : part.header = function.header
  shown : function.IsShownBy part.node

/-- The type is read back: what it declares, and its member functions in order. -/
structure TypeSketch.IsListedAs (type : TypeSketch) (part : Placed TypeHeader) : Prop where
  header : part.header = type.header
  functions : Forall₂ Function.IsListedAs type.functions part.node.functions

/-- The function that the declaration is. -/
def Item.function? : Item → Option Function
  | function declared => some declared
  | type _ => none

/-- The type that the declaration is. -/
def Item.type? : Item → Option TypeSketch
  | function _ => none
  | type declared => some declared

/-- The file is read back: its marks, its functions in order and its types in order. -/
structure File.IsShownBy (file : File) (tree : SourceTree) : Prop where
  header : tree.fileHeader? = some file.header
  functions : Forall₂ Function.IsListedAs (file.items.filterMap Item.function?) tree.root.functions
  types : Forall₂ TypeSketch.IsListedAs (file.items.filterMap Item.type?) tree.root.types

theorem markEvents_eq_tokens (target : String) (after : List String)
    (entries : List AnnotationEntry) :
    markEvents target after entries =
      tokens (entries.flatMap fun entry => writtenMark target entry :: after) := by
  rw [markEvents, tokens, List.map_flatMap]
  rfl

theorem modifierEvents_eq_tokens (modifiers : List String) :
    modifierEvents modifiers = tokens (modifiers.flatMap fun modifier => [modifier, " "]) := by
  rw [modifierEvents, tokens, List.map_flatMap]
  rfl

/-- The nodes other than tokens that the events add are those of the items. -/
def Lists {α : Type} (R : α → Node → Prop) (items : List α) (events : List Event) : Prop :=
  Gives events fun nodes => Forall₂ R items (Node.inner nodes)

namespace Lists

variable {α : Type} {R : α → Node → Prop} {items others : List α} {events more : List Event}

theorem tokens (texts : List String) : Lists R [] (Sketch.tokens texts) := by
  refine (Gives.tokens texts).mono fun nodes hTokens => ?_
  rw [Node.inner_eq_nil (Node.kind_of_tokens hTokens)]
  exact .nil

theorem marks (target : String) (after : List String) (entries : List AnnotationEntry) :
    Lists R [] (markEvents target after entries) := by
  rw [markEvents_eq_tokens]
  exact tokens _

theorem modifiers (words : List String) : Lists R [] (modifierEvents words) := by
  rw [modifierEvents_eq_tokens]
  exact tokens _

theorem append (h : Lists R items events) (hMore : Lists R others more) :
    Lists R (items ++ others) (events ++ more) := by
  refine (Gives.append h hMore).mono ?_
  rintro _ ⟨first, second, rfl, hFirst, hSecond⟩
  rw [Node.inner_append]
  exact List.rel_append hFirst hSecond

theorem append_tokens (h : Lists R items events) (texts : List String) :
    Lists R items (events ++ Sketch.tokens texts) := by
  simpa only [List.append_nil] using h.append (.tokens texts)

theorem imp {β : Type} {S : β → Node → Prop} {item : α} {other : β} (h : Lists R [item] events)
    (hRS : ∀ node, R item node → S other node) : Lists S [other] events := by
  refine Gives.mono h fun nodes hNodes => ?_
  obtain ⟨node, rest, hNode, hRest, hInner⟩ := List.forall₂_cons_left_iff.mp hNodes
  obtain rfl := List.forall₂_nil_left_iff.mp hRest
  rw [hInner]
  exact .cons (hRS node hNode) .nil

theorem flatMap {render : α → List Event} (h : ∀ item ∈ items, Lists R [item] (render item)) :
    Lists R items (items.flatMap render) := by
  induction items with
  | nil => exact tokens []
  | cons item items ih =>
      rw [List.forall_mem_cons] at h
      rw [List.flatMap_cons]
      exact h.1.append (ih h.2)

/-- A node around events is that of an item if its children decide so. -/
theorem inside {P : List Node → Prop} (h : Gives events P) {kind : Kind} {payload : Payload}
    {item : α} (hKind : kind ≠ .token) (hFits : payload.fits kind = true)
    (hNode : ∀ node : Node, node.payload = payload → P node.children → R item node) :
    Lists R [item] (Sketch.inside kind payload events) := by
  refine (h.inside hKind hFits).mono ?_
  rintro _ ⟨node, rfl, rfl, hPayload, hChildren⟩
  rw [Node.inner_singleton hKind]
  exact .cons (hNode node hPayload hChildren) .nil

end Lists

/-- The node has the parameter's header, and wherever it is found it reads as the parameter. -/
def Parameter.IsShownBy (parameter : Parameter) (node : Node) : Prop :=
  node.payload = .parameter ⟨parameter.name, parameter.typeName⟩ ∧
    ∀ path, parameter.IsListedAs ⟨path, node, ⟨parameter.name, parameter.typeName⟩⟩

theorem Parameter.lists (parameter : Parameter) :
    Lists Parameter.IsShownBy [parameter] parameter.events := by
  obtain ⟨name, typeName, default⟩ := parameter
  cases default with
  | none =>
      refine Lists.inside ((Gives.tokens _).append .nil) (by decide) rfl ?_
      rintro node hPayload ⟨leading, _, hChildren, hLeading, rfl⟩
      have hPart : node.defaultPart? = none := by
        rw [← Option.isNone_iff_eq_none, ← Option.isSome_eq_false_iff, ← Node.hasDefault,
          Node.hasDefault_eq_false_iff, hChildren, List.append_nil]
        intro part hPart
        simp [Node.kind_of_tokens hLeading part hPart]
      refine ⟨hPayload, fun path => ⟨rfl, ?_, ?_⟩⟩
      · rw [Node.hasDefault, hPart]
        rfl
      · rw [Node.defaultText?, hPart]
        rfl
  | some expression =>
      refine Lists.inside ((Gives.tokens _).append ((Gives.tokens _).inside (by decide) rfl))
        (by decide) rfl ?_
      rintro node hPayload ⟨leading, _, hChildren, hLeading, part, rfl, hKind, hPlain, hTokens⟩
      have hPart : node.defaultPart? = some (part, leading.length) :=
        Node.firstOfKind?_of_children hChildren hKind fun child hChild => by
          simp [Node.kind_of_tokens hLeading child hChild]
      have hText : part.text = " = " ++ expression := by
        rw [Node.text_eq, hPlain]
        exact (Node.textOfAll_of_tokens hTokens).trans (by simp [← String.append_assoc])
      refine ⟨hPayload, fun path => ⟨rfl, ?_, ?_⟩⟩
      · rw [Node.hasDefault, hPart]
        rfl
      · exact Node.defaultText?_of_text hPart hText

theorem lists_parameterEvents (parameters : List Parameter) :
    Lists Parameter.IsShownBy parameters (parameterEvents parameters) := by
  fun_induction parameterEvents parameters with
  | case1 => exact .tokens []
  | case2 last => exact last.lists
  | case3 first rest hRest ih => exact first.lists.append (.append (.tokens [", "]) ih)

theorem Function.IsShownBy.payload {function : Function} {node : Node}
    (h : function.IsShownBy node) : node.payload = .function function.header := by
  cases h with
  | intro declared => exact declared

/-- The texts that a function starts with. -/
def leadingTexts (indent : String) (header : FunctionHeader) : List String :=
  (header.annotations.flatMap fun entry => [writtenMark "" entry, "\n", indent]) ++
    (header.modifiers.flatMap fun modifier => [modifier, " "])

theorem writtenMark_ne_fun (target : String) (entry : AnnotationEntry) :
    writtenMark target entry ≠ "fun" := by
  have hMark : ∀ text : String, "@" ++ text ≠ "fun" := by
    intro text hSame
    simpa using congrArg (fun text => text.toList.head?) hSame
  simp only [writtenMark, String.append_assoc]
  split
  · exact hMark _
  · exact hMark _

theorem append_indentStep_ne_fun (indent : String) : indent ++ indentStep ≠ "fun" := by
  intro hSame
  have hLast := congrArg (fun text => text.toList.getLast?) hSame
  simp [indentStep] at hLast

theorem fun_not_mem_leadingTexts {indent : String} {header : FunctionHeader}
    (hIndent : indent ≠ "fun") (hModifiers : "fun" ∉ header.modifiers) :
    "fun" ∉ leadingTexts indent header := by
  have hMark := fun entry => (writtenMark_ne_fun "" entry).symm
  simp [leadingTexts, hMark, hIndent.symm, hModifiers]

theorem tokens_leadingTexts (indent : String) (header : FunctionHeader) :
    tokens (leadingTexts indent header) =
      markEvents "" ["\n", indent] header.annotations ++ modifierEvents header.modifiers := by
  rw [markEvents_eq_tokens, modifierEvents_eq_tokens, leadingTexts, tokens, List.map_append]
  rfl

theorem Call.lists (call : Call) :
    Lists (fun call node => node.payload = .call call.header) [call] call.events := by
  rw [Call.events]
  refine Lists.inside (((Gives.tokens _).append (?arguments : Gives _ fun _ => True)).append
    (?lambda : Gives _ fun _ => True)) (by decide) rfl fun node hPayload _ => hPayload
  case arguments =>
    split
    · exact Gives.nil.mono fun _ _ => trivial
    · exact (Gives.tokens _).mono fun _ _ => trivial
  case lambda =>
    split
    · exact (Gives.tokens _).mono fun _ _ => trivial
    · exact Gives.nil.mono fun _ _ => trivial

/-- The children of a function, from its marks to its body. -/
structure FunctionParts (indent : String) (header : FunctionHeader) (parameters : List Parameter)
    (statements : List Statement) (node : Node) where
  leading : List Node
  keyword : Node
  blank : Node
  name : Node
  list : Node
  between : List Node
  body : Node
  children : node.children = leading ++ keyword :: blank :: name :: list :: (between ++ [body])
  leading_tokens : Forall₂ Node.IsToken (leadingTexts indent header) leading
  keyword_token : keyword.IsToken "fun"
  blank_token : blank.IsToken " "
  name_token : name.IsToken header.name
  list_kind : list.kind = .parameterList
  listed : Forall₂ Parameter.IsShownBy parameters (Node.inner list.children)
  between_kind : ∀ child ∈ between, child.kind = .token
  body_kind : body.kind = .body
  stated : Forall₂ Statement.IsShownBy statements (Node.inner body.children)

namespace FunctionParts

variable {indent : String} {header : FunctionHeader} {parameters : List Parameter}
  {statements : List Statement} {node : Node}
  (parts : FunctionParts indent header parameters statements node)
include parts

/-- Only tokens come before the parameter list. -/
theorem kind_of_mem_front {child : Node}
    (hChild : child ∈ parts.leading ++ [parts.keyword, parts.blank, parts.name]) :
    child.kind = .token := by
  simp only [List.mem_append, List.mem_cons, List.not_mem_nil, or_false] at hChild
  rcases hChild with hChild | rfl | rfl | rfl
  · exact Node.kind_of_tokens parts.leading_tokens child hChild
  · exact parts.keyword_token.kind
  · exact parts.blank_token.kind
  · exact parts.name_token.kind

theorem parameterList?_eq :
    node.parameterList? = some (parts.list, parts.leading.length + 2 + 1) := by
  have hSplit : node.children = (parts.leading ++ [parts.keyword, parts.blank, parts.name]) ++
      parts.list :: (parts.between ++ [parts.body]) := by
    rw [parts.children, List.append_assoc]
    rfl
  have hFirst := Node.firstOfKind?_of_children hSplit parts.list_kind fun child hChild => by
    simp [parts.kind_of_mem_front hChild]
  rw [List.length_append] at hFirst
  exact hFirst

/-- The search for the name ends at the token that was written for it. -/
theorem named (hIndent : indent ≠ "fun") (hName : header.name ≠ " ")
    (hModifiers : "fun" ∉ header.modifiers) : NamedBeforeParameters node header.name := by
  refine ⟨parts.list, _, parts.name, parts.parameterList?_eq, by simp [parts.children],
    parts.name_token, Node.nameOffset_of_children parts.children ?_ parts.keyword_token
      parts.blank_token.kind ?_ parts.name_token⟩
  · intro child hChild hFun
    obtain ⟨text, hText, hSame⟩ := Node.exists_text_of_tokens parts.leading_tokens child hChild
    rw [hSame.payload, Payload.token.injEq] at hFun
    exact fun_not_mem_leadingTexts hIndent hModifiers (hFun ▸ hText)
  · rw [parts.blank_token.payload]
    simpa using hName.symm

theorem parameters_listed : Forall₂ Parameter.IsListedAs parameters node.parameters := by
  have hParts : Forall₂ (fun parameter part => ∀ path,
        Parameter.IsListedAs parameter ⟨path, part.node, part.header⟩)
      parameters (parts.list.partsWith Payload.parameterHeader?) := by
    refine Node.forall₂_partsWith_of_all (parts.listed.imp fun parameter child hShown => ?_)
    exact ⟨_, by rw [hShown.1]; rfl, fun _ => hShown.2⟩
  rw [Node.parameters, parts.parameterList?_eq, List.forall₂_map_right_iff]
  exact hParts.imp fun _ _ hPart => hPart _

theorem statements_shown :
    Forall₂ Statement.IsShownBy statements (node.statements.map Prod.snd) := by
  have hSplit : node.children = (parts.leading ++ [parts.keyword, parts.blank, parts.name] ++
      parts.list :: parts.between) ++ parts.body :: [] := by
    simp [parts.children]
  have hBefore : ∀ child ∈ parts.leading ++ [parts.keyword, parts.blank, parts.name] ++
      parts.list :: parts.between, child.kind ≠ .body := by
    intro child hChild
    rw [List.mem_append, List.mem_cons] at hChild
    rcases hChild with hChild | rfl | hChild
    · simp [parts.kind_of_mem_front hChild]
    · simp [parts.list_kind]
    · simp [parts.between_kind child hChild]
  rw [Node.statements, Node.firstOfKind?_of_children hSplit parts.body_kind hBefore]
  simpa [Function.comp_def, ← Node.map_fst_nonTokens] using parts.stated

theorem isShownBy (hPayload : node.payload = .function header) (hIndent : indent ≠ "fun") :
    (Function.mk header parameters statements).IsShownBy node :=
  .intro hPayload parts.parameters_listed parts.statements_shown (parts.named hIndent)

end FunctionParts

mutual

/-- The events of a function add one node, which shows the function. The indentation of what is
inside it is never the keyword, so nothing is asked of deeper functions. -/
theorem Function.lists {indent : String} (hIndent : indent ≠ "fun") :
    (function : Function) → Lists Function.IsShownBy [function] (function.events indent)
  | .mk header parameters statements => by
      have hList : Lists Parameter.IsShownBy parameters
          (.token "(" :: (parameterEvents parameters ++ [.token ")"])) :=
        .append (.tokens ["("]) ((lists_parameterEvents parameters).append_tokens [")"])
      have hBody : Lists Statement.IsShownBy statements (tokens ["\x7b", "\n"] ++
          statementEvents (indent ++ indentStep) statements ++ tokens [indent ++ "\x7d"]) :=
        (Lists.append (.tokens _) (lists_statementEvents (append_indentStep_ne_fun indent)
          statements)).append_tokens _
      have hType : Gives (match header.returnType with
          | none => []
          | some typeName => tokens [":", " ", typeName]) (∀ child ∈ ·, child.kind = .token) := by
        split
        · exact (Gives.tokens []).mono fun _ => Node.kind_of_tokens
        · exact (Gives.tokens _).mono fun _ => Node.kind_of_tokens
      rw [Function.events, ← tokens_leadingTexts]
      refine Lists.inside (((((Gives.tokens _).append (.tokens _)).append
        (Gives.inside hList (by decide) rfl)).append hType).append
        ((Gives.token " ").append (Gives.inside hBody (by decide) rfl))) (by decide) rfl ?_
      -- The children in order: marks and modifiers, the head, the parameter list, the type, the body.
      rintro node hPayload ⟨_, _, hChildren, ⟨_, between, rfl, ⟨_, _, rfl, ⟨leading, head, rfl,
        hLeading, hHead⟩, list, rfl, hListKind, -, hListed⟩, hBetween⟩, _, _, rfl,
        ⟨last, rfl, hLast⟩, body, rfl, hBodyKind, -, hStated⟩
      obtain ⟨keyword, hKeyword, blank, name, ⟨hBlank, hName⟩, rfl⟩ : ∃ keyword,
          keyword.IsToken "fun" ∧ ∃ blank name, (blank.IsToken " " ∧ name.IsToken header.name) ∧
            head = [keyword, blank, name] := by
        simpa [List.forall₂_cons_left_iff] using hHead
      let parts : FunctionParts indent header parameters statements node :=
        { leading, keyword, blank, name, list, between := between ++ [last], body
          children := by simp [hChildren]
          leading_tokens := hLeading
          keyword_token := hKeyword
          blank_token := hBlank
          name_token := hName
          list_kind := hListKind
          listed := hListed
          between_kind := List.forall_mem_append.mpr
            ⟨hBetween, List.forall_mem_singleton.mpr hLast.kind⟩
          body_kind := hBodyKind
          stated := hStated }
      exact parts.isShownBy hPayload hIndent

theorem Statement.lists {indent : String} (hIndent : indent ≠ "fun") :
    (statement : Statement) → Lists Statement.IsShownBy [statement] (statement.events indent)
  | .call call => by
      rw [Statement.events]
      exact call.lists.imp fun _ hPayload => .call hPayload
  | .function function => by
      rw [Statement.events]
      exact (Function.lists hIndent function).imp fun _ hShown => .function hShown
  | .other text => by
      rw [Statement.events]
      refine Lists.inside (Gives.tokens [text]) (by decide) rfl fun node hPayload hTokens => ?_
      refine .other hPayload ?_
      rw [Node.text_eq, hPayload]
      exact (Node.textOfAll_of_tokens hTokens).trans (String.append_empty)

theorem lists_statementEvents {indent : String} (hIndent : indent ≠ "fun") :
    (statements : List Statement) →
      Lists Statement.IsShownBy statements (statementEvents indent statements)
  | [] => by
      rw [statementEvents]
      exact .tokens []
  | statement :: statements => by
      rw [statementEvents]
      exact .append (.tokens [indent]) (.append (Statement.lists hIndent statement)
        (.append (.tokens ["\n"]) (lists_statementEvents hIndent statements)))

end

/-- The node has the type's header, and wherever it is found it reads as the type. -/
def TypeSketch.IsShownBy (type : TypeSketch) (node : Node) : Prop :=
  node.payload = .type type.header ∧ ∀ path, type.IsListedAs ⟨path, node, type.header⟩

/-- Functions are listed as they stand. -/
theorem Function.forall₂_isListedAs {functions : List Function} {node : Node}
    (h : Forall₂ Function.IsShownBy functions (Node.inner node.children)) :
    Forall₂ Function.IsListedAs functions node.functions := by
  refine Node.forall₂_partsWith_of_all (h.imp fun function child hShown => ?_)
  exact ⟨function.header, by rw [hShown.payload]; rfl, fun _ => ⟨rfl, hShown⟩⟩

theorem TypeSketch.lists (type : TypeSketch) :
    Lists TypeSketch.IsShownBy [type] type.events := by
  have hFunctions : Lists Function.IsShownBy type.functions (type.functions.flatMap fun function =>
      .token indentStep :: (function.events indentStep ++ [.token "\n"])) :=
    .flatMap fun function _ => .append (.tokens [indentStep])
      ((function.lists (show indentStep ≠ "fun" by decide)).append_tokens ["\n"])
  refine Lists.inside (((((Lists.marks ..).append (.modifiers _)).append (.tokens _)).append
    hFunctions).append_tokens ["\x7d"]) (by decide) rfl fun node hPayload hShown => ?_
  exact ⟨hPayload, fun _ => ⟨rfl, Function.forall₂_isListedAs hShown⟩⟩

/-- The node is that of the declaration. -/
def Item.IsShownBy : Item → Node → Prop
  | function declared, node => declared.IsShownBy node
  | type declared, node => declared.IsShownBy node

theorem Item.lists (item : Item) : Lists Item.IsShownBy [item] item.events := by
  cases item with
  | function declared =>
      exact (declared.lists (show "" ≠ "fun" by decide)).imp fun _ hShown => hShown
  | type declared => exact declared.lists.imp fun _ hShown => hShown

theorem Item.forall₂_functions {items : List Item} {node : Node}
    (h : Forall₂ Item.IsShownBy items (Node.inner node.children)) :
    Forall₂ Function.IsListedAs (items.filterMap Item.function?) node.functions := by
  refine Node.forall₂_partsWith (h.imp fun item child hShown => ?_)
  cases item with
  | function declared =>
      rw [Function.IsShownBy.payload hShown]
      exact .some fun _ => ⟨rfl, hShown⟩
  | type declared =>
      rw [hShown.1]
      exact .none

theorem Item.forall₂_types {items : List Item} {node : Node}
    (h : Forall₂ Item.IsShownBy items (Node.inner node.children)) :
    Forall₂ TypeSketch.IsListedAs (items.filterMap Item.type?) node.types := by
  refine Node.forall₂_partsWith (h.imp fun item child hShown => ?_)
  cases item with
  | function declared =>
      rw [Function.IsShownBy.payload hShown]
      exact .none
  | type declared =>
      rw [hShown.1]
      exact .some hShown.2

/-- Every sketched file has a tree, and the tree shows what was sketched. -/
theorem File.build_reads_back (file : File) :
    ∃ tree, file.build = .ok tree ∧ file.IsShownBy tree := by
  obtain ⟨texts, hBlank⟩ : ∃ texts,
      (if file.header.annotations.isEmpty then [] else [.token "\n"]) = tokens texts := by
    split
    · exact ⟨[], rfl⟩
    · exact ⟨["\n"], rfl⟩
  have hItems : Lists Item.IsShownBy file.items
      (file.items.flatMap fun item => item.events ++ [.token "\n"]) :=
    .flatMap fun item _ => item.lists.append_tokens ["\n"]
  obtain ⟨tree, hTree, hPayload, hShown⟩ := Gives.ofEvents
    (((Lists.marks "file:" ["\n"] file.header.annotations).append (.tokens texts)).append hItems)
    file.header
  refine ⟨tree, ?_, ?_, Item.forall₂_functions hShown, Item.forall₂_types hShown⟩
  · rw [File.build, File.events, hBlank]
    exact hTree
  · rw [SourceTree.fileHeader?, hPayload]
    rfl

end Sketch

end UiLint
