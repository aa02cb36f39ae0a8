import Mathlib.Data.List.Forall2
import Mathlib.Data.List.Induction
import UiLint.Proofs.Checks.Notes
import UiLint.Proofs.Engine.TextSplice
import UiLint.Proofs.Sketch.ReadBack

/-! Default values that are given to the parameters of a function in one call, for the function or for
what it is declared in. However many of them there are and in whatever order, each parameter ends up
with the last value given for it. -/
namespace UiLint

open List (Forall₂)

namespace Node

/-- The node with a default value, if it is a parameter. -/
def withDefault (node : Node) (expression : String) : Node :=
  (node.setDefault? expression).getD node

theorem setDefault?_of_parameter {node : Node} (hKind : node.kind = .parameter)
    (expression : String) : node.setDefault? expression = some (node.withDefault expression) := by
  rw [withDefault, setDefault?, if_pos hKind]
  cases node.children.findIdx? (·.kind == .defaultValue) <;> rfl

theorem withDefault_of_other {node : Node} (hKind : node.kind ≠ .parameter) (expression : String) :
    node.withDefault expression = node := by
  rw [withDefault, setDefault?, if_neg hKind, Option.getD_none]

theorem withDefault_of_some {node : Node} {index : Nat} (hKind : node.kind = .parameter)
    (hIndex : node.children.findIdx? (·.kind == .defaultValue) = some index) (expression : String) :
    node.withDefault expression =
      { node with children := node.children.set index (defaultValue expression) } := by
  rw [withDefault, setDefault?, if_pos hKind, hIndex, Option.getD_some]

theorem withDefault_of_none {node : Node} (hKind : node.kind = .parameter)
    (hNone : node.children.findIdx? (·.kind == .defaultValue) = none) (expression : String) :
    node.withDefault expression =
      { node with children := node.children ++ [defaultValue expression] } := by
  rw [withDefault, setDefault?, if_pos hKind, hNone, Option.getD_some]

theorem header_withDefault (node : Node) (expression : String) :
    (node.withDefault expression).kind = node.kind ∧
      (node.withDefault expression).payload = node.payload := by
  by_cases hKind : node.kind = .parameter
  · cases hIndex : node.children.findIdx? (·.kind == .defaultValue) with
    | none =>
        rw [withDefault_of_none hKind hIndex]
        exact ⟨rfl, rfl⟩
    | some index =>
        rw [withDefault_of_some hKind hIndex]
        exact ⟨rfl, rfl⟩
  · rw [withDefault_of_other hKind]
    exact ⟨rfl, rfl⟩

theorem shape_withDefault (node : Node) (expression : String) :
    (node.withDefault expression).shape = node.shape.withDefault expression := by
  rw [withDefault, withDefault, ← shape_setDefault?]
  cases node.setDefault? expression <;> rfl

theorem WellFormed.withDefault {node : Node} (h : node.WellFormed) (expression : String) :
    (node.withDefault expression).WellFormed := by
  rw [Node.withDefault]
  cases hChanged : node.setDefault? expression with
  | none => exact h
  | some changed => exact h.setDefault? hChanged

/-- Where a default value is found that has been given: where there was one, or at the end. -/
theorem findIdx?_withDefault {node : Node} (hKind : node.kind = .parameter) (expression : String) :
    (node.withDefault expression).children.findIdx? (·.kind == .defaultValue) =
      some ((node.children.findIdx? (·.kind == .defaultValue)).getD node.children.length) := by
  have hNew : ((defaultValue expression).kind == Kind.defaultValue) = true := rfl
  cases hIndex : node.children.findIdx? (·.kind == .defaultValue) with
  | none =>
      rw [withDefault_of_none hKind hIndex]
      simp [List.findIdx?_append, hIndex, List.findIdx?_cons, hNew]
  | some index =>
      obtain ⟨hLess, -, hBefore⟩ := List.findIdx?_eq_some_iff_getElem.mp hIndex
      rw [withDefault_of_some hKind hIndex, Option.getD_some, List.findIdx?_eq_some_iff_getElem]
      refine ⟨by rwa [List.length_set], by simp [hNew], fun place hPlace => ?_⟩
      simpa [List.getElem_set_ne (Nat.ne_of_gt hPlace)] using hBefore place hPlace

/-- The default value that has been given is the one that is found. -/
theorem defaultPart?_withDefault {node : Node} (hKind : node.kind = .parameter)
    (expression : String) :
    ∃ index, (node.withDefault expression).defaultPart? = some (defaultValue expression, index) := by
  obtain ⟨_, -, hBefore⟩ :=
    List.findIdx?_eq_some_iff_getElem.mp (findIdx?_withDefault hKind expression)
  refine ⟨(node.children.findIdx? (·.kind == .defaultValue)).getD node.children.length,
    firstOfKind?_eq_some_iff.mpr ⟨?_, rfl, fun place other hPlace hOther => ?_⟩⟩
  · cases hIndex : node.children.findIdx? (·.kind == .defaultValue) with
    | none =>
        rw [withDefault_of_none hKind hIndex]
        simp
    | some index =>
        obtain ⟨hInside, -⟩ := List.findIdx?_eq_some_iff_getElem.mp hIndex
        rw [withDefault_of_some hKind hIndex]
        simp [hInside]
  · obtain ⟨_, rfl⟩ := List.getElem?_eq_some_iff.mp hOther
    simpa using hBefore place hPlace

/-- Of two default values the second one stays. -/
theorem withDefault_withDefault (node : Node) (first second : String) :
    (node.withDefault first).withDefault second = node.withDefault second := by
  by_cases hKind : node.kind = .parameter
  · have hAgain := findIdx?_withDefault hKind first
    have hSame := (header_withDefault node first).1.trans hKind
    rw [withDefault_of_some hSame hAgain]
    cases hIndex : node.children.findIdx? (·.kind == .defaultValue) with
    | none =>
        rw [withDefault_of_none hKind hIndex, withDefault_of_none hKind hIndex]
        simp
    | some index =>
        rw [withDefault_of_some hKind hIndex, withDefault_of_some hKind hIndex]
        simp
  · rw [withDefault_of_other hKind, withDefault_of_other hKind]

/-- The grandchild at a path with the default value that is given for it. -/
def withValue (values : Path → Option String) (path : Path) (node : Node) : Node :=
  (values path).elim node node.withDefault

/-- The function with the default values that are given for its parameters, by their paths. -/
def withDefaults (node : Node) (values : Path → Option String) : Node :=
  { node with
    children := node.children.mapIdx fun i part =>
      { part with children := part.children.mapIdx fun j => withValue values [i, j] } }

theorem header_withValue (values : Path → Option String) (path : Path) (node : Node) :
    (node.withValue values path).kind = node.kind ∧
      (node.withValue values path).payload = node.payload := by
  rw [withValue]
  cases values path with
  | none => exact ⟨rfl, rfl⟩
  | some expression => exact header_withDefault node expression

/-- A default value that is given on top of another one takes its place. -/
theorem withDefault_withValue (values : Path → Option String) (path : Path) (node : Node)
    (expression : String) :
    (node.withValue values path).withDefault expression = node.withDefault expression := by
  rw [withValue]
  cases values path with
  | none => rfl
  | some first => exact withDefault_withDefault node first expression

theorem WellFormed.withValue {node : Node} (h : node.WellFormed) (values : Path → Option String)
    (path : Path) : (node.withValue values path).WellFormed := by
  rw [Node.withValue]
  cases values path with
  | none => exact h
  | some expression => exact h.withDefault expression

theorem withValue_congr {values others : Path → Option String} {path : Path}
    (hSame : values path = others path) : withValue values path = withValue others path := by
  funext node
  rw [withValue, withValue, hSame]

theorem withDefaults_none (node : Node) : node.withDefaults (fun _ => none) = node := by
  have hSame {change : Nat → Node → Node} (hChange : ∀ index child, change index child = child)
      (children : List Node) : children.mapIdx change = children := by
    apply List.ext_getElem?
    intro place
    rw [List.getElem?_mapIdx]
    cases children[place]? with
    | none => rfl
    | some child => exact congrArg some (hChange place child)
  have hPart (i : Nat) (part : Node) : ({ part with
      children := part.children.mapIdx fun j => withValue (fun _ => none) [i, j] } : Node) = part := by
    have hChild : ∀ j child, withValue (fun _ => none) [i, j] child = child := fun _ _ => rfl
    rw [hSame hChild]
    cases part
    rfl
  rw [withDefaults, hSame hPart]
  cases node
  rfl

theorem WellFormed.withDefaults {node : Node} (h : node.WellFormed)
    (values : Path → Option String) : (node.withDefaults values).WellFormed := by
  refine .intro h.fits (fun hKind => ?_) fun part hPart => ?_
  · rw [Node.withDefaults, h.leaf hKind]
    rfl
  · obtain ⟨i, hIndex, rfl⟩ := List.mem_mapIdx.mp hPart
    have hOld := h.parts _ (List.getElem_mem hIndex)
    refine .intro hOld.fits (fun hKind => ?_) fun child hChild => ?_
    · rw [hOld.leaf hKind]
      rfl
    · obtain ⟨j, hPlace, rfl⟩ := List.mem_mapIdx.mp hChild
      exact (hOld.parts _ (List.getElem_mem hPlace)).withValue values _

theorem descendant?_withDefaults (node : Node) (values : Path → Option String) (i j : Nat) :
    (node.withDefaults values).descendant? [i, j] =
      (node.descendant? [i, j]).map (withValue values [i, j]) := by
  simp only [descendant?_cons, withDefaults, List.getElem?_mapIdx]
  cases node.children[i]? with
  | none => rfl
  | some part =>
      simp only [Option.map_some, Option.bind_some, List.getElem?_mapIdx]
      cases part.children[j]? <;> rfl

/-- Giving one more default value. -/
theorem replaceAt_withDefaults {node child : Node} {i j : Nat}
    (hChild : node.descendant? [i, j] = some child) (values : Path → Option String)
    (expression : String) :
    (node.withDefaults values).replaceAt [i, j] (child.withDefault expression) =
      node.withDefaults (Function.update values [i, j] (some expression)) := by
  have hElsewhere {path : Path} (hOther : path ≠ [i, j]) :
      withValue (Function.update values [i, j] (some expression)) path = withValue values path :=
    withValue_congr (Function.update_of_ne hOther _ _)
  obtain ⟨part, hPart, hInner⟩ := descendant?_cons_eq_some_iff.mp hChild
  obtain ⟨found, hThere, hFound⟩ := descendant?_cons_eq_some_iff.mp hInner
  obtain rfl : found = child := Option.some.inj hFound
  rw [replaceAt, withDefaults, withDefaults]
  simp only [mk.injEq, true_and]
  apply List.ext_getElem?
  intro k
  rw [List.getElem?_modify, List.getElem?_mapIdx, List.getElem?_mapIdx]
  by_cases hList : i = k
  · subst hList
    simp only [hPart, Option.map_some, if_true, Option.map_eq_map, replaceAt, Option.some.injEq,
      mk.injEq, true_and]
    apply List.ext_getElem?
    intro l
    rw [List.getElem?_modify, List.getElem?_mapIdx, List.getElem?_mapIdx]
    by_cases hPlace : j = l
    · subst hPlace
      simp [hThere, withValue]
    · have hOther : [i, l] ≠ [i, j] := by simp [Ne.symm hPlace]
      simp only [hElsewhere hOther, if_neg hPlace, id_map']
  · have hOther (l : Nat) : [k, l] ≠ [i, j] := by simp [Ne.symm hList]
    simp only [hElsewhere (hOther _), if_neg hList, id_map']

/-- The entries of a list that has been mapped by index. -/
theorem zipIdx_mapIdx {α β : Type} (f : Nat → α → β) (items : List α) :
    (items.mapIdx f).zipIdx = items.zipIdx.map fun entry => (f entry.2 entry.1, entry.2) := by
  apply List.ext_getElem?
  intro place
  simp [List.getElem?_zipIdx, Function.comp_def]

theorem firstOfKind?_withDefaults (node : Node) (values : Path → Option String) (kind : Kind) :
    (node.withDefaults values).firstOfKind? kind = (node.firstOfKind? kind).map fun entry =>
      ({ entry.1 with
        children := entry.1.children.mapIdx fun j => withValue values [entry.2, j] }, entry.2) := by
  rw [firstOfKind?, withDefaults, zipIdx_mapIdx, List.find?_map, firstOfKind?]
  rfl

/-- The parameters are the same ones, with the default values that are given for them. -/
theorem parameters_withDefaults (node : Node) (values : Path → Option String) :
    (node.withDefaults values).parameters = node.parameters.map fun parameter =>
      { parameter with node := parameter.node.withValue values parameter.path } := by
  rw [parameters, parameters, parameterList?, parameterList?, firstOfKind?_withDefaults]
  cases node.firstOfKind? .parameterList with
  | none => rfl
  | some entry =>
      obtain ⟨list, i⟩ := entry
      have hKind (path : Path) (child : Node) : (child.withValue values path).kind = child.kind :=
        (header_withValue values path child).1
      have hPayload (path : Path) (child : Node) :
          (child.withValue values path).payload = child.payload :=
        (header_withValue values path child).2
      simp only [Option.map_some, partsWith, nonTokens, zipIdx_mapIdx, List.filter_map,
        List.filterMap_map, List.map_filterMap, Function.comp_def, hKind, hPayload, Option.map_map]

theorem firstOfKind?_shape (node : Node) (kind : Kind) :
    node.shape.firstOfKind? kind =
      (node.firstOfKind? kind).map fun entry => (entry.1.shape, entry.2) := by
  rw [firstOfKind?, children_shape, List.zipIdx_map, List.find?_map, firstOfKind?]
  simp only [Function.comp_def, Prod.map_fst, kind_shape]
  rfl

theorem defaultText?_shape (node : Node) : node.shape.defaultText? = node.defaultText? := by
  rw [defaultText?, defaultPart?, firstOfKind?_shape, Option.map_map, defaultText?, defaultPart?]
  simp only [Function.comp_def, text_shape]

theorem hasDefault_shape (node : Node) : node.shape.hasDefault = node.hasDefault := by
  rw [hasDefault, defaultPart?, firstOfKind?_shape, Option.isSome_map, hasDefault, defaultPart?]

theorem parameters_shape (node : Node) :
    node.shape.parameters = node.parameters.map fun parameter =>
      { parameter with node := parameter.node.shape } := by
  rw [parameters, parameters, parameterList?, parameterList?, firstOfKind?_shape]
  cases node.firstOfKind? .parameterList with
  | none => rfl
  | some entry =>
      obtain ⟨list, i⟩ := entry
      simp only [Option.map_some, partsWith, nonTokens, children_shape, List.zipIdx_map,
        List.filter_map, List.filterMap_map, List.map_filterMap, Function.comp_def, Prod.map_fst,
        Prod.map_snd, id_eq, kind_shape, payload_shape, Option.map_map]

theorem kind_of_mem_parameters {node : Node} (h : node.WellFormed)
    {parameter : Placed ParameterHeader} (hParameter : parameter ∈ node.parameters) :
    parameter.node.kind = .parameter := by
  obtain ⟨i, j, -, hThere, hPayload⟩ := mem_parameters hParameter
  have hFits := (h.descendant hThere).fits
  rw [hPayload] at hFits
  simpa [Payload.fits] using hFits

end Node

namespace Edit

/-- The edit that gives the parameter at a path a default value. -/
def ofDefault (entry : Path × String) : Edit :=
  ⟨entry.1, .defaultValue entry.2⟩

/-- The last expression that is given for a path. -/
def lastGiven? (given : List (Path × String)) (path : Path) : Option String :=
  (given.filter (·.1 == path)).getLast?.map (·.2)

theorem lastGiven?_concat (given : List (Path × String)) (entry : Path × String) :
    lastGiven? (given ++ [entry]) =
      Function.update (lastGiven? given) entry.1 (some entry.2) := by
  funext path
  rw [lastGiven?, List.filter_append]
  by_cases hPath : path = entry.1
  · subst hPath
    simp
  · have hOther : (entry.1 == path) = false := by simpa using Ne.symm hPath
    rw [Function.update_of_ne hPath, List.filter_singleton, hOther]
    simp [lastGiven?]

/-- One more default value for a parameter that may have been given others. -/
theorem redraft?_withDefaults {function child : Node} (h : function.WellFormed) {i j : Nat}
    (hChild : function.descendant? [i, j] = some child) (hKind : child.kind = .parameter)
    (values : Path → Option String) (expression : String) (start : Nat) :
    (ofDefault ([i, j], expression)).redraft? ((function.withDefaults values).layout start) =
      some ((function.withDefaults (Function.update values [i, j] (some expression))).layout
        start) := by
  have hWell := h.withDefaults values
  have hThere := Node.descendant?_layout hWell start [i, j]
  rw [Node.descendant?_withDefaults, hChild, Option.map_some, Option.map_some] at hThere
  have hStill : ((child.withValue values [i, j]).layout
      (start + (function.withDefaults values).offsetAt [i, j])).kind = .parameter := by
    rw [Node.kind_layout, (Node.header_withValue values [i, j] child).1, hKind]
  simp only [redraft?, ofDefault, hThere, Change.result?, Node.setDefault?_of_parameter hStill,
    Option.map_some, Node.start_layout, Option.some.injEq]
  rw [← Node.replaceAt_withDefaults hChild]
  have hPart := h.descendant hChild
  apply Node.layout_eq_of_shape
  · exact (hWell.layout start).replaceAt
      (((hPart.withValue values _).layout _).withDefault expression) _
  · exact hWell.replaceAt (hPart.withDefault expression) _
  · rw [Node.shape_replaceAt, Node.shape_replaceAt, Node.shape_layout, Node.shape_withDefault,
      Node.shape_layout, ← Node.shape_withDefault, Node.withDefault_withValue]

/-- Default values that are given one after the other come to the last ones of each parameter. -/
theorem redraftAll?_ofDefault {function : Node} (h : function.Canonical)
    {given : List (Path × String)}
    (hGiven : ∀ entry ∈ given, ∃ parameter ∈ function.parameters, parameter.path = entry.1) :
    redraftAll? function (given.map ofDefault) =
      some ((function.withDefaults (lastGiven? given)).layout function.span.start) := by
  induction given using List.reverseRecOn with
  | nil =>
      have hNone : lastGiven? [] = fun _ => none := rfl
      rw [hNone, Node.withDefaults_none, h.laid]
      rfl
  | append_singleton given entry ih =>
      rw [List.forall_mem_append, List.forall_mem_singleton] at hGiven
      obtain ⟨hBefore, parameter, hParameter, hPath⟩ := hGiven
      obtain ⟨i, j, hPlace, hThere, -⟩ := Node.mem_parameters hParameter
      have hKind := Node.kind_of_mem_parameters h.wellFormed hParameter
      have hEntry : entry = ([i, j], entry.2) := by rw [← hPlace, hPath]
      have hStep := redraft?_withDefaults h.wellFormed hThere hKind (lastGiven? given) entry.2
        function.span.start
      rw [← hEntry] at hStep
      rw [List.map_append, redraftAll?_append, ih hBefore, Option.bind_some, List.map_singleton,
        redraftAll?, hStep, lastGiven?_concat, ← hPath, hPlace]
      rfl

/-- What becomes of a parameter when default values are given. It stays at its path with its name and
its type. If a value is given for it, the last one is its default value; otherwise nothing but its
offset changes. -/
structure Defaulted (given : List (Path × String)) (old new : Placed ParameterHeader) : Prop where
  path : new.path = old.path
  header : new.header = old.header
  value : ∀ expression, lastGiven? given old.path = some expression →
    new.node.hasDefault = true ∧ new.node.defaultText? = some (Text.trim expression)
  unchanged : lastGiven? given old.path = none → new.node = old.node.layout new.node.span.start

/-- A function with default values has the parameters that it had, each with its last value. -/
theorem forall₂_defaulted {function : Node} (h : function.WellFormed) (given : List (Path × String))
    (start : Nat) :
    Forall₂ (Defaulted given) function.parameters
      ((function.withDefaults (lastGiven? given)).layout start).parameters := by
  have hWell := h.withDefaults (lastGiven? given)
  have hShapes : Forall₂ (fun old new : Placed ParameterHeader => new.path = old.path ∧
      new.header = old.header ∧
      new.node.shape = (old.node.withValue (lastGiven? given) old.path).shape) function.parameters
      ((function.withDefaults (lastGiven? given)).layout start).parameters := by
    have hSame := Node.parameters_shape ((function.withDefaults (lastGiven? given)).layout start)
    rw [Node.shape_layout, Node.parameters_shape, Node.parameters_withDefaults, List.map_map,
      ← List.forall₂_eq_eq_eq, List.forall₂_map_left_iff, List.forall₂_map_right_iff] at hSame
    refine hSame.imp fun old new hEqual => ?_
    simp only [Function.comp_apply, Placed.mk.injEq] at hEqual
    exact ⟨hEqual.1.symm, hEqual.2.2.symm, hEqual.2.1.symm⟩
  refine List.forall₂_iff_zip.mpr ⟨hShapes.length_eq, fun {old new} hPair => ?_⟩
  obtain ⟨hPath, hHeader, hShape⟩ := List.forall₂_zip hShapes hPair
  obtain ⟨hOld, hNew⟩ := List.of_mem_zip hPair
  refine ⟨hPath, hHeader, fun expression hGiven => ?_, fun hNone => ?_⟩
  · have hKind := Node.kind_of_mem_parameters h hOld
    obtain ⟨index, hPart⟩ := Node.defaultPart?_withDefault hKind expression
    rw [Node.withValue, hGiven, Option.elim_some] at hShape
    constructor
    · rw [← Node.hasDefault_shape, hShape, Node.hasDefault_shape, Node.hasDefault, hPart]
      rfl
    · rw [← Node.defaultText?_shape, hShape, Node.defaultText?_shape]
      exact Node.defaultText?_of_text hPart (Node.text_defaultValue expression)
  · rw [Node.withValue, hNone, Option.elim_none] at hShape
    obtain ⟨i, j, -, hThere, -⟩ := Node.mem_parameters hOld
    obtain ⟨k, l, -, hFound, -⟩ := Node.mem_parameters hNew
    have hLaid := (hWell.canonical_layout start).descendant hFound
    rw [← Node.layout_eq_of_shape hLaid.1.wellFormed (h.descendant hThere) hShape, hLaid.1.laid]

/-- Nothing is given for a path that is not named. -/
theorem lastGiven?_eq_none {given : List (Path × String)} {path : Path}
    (hNone : ∀ entry ∈ given, entry.1 ≠ path) : lastGiven? given path = none := by
  rw [lastGiven?, List.filter_eq_nil_iff.mpr (by simpa using hNone)]
  rfl

/-- Values for the parameters of a function are told apart by the last one of each parameter. -/
theorem lastGiven?_eq_of_parameters {function : Node} {first second : List (Path × String)}
    (hFirst : ∀ entry ∈ first, ∃ parameter ∈ function.parameters, parameter.path = entry.1)
    (hSecond : ∀ entry ∈ second, ∃ parameter ∈ function.parameters, parameter.path = entry.1)
    (hLast : ∀ parameter ∈ function.parameters,
      lastGiven? first parameter.path = lastGiven? second parameter.path) :
    lastGiven? first = lastGiven? second := by
  funext path
  by_cases hPath : ∃ parameter ∈ function.parameters, parameter.path = path
  · obtain ⟨parameter, hParameter, rfl⟩ := hPath
    exact hLast parameter hParameter
  · rw [lastGiven?_eq_none, lastGiven?_eq_none]
    · rintro entry hEntry rfl
      exact hPath (hSecond entry hEntry)
    · rintro entry hEntry rfl
      exact hPath (hFirst entry hEntry)

/-- The default values of a function's parameters, given by a call for a node around the function. -/
theorem redraftAll?_lift_ofDefault {node function : Node} {below : Path} (h : node.Canonical)
    (hFunction : node.descendant? below = some function) {given : List (Path × String)}
    (hGiven : ∀ entry ∈ given, ∃ parameter ∈ function.parameters, parameter.path = entry.1) :
    redraftAll? node ((given.map ofDefault).map (lift below)) =
      some ((node.replaceAt below ((function.withDefaults (lastGiven? given)).layout
        function.span.start)).layout node.span.start) :=
  (redraftAll?_lift h.wellFormed h.laid hFunction
    (redraftAll?_ofDefault (h.descendant hFunction).1 hGiven)).1

/-- Default values for the parameters of a function are all accepted and given when they are asked for
in one call, for the function itself or for what it is declared in. Whatever their number and order,
every parameter stays with its name and type; it has the last value that was given for it, or is as
before if there was none. Other values with the same last one for each parameter lead to the same
result, offsets included. -/
theorem default_values_last_wins {tree : SourceTree} {node function : Node} (hTree : tree.Canonical)
    (scope below : Path) (hNode : tree.root.descendant? scope = some node)
    (hFunction : node.descendant? below = some function) (given : List (Path × String))
    (hGiven : ∀ entry ∈ given, ∃ parameter ∈ function.parameters, parameter.path = entry.1)
    (hFits : tree.text.utf8ByteSize + insertedSize (given.map ofDefault) < distanceBound) :
    (∀ entry ∈ given, Edit.within scope (scope ++ below ++ entry.1) (.defaultValue entry.2) =
      .ok ((ofDefault entry).lift below)) ∧
    ∃ next changed shifts after,
      applyAll scope node ((given.map ofDefault).map (lift below)) = .ok (next, shifts) ∧
      tree.replaceSubtree scope next = .ok after ∧ after.root.descendant? scope = some next ∧
      next.descendant? below = some changed ∧
      Forall₂ (Defaulted given) function.parameters changed.parameters ∧
      ∀ others : List (Path × String),
        (∀ entry ∈ others, ∃ parameter ∈ function.parameters, parameter.path = entry.1) →
        tree.text.utf8ByteSize + insertedSize (others.map ofDefault) < distanceBound →
        (∀ parameter ∈ function.parameters,
          lastGiven? others parameter.path = lastGiven? given parameter.path) →
        ∃ moves, applyAll scope node ((others.map ofDefault).map (lift below)) =
          .ok (next, moves) := by
  obtain ⟨hRoot, -⟩ := hTree.root
  obtain ⟨hCanonical, -⟩ := hRoot.descendant hNode
  have hWell := (hCanonical.descendant hFunction).1.wellFormed
  have hChanged := (hWell.withDefaults (lastGiven? given)).canonical_layout function.span.start
  have hAll := redraftAll?_lift_ofDefault hCanonical hFunction hGiven
  obtain ⟨hApply, hSwap⟩ := applyAll_replaceSubtree hTree hNode hAll
    (by rwa [insertedSize_map_lift])
  obtain ⟨hNext, hStart⟩ := canonical_redraftAll? hCanonical hAll
  refine ⟨fun entry _ => ?_, _, _, _, _, hApply, hSwap,
    descendant?_redraft hTree.wellFormed hTree.laid hNode hNext hStart,
    descendant?_redraft hCanonical.wellFormed hCanonical.laid hFunction hChanged
      (Node.start_layout ..), forall₂_defaulted hWell given _, fun others hOthers hFit hLast => ?_⟩
  · rw [within, Path.relativeTo?_eq_some_iff.mpr (List.append_assoc ..)]
    rfl
  · have hSame := lastGiven?_eq_of_parameters hOthers hGiven hLast
    have hAgain := redraftAll?_lift_ofDefault hCanonical hFunction hOthers
    rw [hSame] at hAgain
    exact ⟨_, (applyAll_replaceSubtree hTree hNode hAgain (by rwa [insertedSize_map_lift])).1⟩

/-- Called for the file, a rule gives two values for the first parameter of a function around one for
the second. They come to the same as the last two in the other order. An equals sign of the expression
itself is kept. -/
theorem default_values_last_wins_reshaping :
    ∃ tree function next changed shifts after moves,
      SourceTree.ofEvents Reshaping.events = .ok tree ∧
      tree.root.descendant? [0] = some function ∧
      applyAll [] tree.root
          (([([1, 1], "é"), ([1, 3], " = b "), ([1, 1], "A()")].map ofDefault).map (lift [0])) =
        .ok (next, shifts) ∧
      tree.replaceSubtree [] next = .ok after ∧ next.descendant? [0] = some changed ∧
      changed.parameters.map (fun parameter => parameter.node.defaultText?) =
        [some "A()", some "= b"] ∧
      applyAll [] tree.root (([([1, 1], "A()"), ([1, 3], " = b ")].map ofDefault).map (lift [0])) =
        .ok (next, moves) := by
  have hTree : SourceTree.ofEvents Reshaping.events = .ok _ := rfl
  obtain ⟨hCanonical, -⟩ := SourceTree.canonical_of_ofEvents hTree
  obtain ⟨-, next, changed, shifts, after, hApply, hSwap, -, hChanged, hParameters, hOthers⟩ :=
    default_values_last_wins hCanonical [] [0] rfl rfl
      [([1, 1], "é"), ([1, 3], " = b "), ([1, 1], "A()")] (by decide +kernel) (by decide +kernel)
  obtain ⟨moves, hMoves⟩ := hOthers [([1, 1], "A()"), ([1, 3], " = b ")] (by decide +kernel)
    (by decide +kernel) (by decide +kernel)
  refine ⟨_, _, next, changed, shifts, after, moves, hTree, rfl, hApply, hSwap, hChanged, ?_, hMoves⟩
  generalize changed.parameters = parameters at hParameters ⊢
  cases hParameters with
  | cons hFirst hRest =>
      cases hRest with
      | cons hSecond hNone =>
          cases hNone
          rw [List.map_cons, List.map_cons, List.map_nil, (hFirst.value "A()" rfl).2,
            (hSecond.value " = b " rfl).2]
          decide +kernel

end Edit

end UiLint
