import UiLint.Proofs.Tree.Linearization

/-! Misuse of the builder. It is noticed at the first event after which no tree is possible any
more, and not before; the complaint is about that event, and no later event changes it. Events that
leave nodes open have done nothing wrong, but do not make up a tree as they stand. -/
namespace UiLint

namespace Event

/-- The events begin a tree: they can be continued to the events of a well-formed node that is no
token. -/
def Viable (events : List Event) : Prop :=
  ∃ node : Node, node.WellFormed ∧ node.kind ≠ .token ∧ events <+: node.events

/-- The complaint about an event after which no tree is possible. A start whose payload fits can
only come too late. -/
def misuse : Event → BuildError
  | .start kind payload =>
    if kind = .token ∨ payload.fits kind = false then .kindMismatch kind else .multipleRoots
  | .token text => .tokenOutsideNode text
  | .finish => .unbalancedFinish

/-- Whether the event starts a node. -/
def isStart : Event → Bool
  | .start _ _ => true
  | _ => false

/-- How many nodes the events start. -/
def starts (events : List Event) : Nat :=
  events.countP isStart

/-- How many nodes the events finish. -/
def finishes (events : List Event) : Nat :=
  events.count .finish

/-- The events finish no node that was started before them. -/
def LeavesOpen (events : List Event) : Prop :=
  ∀ count, finishes (events.take count) ≤ starts (events.take count)

@[simp]
theorem starts_append (first second : List Event) :
    starts (first ++ second) = starts first + starts second :=
  List.countP_append

@[simp]
theorem finishes_append (first second : List Event) :
    finishes (first ++ second) = finishes first + finishes second :=
  List.count_append

@[simp]
theorem starts_start (kind : Kind) (payload : Payload) (events : List Event) :
    starts (.start kind payload :: events) = starts events + 1 :=
  List.countP_cons_of_pos rfl

@[simp]
theorem finishes_start (kind : Kind) (payload : Payload) (events : List Event) :
    finishes (.start kind payload :: events) = finishes events :=
  List.count_cons_of_ne (by simp)

/-- The events finish just the nodes that they start. -/
structure Balanced (events : List Event) : Prop where
  leavesOpen : LeavesOpen events
  even : starts events = finishes events

namespace Balanced

variable {events first second : List Event}

theorem nil : Balanced [] :=
  ⟨fun _ => by simp [starts, finishes], rfl⟩

theorem token (text : String) : Balanced [.token text] := by
  refine ⟨fun count => ?_, rfl⟩
  cases count <;> simp [starts, finishes]

theorem append (hFirst : Balanced first) (hSecond : Balanced second) :
    Balanced (first ++ second) := by
  refine ⟨fun count => ?_, by rw [starts_append, finishes_append, hFirst.even, hSecond.even]⟩
  rw [List.take_append, starts_append, finishes_append]
  exact Nat.add_le_add (hFirst.leavesOpen _) (hSecond.leavesOpen _)

theorem flatMap {α : Type} {items : List α} {told : α → List Event}
    (h : ∀ item ∈ items, Balanced (told item)) : Balanced (items.flatMap told) := by
  induction items with
  | nil => exact .nil
  | cons item items ih =>
      rw [List.forall_mem_cons] at h
      exact h.1.append (ih h.2)

theorem inside (h : Balanced events) (kind : Kind) (payload : Payload) :
    Balanced (Sketch.inside kind payload events) := by
  have hFinish : ∀ count, finishes ([.finish].take count) ≤ 1 := fun count =>
    Nat.le_trans List.count_le_length (List.length_take_le' count _)
  refine ⟨fun count => ?_, ?_⟩
  · cases count with
    | zero => simp [starts, finishes]
    | succ count =>
        have hBefore := h.leavesOpen count
        have hLast := hFinish (count - events.length)
        rw [Sketch.inside, List.take_succ_cons, starts_start, finishes_start, List.take_append,
          starts_append, finishes_append]
        omega
  · rw [Sketch.inside, starts_start, finishes_start, starts_append, finishes_append, h.even]
    rfl

/-- A node that is started within balanced events is finished by the rest of them. -/
theorem not_leavesOpen {before rest : List Event} {kind : Kind} {payload : Payload}
    (h : Balanced (before ++ .start kind payload :: rest)) : ¬ LeavesOpen rest := by
  intro hOpen
  have hRest := hOpen rest.length
  have hBefore := h.leavesOpen before.length
  have hEven := h.even
  rw [List.take_length] at hRest
  rw [List.take_left] at hBefore
  rw [starts_append, finishes_append, starts_start, finishes_start] at hEven
  omega

end Balanced

end Event

open Event

/-- The events of a well-formed node are balanced. -/
theorem Node.WellFormed.balanced_events {node : Node} (h : node.WellFormed) :
    Balanced node.events := by
  induction h with
  | @intro node fits leaf parts ih =>
      cases hText : node.payload.tokenText? with
      | some text =>
          rw [events_of_token hText]
          exact .token text
      | none =>
          rw [events_of_inner hText]
          exact (Balanced.flatMap ih).inside node.kind node.payload

/-- The events of a whole tree are taken in, and leave the tree behind as the root. -/
theorem Node.WellFormed.steps_events {node : Node} (h : node.WellFormed)
    (hKind : node.kind ≠ .token) : Assembly.steps {} node.events = .ok ⟨[], some node.shape⟩ := by
  have hChildren := Spells.flatMap_events fun child hChild => (h.parts child hChild).spells
  have hStart : Assembly.step {} (.start node.kind node.payload) =
      .ok ⟨[⟨node.kind, node.payload, []⟩], none⟩ := by
    simp [Assembly.step, hKind, h.fits]
  rw [events_of_inner (h.tokenText?_of_kind_ne hKind), Sketch.inside, Assembly.steps, hStart]
  simp only
  rw [hChildren, shape_eq]
  simp [Assembly.steps, Assembly.step, OpenNode.close]

namespace Assembly

variable {assembly last : Assembly} {events : List Event} {error : BuildError}

theorem sound_empty : Sound {} :=
  ⟨by simp, by simp⟩

theorem settled_empty : Settled {} :=
  fun _ => rfl

theorem Settled.steps (h : assembly.Sound) (hSettled : assembly.Settled)
    (hSteps : assembly.steps events = .ok last) : last.Settled := by
  induction events generalizing assembly with
  | nil =>
      cases hSteps
      exact hSettled
  | cons event events ih =>
      obtain ⟨next, hStep, hRest⟩ := steps_cons_eq_ok_iff.mp hSteps
      exact ih (h.step hStep) (told_step h hSettled hStep).1 hRest

theorem steps_append (events more : List Event) :
    assembly.steps (events ++ more) = match assembly.steps events with
      | .error error => .error error
      | .ok next => next.steps more := by
  induction events generalizing assembly with
  | nil => rfl
  | cons event events ih =>
      rw [List.cons_append, steps, steps]
      cases assembly.step event with
      | error error => rfl
      | ok next => exact ih

theorem steps_append_of_error (h : assembly.steps events = .error error) (more : List Event) :
    assembly.steps (events ++ more) = .error error := by
  rw [steps_append, h]

/-- An event is refused with the complaint about it, whatever has been put together so far. -/
theorem eq_misuse_of_step {event : Event} (h : assembly.step event = .error error) :
    error = event.misuse := by
  cases event with
  | start kind payload =>
      simp only [step] at h
      split at h
      · rename_i hMismatch
        cases h
        rw [misuse, if_pos hMismatch]
      · rename_i hFits
        split at h <;> cases h
        rw [misuse, if_neg hFits]
  | token text =>
      simp only [step] at h
      split at h <;> cases h
      rfl
  | finish =>
      simp only [step] at h
      split at h <;> cases h
      rfl

/-- The complaint about several events is about the first that is refused. -/
theorem exists_refused (h : assembly.steps events = .error error) :
    ∃ before event after next, events = before ++ event :: after ∧
      assembly.steps before = .ok next ∧ next.step event = .error error := by
  induction events generalizing assembly with
  | nil => cases h
  | cons event events ih =>
      rw [steps] at h
      cases hStep : assembly.step event with
      | error found =>
          rw [hStep] at h
          cases h
          exact ⟨[], event, events, assembly, rfl, rfl, hStep⟩
      | ok next =>
          rw [hStep] at h
          obtain ⟨before, later, after, reached, rfl, hBefore, hLater⟩ := ih h
          exact ⟨event :: before, later, after, reached, rfl, by rw [steps, hStep]; exact hBefore,
            hLater⟩

/-- A start opens a node, a finish closes one. -/
theorem length_opened_step {next : Assembly} {event : Event}
    (h : assembly.step event = .ok next) :
    next.opened.length + finishes [event] = assembly.opened.length + starts [event] := by
  cases takes_of_step h <;> rfl

theorem length_opened_steps (h : assembly.steps events = .ok last) :
    last.opened.length + finishes events = assembly.opened.length + starts events := by
  induction events generalizing assembly with
  | nil =>
      cases h
      rfl
  | cons event events ih =>
      obtain ⟨next, hStep, hSteps⟩ := steps_cons_eq_ok_iff.mp h
      have hFirst := length_opened_step hStep
      have hRest := ih hSteps
      rw [← List.singleton_append, starts_append, finishes_append]
      omega

/-- Open nodes can be finished, one after the other. -/
theorem exists_root_of_finishes {opened : List OpenNode} (hOpened : opened ≠ [])
    (root : Option Node) :
    ∃ node, steps ⟨opened, root⟩ (List.replicate opened.length .finish) =
      .ok ⟨[], some node⟩ := by
  induction hLength : opened.length generalizing opened with
  | zero => exact absurd (List.length_eq_zero_iff.mp hLength) hOpened
  | succ count ih =>
      match opened with
      | [last] =>
          cases hLength
          exact ⟨last.close, rfl⟩
      | inner :: outer :: rest =>
          exact ih (List.cons_ne_nil (outer.add inner.close) rest) (by simpa using hLength)

/-- A root that events leave behind is a whole tree. -/
theorem viable_of_root {root : Node} (h : steps {} events = .ok ⟨[], some root⟩) :
    root.WellFormed ∧ root.kind ≠ .token ∧ root.events = events := by
  have hWell := (Sound.steps sound_empty h).root root rfl
  have hEvents : root.events = events := by
    simpa [told] using told_steps sound_empty settled_empty h
  refine ⟨hWell, fun hKind => ?_, hEvents⟩
  -- A token by itself is one event, which is refused while no node is open.
  obtain ⟨text, hPayload⟩ := hWell.kind_eq_token_iff.mp hKind
  rw [← hEvents, Node.events_of_token (by rw [hPayload]; rfl)] at h
  cases h

theorem viable_of_ok (h : steps {} events = .ok last) : Viable events := by
  obtain ⟨opened, root⟩ := last
  cases opened with
  | cons inner outer =>
      obtain ⟨node, hFinished⟩ := exists_root_of_finishes (List.cons_ne_nil inner outer) root
      have hAll : steps {} (events ++ List.replicate (inner :: outer).length .finish) =
          .ok ⟨[], some node⟩ := by
        rw [steps_append, h]
        exact hFinished
      obtain ⟨hWell, hKind, hEvents⟩ := viable_of_root hAll
      exact ⟨node, hWell, hKind, _, hEvents.symm⟩
  | nil =>
      cases root with
      | some root =>
          obtain ⟨hWell, hKind, rfl⟩ := viable_of_root h
          exact ⟨root, hWell, hKind, List.prefix_rfl⟩
      | none =>
          have hNone : events = [] := by
            simpa [told] using (told_steps sound_empty settled_empty h).symm
          subst hNone
          exact ⟨Declared.file, (Node.isFileTree_iff.mp Declared.isFileTree_file).2, by decide,
            List.nil_prefix⟩

theorem exists_ok_of_viable (h : Viable events) : ∃ last, steps {} events = .ok last := by
  obtain ⟨node, hWell, hKind, more, hMore⟩ := h
  cases hSteps : steps {} events with
  | ok last => exact ⟨last, rfl⟩
  | error error =>
      have hAll := steps_append_of_error hSteps more
      rw [hMore, hWell.steps_events hKind] at hAll
      cases hAll

/-- Events are refused exactly if no tree begins with them. -/
theorem exists_error_iff : (∃ error, steps {} events = .error error) ↔ ¬ Viable events := by
  constructor
  · rintro ⟨error, hError⟩ hViable
    obtain ⟨last, hLast⟩ := exists_ok_of_viable hViable
    rw [hError] at hLast
    cases hLast
  · intro hHopeless
    cases hSteps : steps {} events with
    | error error => exact ⟨error, rfl⟩
    | ok last => exact absurd (viable_of_ok hSteps) hHopeless

/-- The innermost open node was started last among those that no event has finished. -/
theorem exists_start_of_opened {inner : OpenNode} {outer : List OpenNode} {root : Option Node}
    (h : steps {} events = .ok ⟨inner :: outer, root⟩) :
    ∃ before after, events = before ++ .start inner.kind inner.payload :: after ∧
      Balanced after := by
  have hSound : Sound ⟨inner :: outer, root⟩ := Sound.steps sound_empty h
  have hRoot : root = none := Settled.steps sound_empty settled_empty h (List.cons_ne_nil _ _)
  have hTold := told_steps sound_empty settled_empty h
  refine ⟨outer.reverse.flatMap OpenNode.told, inner.reversedChildren.reverse.flatMap Node.events,
    ?_, .flatMap fun child hChild => ?_⟩
  · simpa [told, hRoot, OpenNode.told] using hTold.symm
  · have hInner := hSound.opened inner List.mem_cons_self
    exact (hInner.children child (List.mem_reverse.mp hChild)).balanced_events

end Assembly

theorem SourceTree.ofEvents_of_error {events : List Event} {error : BuildError}
    (h : Assembly.steps {} events = .error error) : ofEvents events = .error error := by
  rw [ofEvents, h]

/-- The builder has an error after some events exactly if no tree begins with them. The error is
about the first event after which that is so: it is there once that event has been taken in, and
says what is wrong with it. It stays whatever follows, and is the outcome in the end. Events without
an error that leave nodes open do not make up a tree: the outcome says how many nodes have been
started and not finished, and what kind the one is that was started last among those that nothing
after them finishes. -/
theorem SourceTree.misuse_at_first_hopeless_event (events : List Event) :
    ((∃ error, Assembly.steps {} events = .error error) ↔ ¬ Viable events) ∧
    (∀ error, Assembly.steps {} events = .error error →
      (∃ before event after, events = before ++ event :: after ∧ Viable before ∧
        ¬ Viable (before ++ [event]) ∧ error = event.misuse ∧
        Assembly.steps {} (before ++ [event]) = .error error) ∧
      ∀ more, Assembly.steps {} (events ++ more) = .error error ∧
        ofEvents (events ++ more) = .error error) ∧
    ∀ assembly, Assembly.steps {} events = .ok assembly → assembly.opened ≠ [] →
      ∃ before kind payload after, events = before ++ .start kind payload :: after ∧
        LeavesOpen after ∧
        (∀ between later data rest, after = between ++ .start later data :: rest →
          ¬ LeavesOpen rest) ∧
        ofEvents events = .error (.unclosedNode kind (starts events - finishes events)) := by
  refine ⟨Assembly.exists_error_iff, fun error hError => ⟨?_, fun more => ?_⟩,
    fun assembly hSteps hOpened => ?_⟩
  · obtain ⟨before, event, after, next, rfl, hBefore, hStep⟩ := Assembly.exists_refused hError
    have hRefused : Assembly.steps {} (before ++ [event]) = .error error := by
      rw [Assembly.steps_append, hBefore]
      simp only [Assembly.steps, hStep]
    exact ⟨before, event, after, rfl, Assembly.viable_of_ok hBefore,
      Assembly.exists_error_iff.mp ⟨error, hRefused⟩, Assembly.eq_misuse_of_step hStep, hRefused⟩
  · have hMore := Assembly.steps_append_of_error hError more
    exact ⟨hMore, ofEvents_of_error hMore⟩
  · obtain ⟨opened, root⟩ := assembly
    cases opened with
    | nil => exact absurd rfl hOpened
    | cons inner outer =>
        obtain ⟨before, after, hEvents, hBalanced⟩ := Assembly.exists_start_of_opened hSteps
        refine ⟨before, inner.kind, inner.payload, after, hEvents, hBalanced.leavesOpen,
          fun between later data rest hAfter => ?_, ?_⟩
        · rw [hAfter] at hBalanced
          exact hBalanced.not_leavesOpen
        · have hCount := Assembly.length_opened_steps hSteps
          rw [List.length_cons, List.length_nil] at hCount
          have hDepth : starts events - finishes events = outer.length + 1 := by omega
          rw [ofEvents, hSteps, hDepth]
          rfl

namespace Astray

/-- A token after the end of the file, and a start that does not fit. -/
def late : List Event :=
  [.start .file (.file {}), .finish, .token "x", .start .file .plain]

/-- A body that is open inside a file, after another node that is finished. -/
def opened : List Event :=
  [.start .file (.file {}), .start .other .plain, .token "a", .finish, .start .body .plain,
    .token "b"]

end Astray

/-- The token is the first event that is one too many, whatever comes after it; the body is the
node that stays open. -/
theorem SourceTree.misuse_at_first_hopeless_event_astray :
    Assembly.steps {} Astray.late = .error (.tokenOutsideNode "x") ∧ ¬ Viable Astray.late ∧
      (∀ more, ofEvents (Astray.late ++ more) = .error (.tokenOutsideNode "x")) ∧
      ∃ assembly, Assembly.steps {} Astray.opened = .ok assembly ∧ assembly.opened ≠ [] ∧
        ∃ before payload after, Astray.opened = before ++ .start .body payload :: after ∧
          LeavesOpen after ∧ ofEvents Astray.opened = .error (.unclosedNode .body 2) := by
  have hLate : Assembly.steps {} Astray.late = .error (.tokenOutsideNode "x") := rfl
  have hOutcome : ofEvents Astray.opened = .error (.unclosedNode .body 2) := rfl
  obtain ⟨hIff, hSticks, -⟩ := misuse_at_first_hopeless_event Astray.late
  refine ⟨hLate, hIff.mp ⟨_, hLate⟩, fun more => ((hSticks _ hLate).2 more).2, _, rfl,
    List.cons_ne_nil _ _, ?_⟩
  obtain ⟨before, kind, payload, after, hEvents, hOpen, -, hError⟩ :=
    (misuse_at_first_hopeless_event Astray.opened).2.2 _ rfl (List.cons_ne_nil _ _)
  rw [hOutcome] at hError
  cases hError
  exact ⟨before, payload, after, hEvents, hOpen, hOutcome⟩

end UiLint
