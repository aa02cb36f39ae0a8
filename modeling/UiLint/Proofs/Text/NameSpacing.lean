import UiLint.Proofs.Text.SimpleName

/-! Spaces in qualified names. Of the spaces around the dots of a name, its simple name keeps those
between the last dot and what follows it, and no others. So it is in normal form exactly if there are
none of these, and two names that differ in spaces around their dots have the same simple name exactly
if they have the same spaces there. -/
namespace UiLint.Text

theorem dropEndWhile_append_of_ne_nil {α : Type} {p : α → Bool} {back : List α}
    (hBack : dropEndWhile p back ≠ []) (front : List α) :
    dropEndWhile p (front ++ back) = front ++ dropEndWhile p back := by
  have hKept : (back.reverse.dropWhile p).isEmpty = false := by
    simpa [dropEndWhile, List.isEmpty_eq_false_iff] using hBack
  rw [dropEndWhile, List.reverse_append, List.dropWhile_append, hKept]
  simp [dropEndWhile]

theorem trimmed_eq_nil_iff {cs : List Char} : trimmed cs = [] ↔ Blank cs := by
  constructor
  · intro hNone
    obtain ⟨left, right, hLeft, hRight, hSplit⟩ := exists_padding cs
    rw [hSplit, hNone, List.append_nil]
    exact hLeft.append hRight
  · intro hBlank
    rw [trimmed, List.dropWhile_eq_nil_iff.mpr hBlank]
    rfl

theorem trimmed_subset (cs : List Char) : trimmed cs ⊆ cs := by
  obtain ⟨left, right, -, -, hSplit⟩ := exists_padding cs
  intro c hc
  rw [hSplit]
  exact List.mem_append_left _ (List.mem_append_right _ hc)

namespace IsTrim

variable {cs : List Char}

theorem dropWhile_eq (h : IsTrim cs) : cs.dropWhile isBlank = cs := by
  cases cs with
  | nil => rfl
  | cons c cs => exact List.dropWhile_cons_of_neg (by simp [h.first c rfl])

theorem trimmed_eq (h : IsTrim cs) : trimmed cs = cs := by
  rw [trimmed, h.dropWhile_eq, ← List.append_nil cs, dropEndWhile_append_of_last h.last]
  rfl

/-- Blanks are told apart from a trimmed text behind them. -/
theorem takeWhile_append (h : IsTrim cs) {blanks : List Char} (hBlanks : Blank blanks) :
    (blanks ++ cs).takeWhile isBlank = blanks := by
  rw [List.takeWhile_append_of_pos hBlanks]
  cases cs with
  | nil => simp
  | cons c cs => simp [h.first c rfl]

/-- What begins with a blank is not trimmed. -/
theorem eq_nil_of_append {blanks : List Char} (h : IsTrim (blanks ++ cs)) (hBlanks : Blank blanks) :
    blanks = [] := by
  cases blanks with
  | nil => rfl
  | cons c blanks =>
      have hFirst := h.first c rfl
      rw [hBlanks c List.mem_cons_self] at hFirst
      cases hFirst

end IsTrim

/-- The parts of a qualified name, without the spaces around its dots and at its ends. -/
def nameParts (cs : List Char) : List (List Char) :=
  (cs.splitOn '.').map trimmed

/-- The last part of a qualified name, without the spaces around it. -/
def lastPart (cs : List Char) : List Char :=
  trimmed (afterLast '.' cs)

/-- The blanks between the last dot of a name and the part that follows it, if there are both. -/
def dotGap (cs : List Char) : List Char :=
  if '.' ∈ cs ∧ lastPart cs ≠ [] then (afterLast '.' cs).takeWhile isBlank else []

theorem afterLast_of_not_mem {cs : List Char} (hDot : '.' ∉ cs) : afterLast '.' cs = cs := by
  have hAll : afterLast '.' ([] ++ cs) = afterLast '.' [] ++ cs := afterLast_append hDot
  exact hAll

theorem afterLast_append_cons {front back : List Char} (hDot : '.' ∉ back) :
    afterLast '.' (front ++ '.' :: back) = back := by
  rw [List.append_cons, afterLast_append hDot, afterLast_concat, List.nil_append]

/-- A name without dots is its own last part, and another one is cut at its last dot. -/
theorem exists_lastDot (cs : List Char) :
    '.' ∉ cs ∨ ∃ front back, '.' ∉ back ∧ cs = front ++ '.' :: back := by
  rcases exists_afterLast '.' cs with hWhole | ⟨front, hFront⟩
  · rw [hWhole]
    exact .inl not_mem_afterLast
  · exact .inr ⟨front, _, not_mem_afterLast, by rwa [← List.append_cons] at hFront⟩

theorem getLast?_nameParts (cs : List Char) : (nameParts cs).getLast? = some (lastPart cs) := by
  rw [nameParts, lastPart, List.getLast?_map]
  rcases exists_lastDot cs with hDot | ⟨front, back, hDot, rfl⟩
  · rw [List.splitOn_eq_singleton hDot, afterLast_of_not_mem hDot]
    rfl
  · rw [List.splitOn_append_cons_self, List.splitOn_eq_singleton hDot, afterLast_append_cons hDot,
      List.getLast?_concat]
    rfl

theorem isTrim_lastPart (cs : List Char) : IsTrim (lastPart cs) :=
  isTrim_trimmed _

theorem not_mem_lastPart (cs : List Char) : '.' ∉ lastPart cs :=
  fun hDot => not_mem_afterLast (trimmed_subset _ hDot)

theorem blank_dotGap (cs : List Char) : Blank (dotGap cs) := by
  rw [dotGap]
  split
  · exact fun c hc => List.mem_takeWhile_imp hc
  · exact nofun

theorem dotGap_of_lastPart {cs : List Char} (hNone : lastPart cs = []) : dotGap cs = [] :=
  if_neg fun hBoth => hBoth.2 hNone

theorem lastPart_append_cons {front back : List Char} (hDot : '.' ∉ back) :
    lastPart (front ++ '.' :: back) = trimmed back := by
  rw [lastPart, afterLast_append_cons hDot]

/-- Without the blanks at its end, the text behind the last dot is the last part and the gap
before it. -/
theorem dropEndWhile_eq_dotGap_append {front back : List Char} (hDot : '.' ∉ back) :
    dropEndWhile isBlank back =
      dotGap (front ++ '.' :: back) ++ lastPart (front ++ '.' :: back) := by
  by_cases hNone : trimmed back = []
  · rw [dotGap_of_lastPart (by rw [lastPart_append_cons hDot, hNone]), lastPart_append_cons hDot, hNone,
      dropEndWhile_eq_nil (trimmed_eq_nil_iff.mp hNone), List.append_nil]
  · rw [dotGap, if_pos ⟨by simp, by rwa [lastPart_append_cons hDot]⟩, lastPart_append_cons hDot,
      afterLast_append_cons hDot, trimmed, ← dropEndWhile_append_of_ne_nil hNone,
      List.takeWhile_append_dropWhile]

/-- A simple name is the last part of the name behind the gap before it. -/
theorem toList_simpleName_eq (name : String) :
    (simpleName name).toList = dotGap name.toList ++ lastPart name.toList := by
  rw [toList_simpleName]
  rcases exists_lastDot name.toList with hDot | ⟨front, back, hDot, hName⟩
  · rw [dotGap, if_neg fun hBoth => hDot hBoth.1, lastPart, afterLast_of_not_mem hDot,
      afterLast_of_not_mem fun hMember => hDot (trimmed_subset _ hMember), List.nil_append]
  · obtain ⟨blanks, -, hBack⟩ := exists_dropEndWhile isBlank back
    have hKept : '.' ∉ dropEndWhile isBlank back := fun hMember =>
      hDot (by rw [hBack]; exact List.mem_append_left _ hMember)
    rw [hName, ← dropEndWhile_eq_dotGap_append hDot, List.append_cons,
      trimmed_append _ _ (by simp) (by decide), List.append_assoc, List.singleton_append,
      afterLast_append_cons hKept]

section Normal

variable (name : String)

theorem not_mem_simpleName : '.' ∉ (simpleName name).toList := by
  rw [toList_simpleName]
  exact not_mem_afterLast

/-- Simple names do not end in blanks. -/
theorem last_simpleName : ∀ c ∈ (simpleName name).toList.getLast?, isBlank c = false := by
  rw [toList_simpleName_eq]
  by_cases hNone : lastPart name.toList = []
  · simp [dotGap_of_lastPart hNone, hNone]
  · rw [List.getLast?_append_of_ne_nil _ hNone]
    exact (isTrim_lastPart _).last

/-- A simple name is trimmed exactly if there is no gap. -/
theorem isTrim_simpleName_iff : IsTrim (simpleName name).toList ↔ dotGap name.toList = [] := by
  rw [toList_simpleName_eq]
  constructor
  · exact fun h => h.eq_nil_of_append (blank_dotGap _)
  · intro hNone
    rw [hNone, List.nil_append]
    exact isTrim_lastPart _

/-- The simple name of a simple name is the last part of the name. -/
theorem toList_simpleName_simpleName :
    (simpleName (simpleName name)).toList = lastPart name.toList := by
  have hPadded : trimmed (dotGap name.toList ++ lastPart name.toList ++ []) =
      trimmed (lastPart name.toList) :=
    trimmed_padded (blank_dotGap _) (List.forall_mem_nil _) _
  rw [List.append_nil, (isTrim_lastPart _).trimmed_eq] at hPadded
  rw [toList_simpleName, toList_simpleName_eq, hPadded, afterLast_of_not_mem (not_mem_lastPart _)]

theorem simpleName_simpleName_eq_iff :
    simpleName (simpleName name) = simpleName name ↔ dotGap name.toList = [] := by
  rw [← String.toList_inj, toList_simpleName_simpleName, toList_simpleName_eq, List.self_eq_append_left]

end Normal

/-- Two names have the same simple name exactly if they have the same last part and the same gap before
it. -/
theorem simpleName_eq_simpleName_iff {name other : String} :
    simpleName name = simpleName other ↔
      dotGap name.toList = dotGap other.toList ∧ lastPart name.toList = lastPart other.toList := by
  rw [← String.toList_inj, toList_simpleName_eq, toList_simpleName_eq]
  constructor
  · intro hSame
    have hGaps := congrArg (List.takeWhile isBlank) hSame
    rw [(isTrim_lastPart _).takeWhile_append (blank_dotGap _),
      (isTrim_lastPart _).takeWhile_append (blank_dotGap _)] at hGaps
    exact ⟨hGaps, List.append_cancel_left (hGaps ▸ hSame)⟩
  · rintro ⟨hGaps, hParts⟩
    rw [hGaps, hParts]

/-- A trimmed text is the simple name of exactly those names of which it is the last part, with no gap
before it. -/
theorem simpleName_eq_iff_of_isTrim {name base : String} (h : IsTrim base.toList) :
    simpleName name = base ↔ dotGap name.toList = [] ∧ lastPart name.toList = base.toList := by
  rw [← String.toList_inj, toList_simpleName_eq]
  constructor
  · intro hSame
    rw [← hSame] at h
    have hNone := h.eq_nil_of_append (blank_dotGap _)
    rw [hNone, List.nil_append] at hSame
    exact ⟨hNone, hSame⟩
  · rintro ⟨hNone, hPart⟩
    rw [hNone, hPart, List.nil_append]

theorem lastPart_of_nameParts {first second : List Char} (hParts : nameParts first = nameParts second) :
    lastPart first = lastPart second := by
  rw [← Option.some_inj, ← getLast?_nameParts, hParts, getLast?_nameParts]

/-- The names are the same but for spaces around the dots and at the ends. Only between the last dot
and the last part they have to have the same spaces. -/
def Respaced (first second : String) : Prop :=
  nameParts first.toList = nameParts second.toList ∧ dotGap first.toList = dotGap second.toList

instance (first second : String) : Decidable (Respaced first second) :=
  inferInstanceAs (Decidable (_ ∧ _))

theorem Respaced.simpleName_eq {first second : String} (h : Respaced first second) :
    simpleName first = simpleName second :=
  simpleName_eq_simpleName_iff.mpr ⟨h.2, lastPart_of_nameParts h.1⟩

end UiLint.Text
