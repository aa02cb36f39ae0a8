import Mathlib.Data.List.GetD
import UiLint.Proofs.Text.LineIndex
import UiLint.Proofs.Text.SimpleName

/-! Positions of byte offsets. At the end of a character the column counts the characters of the line,
and positions are in the order of the offsets. Inside a character it counts bytes, so that such an
offset may be shown behind later ones. -/
namespace UiLint.Text

theorem length_le_byteLength (cs : List Char) : cs.length ≤ byteLength cs := by
  induction cs with
  | nil => exact Nat.le_refl _
  | cons c cs ih =>
      have hSize := c.utf8Size_pos
      rw [List.length_cons, byteLength]
      omega

theorem dropBytes?_cons {bytes : Nat} (hPositive : 0 < bytes) (c : Char) (cs : List Char) :
    dropBytes? (c :: cs) bytes =
      if c.utf8Size ≤ bytes then dropBytes? cs (bytes - c.utf8Size) else none := by
  cases bytes with
  | zero => omega
  | succ bytes => rfl

theorem dropBytes?_append (front back : List Char) :
    dropBytes? (front ++ back) (byteLength front) = some back := by
  induction front with
  | nil => cases back <;> rfl
  | cons c front ih =>
      have hSize := c.utf8Size_pos
      rw [List.cons_append, byteLength, dropBytes?_cons (by omega), if_pos (Nat.le_add_right ..),
        Nat.add_sub_cancel_left, ih]

theorem charsInBytes?_cons {bytes : Nat} (hPositive : 0 < bytes) (c : Char) (cs : List Char) :
    charsInBytes? (c :: cs) bytes =
      if c.utf8Size ≤ bytes then (charsInBytes? cs (bytes - c.utf8Size)).map (· + 1) else none := by
  cases bytes with
  | zero => omega
  | succ bytes => rfl

theorem charsInBytes?_append (front back : List Char) (bytes : Nat) :
    charsInBytes? (front ++ back) (byteLength front + bytes) =
      (charsInBytes? back bytes).map (· + front.length) := by
  induction front with
  | nil => simp [byteLength]
  | cons c front ih =>
      have hSize := c.utf8Size_pos
      rw [List.cons_append, byteLength, Nat.add_assoc, charsInBytes?_cons (by omega),
        if_pos (Nat.le_add_right ..), Nat.add_sub_cancel_left, ih, Option.map_map, List.length_cons]
      rfl

/-- The characters up to the end of one of them. -/
theorem charsInBytes?_end (front back : List Char) :
    charsInBytes? (front ++ back) (byteLength front) = some front.length := by
  have hEnd : charsInBytes? back 0 = some 0 := by cases back <;> rfl
  rw [← Nat.add_zero (byteLength front), charsInBytes?_append, hEnd, Option.map_some, Nat.zero_add]

/-- Inside a character there is no number of characters. -/
theorem charsInBytes?_inside (front : List Char) {c : Char} {distance : Nat}
    (hPositive : 0 < distance) (hInside : distance < c.utf8Size) (back : List Char) :
    charsInBytes? (front ++ c :: back) (byteLength front + distance) = none := by
  rw [charsInBytes?_append, charsInBytes?_cons hPositive, if_neg (by omega), Option.map_none]

/-- Every offset in a text is at the end of a character or inside one. -/
theorem exists_split {cs : List Char} {offset : Nat} (h : offset ≤ byteLength cs) :
    ∃ before after, cs = before ++ after ∧ (offset = byteLength before ∨
      ∃ c rest distance, after = c :: rest ∧ 0 < distance ∧ distance < c.utf8Size ∧
        offset = byteLength before + distance) := by
  induction cs generalizing offset with
  | nil => exact ⟨[], [], rfl, .inl (Nat.le_zero.mp h)⟩
  | cons c cs ih =>
      rw [byteLength] at h
      by_cases hBehind : c.utf8Size ≤ offset
      · have hRest : offset - c.utf8Size ≤ byteLength cs := by omega
        obtain ⟨before, after, rfl, hOffset⟩ := ih hRest
        refine ⟨c :: before, after, rfl, ?_⟩
        rw [byteLength]
        rcases hOffset with hEnd | ⟨other, rest, distance, hAfter, hPositive, hInside, hSum⟩
        · exact .inl (by omega)
        · exact .inr ⟨other, rest, distance, hAfter, hPositive, hInside, by omega⟩
      · refine ⟨[], c :: cs, rfl, ?_⟩
        rcases Nat.eq_zero_or_pos offset with rfl | hPositive
        · exact .inl rfl
        · exact .inr ⟨c, cs, offset, rfl, hPositive, by omega, (Nat.zero_add _).symm⟩

/-- The line that the end of a text is on starts the text or follows a newline. All newlines and the
other bytes are before it. -/
theorem exists_lineStart (before : List Char) :
    ∃ prior, before = prior ++ afterLast '\n' before ∧
      (prior = [] ∨ ∃ front, prior = front ++ ['\n']) ∧
      before.count '\n' = prior.count '\n' ∧
      byteLength before = byteLength prior + byteLength (afterLast '\n' before) := by
  have hStart : ∃ prior, before = prior ++ afterLast '\n' before ∧
      (prior = [] ∨ ∃ front, prior = front ++ ['\n']) := by
    rcases exists_afterLast '\n' before with hWhole | ⟨front, hFront⟩
    · exact ⟨[], hWhole, .inl rfl⟩
    · exact ⟨_, hFront, .inr ⟨front, rfl⟩⟩
  obtain ⟨prior, hBefore, hPrior⟩ := hStart
  have hLine : (afterLast '\n' before).count '\n' = 0 := List.count_eq_zero.mpr not_mem_afterLast
  have hCount := congrArg (List.count '\n') hBefore
  have hBytes := congrArg byteLength hBefore
  rw [List.count_append, hLine, Nat.add_zero] at hCount
  rw [byteLength_append] at hBytes
  exact ⟨prior, hBefore, hPrior, hCount, hBytes⟩

section Line

variable {prior line rest : List Char} (hLine : '\n' ∉ line) {distance : Nat}
  (hDistance : distance ≤ byteLength line)

include hLine hDistance in
theorem length_starts_up_to : ((0 :: startsAfterNewlines 0 (prior ++ (line ++ rest))).takeWhile
    (· ≤ byteLength prior + distance)).length = prior.count '\n' + 1 := by
  have hPrior : (startsAfterNewlines 0 prior).countP (· ≤ byteLength prior + distance) =
      prior.count '\n' := by
    rw [← length_startsAfterNewlines 0, List.countP_eq_length]
    intro start hStart
    have hInside := (mem_startsAfterNewlines hStart).2
    simp only [decide_eq_true_eq]
    omega
  have hNone : startsAfterNewlines (byteLength prior) line = [] := by
    rw [← List.length_eq_zero_iff, length_startsAfterNewlines, List.count_eq_zero]
    exact hLine
  have hRest : (startsAfterNewlines (byteLength prior + byteLength line) rest).countP
      (· ≤ byteLength prior + distance) = 0 := by
    rw [List.countP_eq_zero]
    intro start hStart
    have hBehind := (mem_startsAfterNewlines hStart).1
    simp only [decide_eq_true_eq]
    omega
  rw [List.takeWhile_cons_of_pos (by simp), List.length_cons,
    length_takeWhile_le (pairwise_startsAfterNewlines ..), startsAfterNewlines_append, Nat.zero_add,
    startsAfterNewlines_append, List.countP_append, List.countP_append, hPrior, hNone, hRest]
  rfl

/-- A line that starts the text or follows a newline starts where its number says. -/
theorem getD_starts (hPrior : prior = [] ∨ ∃ front, prior = front ++ ['\n']) :
    (0 :: startsAfterNewlines 0 (prior ++ rest)).getD (prior.count '\n') 0 = byteLength prior := by
  rcases hPrior with rfl | ⟨front, rfl⟩
  · rfl
  · have hCount : (front ++ ['\n']).count '\n' = (startsAfterNewlines 0 front).length + 1 := by
      rw [length_startsAfterNewlines]
      simp
    rw [hCount, List.getD_cons_succ, List.append_assoc, startsAfterNewlines_append,
      List.getD_append_right _ _ _ _ (Nat.le_refl _), Nat.sub_self, byteLength_append, Nat.zero_add]
    rfl

include hLine hDistance in
/-- The position of an offset on a line. -/
theorem position_on_line {text : String} (hText : text.toList = prior ++ (line ++ rest))
    (hPrior : prior = [] ∨ ∃ front, prior = front ++ ['\n']) :
    (LineIndex.ofText text).position (byteLength prior + distance) =
      ⟨prior.count '\n' + 1, (charsInBytes? (line ++ rest) distance).getD distance + 1⟩ := by
  have hWithin : byteLength prior + distance ≤ byteLength text.toList := by
    rw [hText, byteLength_append, byteLength_append]
    omega
  simp only [LineIndex.position, LineIndex.ofText, Nat.min_eq_left hWithin]
  rw [hText, length_starts_up_to hLine hDistance, Nat.add_sub_cancel, getD_starts hPrior,
    dropBytes?_append, Option.bind_some, Nat.add_sub_cancel_left]

end Line

/-- At the end of a character, the column counts the characters since the last newline. -/
theorem position_end {text : String} {before after : List Char}
    (hText : text.toList = before ++ after) :
    (LineIndex.ofText text).position (byteLength before) =
      ⟨before.count '\n' + 1, (afterLast '\n' before).length + 1⟩ := by
  obtain ⟨prior, hBefore, hPrior, hCount, hBytes⟩ := exists_lineStart before
  have hLines : text.toList = prior ++ (afterLast '\n' before ++ after) := by
    rw [← List.append_assoc, ← hBefore, hText]
  rw [hBytes, position_on_line not_mem_afterLast (Nat.le_refl _) hLines hPrior, charsInBytes?_end,
    hCount, Option.getD_some]

/-- A newline has no inside. -/
theorem newline_ne_of_inside {c : Char} {distance : Nat} (hPositive : 0 < distance)
    (hInside : distance < c.utf8Size) : '\n' ≠ c := by
  rintro rfl
  have hOne : '\n'.utf8Size = 1 := by decide
  omega

/-- Inside a character, the column counts the bytes since the last newline. -/
theorem position_inside {text : String} {before after : List Char} {c : Char} {distance : Nat}
    (hText : text.toList = before ++ c :: after) (hPositive : 0 < distance)
    (hInside : distance < c.utf8Size) :
    (LineIndex.ofText text).position (byteLength before + distance) =
      ⟨before.count '\n' + 1, byteLength (afterLast '\n' before) + distance + 1⟩ := by
  obtain ⟨prior, hBefore, hPrior, hCount, hBytes⟩ := exists_lineStart before
  have hLines : text.toList = prior ++ ((afterLast '\n' before ++ [c]) ++ after) := by
    rw [List.append_assoc, ← List.append_assoc, ← hBefore, hText]
    rfl
  have hLine : '\n' ∉ afterLast '\n' before ++ [c] := by
    simp [not_mem_afterLast, newline_ne_of_inside hPositive hInside]
  have hDistance : byteLength (afterLast '\n' before) + distance ≤
      byteLength (afterLast '\n' before ++ [c]) := by
    rw [byteLength_append, byteLength, byteLength]
    omega
  rw [hBytes, Nat.add_assoc, position_on_line hLine hDistance hLines hPrior, List.append_assoc,
    List.singleton_append, charsInBytes?_inside _ hPositive hInside, hCount, Option.getD_none]

/-- Positions are ordered by lines, and on one line by columns. -/
instance : LT Position :=
  ⟨fun first second =>
    first.line < second.line ∨ first.line = second.line ∧ first.column < second.column⟩

theorem Position.lt_iff {first second : Position} :
    first < second ↔
      first.line < second.line ∨ first.line = second.line ∧ first.column < second.column :=
  Iff.rfl

theorem Position.lt_asymm {first second : Position} (h : first < second) : ¬ second < first := by
  rw [lt_iff] at *
  omega

/-- Of two prefixes of a text, the one with fewer bytes is a prefix of the other. -/
theorem exists_append_of_byteLength_le {first second back more : List Char}
    (hSame : first ++ back = second ++ more) (hLe : byteLength first ≤ byteLength second) :
    ∃ between, second = first ++ between ∧ back = between ++ more := by
  rcases List.append_eq_append_iff.mp hSame with ⟨between, hSecond, hBack⟩ | ⟨between, hFirst, hMore⟩
  · exact ⟨between, hSecond, hBack⟩
  · rw [hFirst, byteLength_append] at hLe
    obtain rfl : between = [] := by
      rw [← List.length_eq_zero_iff]
      have hLength := length_le_byteLength between
      omega
    exact ⟨[], by simp [hFirst], by simpa using hMore.symm⟩

/-- A prefix of a text that ends behind the start of a character has the whole character. -/
theorem exists_append_of_byteLength_lt {before rest front back : List Char} {c : Char}
    (hSame : before ++ c :: rest = front ++ back) (hLess : byteLength before < byteLength front) :
    ∃ between, front = before ++ c :: between := by
  obtain ⟨between, hFront, hRest⟩ := exists_append_of_byteLength_le hSame (Nat.le_of_lt hLess)
  cases between with
  | nil =>
      rw [hFront, List.append_nil] at hLess
      exact absurd hLess (Nat.lt_irrefl _)
  | cons d between =>
      obtain ⟨rfl, -⟩ := List.cons_eq_cons.mp hRest
      exact ⟨between, hFront⟩

/-- No prefix of a text ends inside a character. -/
theorem byteLength_le_of_lt {before rest front back : List Char} {c : Char}
    (hSame : before ++ c :: rest = front ++ back)
    (hLess : byteLength front < byteLength before + c.utf8Size) :
    byteLength front ≤ byteLength before := by
  by_contra hBehind
  obtain ⟨between, rfl⟩ := exists_append_of_byteLength_lt hSame (Nat.lt_of_not_le hBehind)
  rw [byteLength_append, byteLength] at hLess
  omega

/-- Of two positions, the later one is on a later line or has a greater column. -/
theorem Position.lt_of_append {before between : List Char} {column later : Nat}
    (h : '\n' ∉ between → column < later) :
    (⟨before.count '\n' + 1, column⟩ : Position) < ⟨(before ++ between).count '\n' + 1, later⟩ := by
  simp only [lt_iff, List.count_append]
  by_cases hNewline : '\n' ∈ between
  · have hSome := List.count_pos_iff.mpr hNewline
    exact .inl (by omega)
  · exact .inr ⟨by rw [List.count_eq_zero.mpr hNewline, Nat.add_zero], h hNewline⟩

/-- Among ends of characters, later ones have later positions. -/
theorem position_lt_of_append {text : String} {before between after : List Char}
    (hText : text.toList = before ++ between ++ after) (hSome : between ≠ []) :
    (LineIndex.ofText text).position (byteLength before) <
      (LineIndex.ofText text).position (byteLength (before ++ between)) := by
  have hLength := List.length_pos_iff.mpr hSome
  rw [position_end (by rw [hText, List.append_assoc]), position_end hText]
  apply Position.lt_of_append
  intro hLine
  rw [afterLast_append hLine, List.length_append]
  omega

/-- The ends of characters are the byte lengths of prefixes. -/
theorem exists_append_of_isValid {text : String} {offset : Nat}
    (h : String.Pos.Raw.IsValid text ⟨offset⟩) :
    ∃ before after : String, text = before ++ after ∧ before.utf8ByteSize = offset := by
  obtain ⟨before, after, hText, hOffset⟩ := String.Pos.Raw.isValid_iff_exists_append.mp h
  exact ⟨before, after, hText, (congrArg String.Pos.Raw.byteIdx hOffset).symm⟩

theorem position_lt_of_isValid {text : String} {first second : Nat}
    (hFirst : String.Pos.Raw.IsValid text ⟨first⟩) (hSecond : String.Pos.Raw.IsValid text ⟨second⟩)
    (hLess : first < second) :
    (LineIndex.ofText text).position first < (LineIndex.ofText text).position second := by
  obtain ⟨before, after, hText, rfl⟩ := exists_append_of_isValid hFirst
  obtain ⟨longer, rest, hSame, rfl⟩ := exists_append_of_isValid hSecond
  have hLists : before.toList ++ after.toList = longer.toList ++ rest.toList := by
    rw [← String.toList_append, ← String.toList_append, ← hText, hSame]
  rw [← byteLength_toList, ← byteLength_toList] at hLess ⊢
  obtain ⟨between, hLonger, hAfter⟩ := exists_append_of_byteLength_le hLists (Nat.le_of_lt hLess)
  have hSplit : text.toList = before.toList ++ between ++ rest.toList := by
    rw [hText, String.toList_append, hAfter, List.append_assoc]
  rw [hLonger]
  refine position_lt_of_append hSplit ?_
  rintro rfl
  rw [hLonger, List.append_nil] at hLess
  exact Nat.lt_irrefl _ hLess

/-- Past the end of a text there is the position of its end. -/
theorem position_past_end {text : String} {offset : Nat} (hPast : text.utf8ByteSize ≤ offset) :
    (LineIndex.ofText text).position offset =
      (LineIndex.ofText text).position text.utf8ByteSize := by
  have hEnd : min offset (byteLength (LineIndex.ofText text).chars) =
      min text.utf8ByteSize (byteLength (LineIndex.ofText text).chars) := by
    rw [show (LineIndex.ofText text).chars = text.toList from rfl, byteLength_toList]
    omega
  simp only [LineIndex.position, hEnd]

/-- At every end of a character, the line counts the newlines before it and the column the characters
since the last of them. Offsets past the end of the text are taken for its end. No two ends of
characters have one position, and positions are in the order of the offsets. -/
theorem LineIndex.position_exact (text : String) :
    (∀ offset, String.Pos.Raw.IsValid text ⟨offset⟩ → ∃ before after : String,
      text = before ++ after ∧ before.utf8ByteSize = offset ∧
      (ofText text).position offset =
        ⟨before.toList.count '\n' + 1, (afterLast '\n' before.toList).length + 1⟩) ∧
    (∀ offset, text.utf8ByteSize ≤ offset →
      (ofText text).position offset = (ofText text).position text.utf8ByteSize) ∧
    ∀ first second, String.Pos.Raw.IsValid text ⟨first⟩ → String.Pos.Raw.IsValid text ⟨second⟩ →
      ((ofText text).position first = (ofText text).position second ↔ first = second) ∧
      ((ofText text).position first < (ofText text).position second ↔ first < second) := by
  refine ⟨fun offset hOffset => ?_, fun offset hPast => ?_, fun first second hFirst hSecond => ?_⟩
  · obtain ⟨before, after, hText, rfl⟩ := exists_append_of_isValid hOffset
    have hSplit : text.toList = before.toList ++ after.toList := by
      rw [hText, String.toList_append]
    exact ⟨before, after, hText, rfl, by rw [← byteLength_toList, position_end hSplit]⟩
  · exact position_past_end hPast
  · have hForward := position_lt_of_isValid hFirst hSecond
    have hBackward := position_lt_of_isValid hSecond hFirst
    have hIrrefl : ∀ position : Position, ¬ position < position :=
      fun _ hSelf => Position.lt_asymm hSelf hSelf
    constructor
    · refine ⟨fun hSame => ?_, fun hSame => by rw [hSame]⟩
      rcases Nat.lt_trichotomy first second with hLess | hEqual | hMore
      · exact absurd (hSame ▸ hForward hLess) (hIrrefl _)
      · exact hEqual
      · exact absurd (hSame ▸ hBackward hMore) (hIrrefl _)
    · refine ⟨fun hBefore => ?_, hForward⟩
      rcases Nat.lt_trichotomy first second with hLess | rfl | hMore
      · exact hLess
      · exact absurd hBefore (hIrrefl _)
      · exact absurd hBefore (Position.lt_asymm (hBackward hMore))

/-- Two offsets on the second line, after characters of two bytes. -/
theorem LineIndex.position_exact_accents :
    String.Pos.Raw.IsValid "é\nü!" ⟨3⟩ ∧ String.Pos.Raw.IsValid "é\nü!" ⟨5⟩ ∧
      (ofText "é\nü!").position 3 < (ofText "é\nü!").position 5 := by
  have hFirst : String.Pos.Raw.IsValid "é\nü!" ⟨3⟩ :=
    String.Pos.Raw.isValid_iff_exists_append.mpr ⟨"é\n", "ü!", by decide, by decide⟩
  have hSecond : String.Pos.Raw.IsValid "é\nü!" ⟨5⟩ :=
    String.Pos.Raw.isValid_iff_exists_append.mpr ⟨"é\nü", "!", by decide, by decide⟩
  exact ⟨hFirst, hSecond, ((position_exact "é\nü!").2.2 3 5 hFirst hSecond).2.mpr (by decide)⟩

/-- One offset is inside a character, another one at the end of that or of a later character on the same
line. On the line there are so many bytes before the first offset and so many characters before the
second. -/
def Straddles (text : String) (inner outer bytes chars : Nat) : Prop :=
  ∃ before c between after distance, text.toList = before ++ c :: between ++ after ∧
    '\n' ∉ between ∧ 0 < distance ∧ distance < c.utf8Size ∧
    inner = byteLength before + distance ∧ outer = byteLength (before ++ c :: between) ∧
    bytes = byteLength (afterLast '\n' before) + distance ∧
    chars = (afterLast '\n' (before ++ c :: between)).length

section Straddles

variable {text : String} {inner outer bytes chars : Nat}

theorem Straddles.lt (h : Straddles text inner outer bytes chars) : inner < outer := by
  obtain ⟨before, c, between, after, distance, -, -, -, hInside, rfl, rfl, -⟩ := h
  rw [byteLength_append, byteLength]
  omega

theorem Straddles.not_isValid (h : Straddles text inner outer bytes chars) :
    ¬ String.Pos.Raw.IsValid text ⟨inner⟩ := by
  intro hValid
  obtain ⟨before, c, between, after, distance, hText, -, hPositive, hInside, hInner, -⟩ := h
  obtain ⟨front, back, hSplit, hFront⟩ := exists_append_of_isValid hValid
  rw [← byteLength_toList] at hFront
  have hSame : before ++ c :: (between ++ after) = front.toList ++ back.toList := by
    rw [← String.toList_append, ← hSplit, hText, List.append_assoc]
    rfl
  have hBefore := byteLength_le_of_lt hSame (by omega)
  omega

/-- Both offsets of a straddle are on one line, and the columns count bytes and characters. -/
theorem Straddles.positions (h : Straddles text inner outer bytes chars) :
    ∃ line, (LineIndex.ofText text).position inner = ⟨line, bytes + 1⟩ ∧
      (LineIndex.ofText text).position outer = ⟨line, chars + 1⟩ := by
  obtain ⟨before, c, between, after, distance, hText, hBetween, hPositive, hInside, rfl, rfl, rfl,
    rfl⟩ := h
  have hNewline : '\n' ∉ c :: between := by
    simp [newline_ne_of_inside hPositive hInside, hBetween]
  have hWhole : text.toList = before ++ c :: (between ++ after) := by
    rw [hText, List.append_assoc]
    rfl
  refine ⟨before.count '\n' + 1, position_inside hWhole hPositive hInside, ?_⟩
  rw [position_end hText, List.count_append, List.count_eq_zero.mpr hNewline, Nat.add_zero]

/-- A later offset has a later position, unless the two straddle. -/
theorem position_lt_or_straddles (hLess : inner < outer) (hEnd : outer ≤ text.utf8ByteSize) :
    (LineIndex.ofText text).position inner < (LineIndex.ofText text).position outer ∨
      ∃ bytes chars, Straddles text inner outer bytes chars := by
  rw [← byteLength_toList] at hEnd
  obtain ⟨front, back, hFront, hInner⟩ := exists_split (Nat.le_trans (Nat.le_of_lt hLess) hEnd)
  obtain ⟨longer, rest, hLonger, hOuter⟩ := exists_split hEnd
  have hSame := hFront.symm.trans hLonger
  rcases hInner with rfl | ⟨c, after, distance, rfl, hPositive, hInside, rfl⟩ <;>
    rcases hOuter with rfl | ⟨d, more, further, rfl, hFurther, hWithin, rfl⟩
  · obtain ⟨between, rfl, -⟩ := exists_append_of_byteLength_le hSame (Nat.le_of_lt hLess)
    refine .inl (position_lt_of_append hLonger ?_)
    rintro rfl
    rw [List.append_nil] at hLess
    exact Nat.lt_irrefl _ hLess
  · have hLe := byteLength_le_of_lt hSame.symm (by omega)
    obtain ⟨between, rfl, -⟩ := exists_append_of_byteLength_le hSame hLe
    rw [position_end hFront, position_inside hLonger hFurther hWithin]
    refine .inl (Position.lt_of_append fun hLine => ?_)
    have hLength := length_le_byteLength (afterLast '\n' front)
    rw [afterLast_append hLine, byteLength_append]
    omega
  · -- Only here characters are compared with bytes.
    obtain ⟨between, rfl⟩ := exists_append_of_byteLength_lt hSame (by omega)
    by_cases hNewline : '\n' ∈ between
    · rw [position_inside hFront hPositive hInside, position_end hLonger]
      exact .inl (Position.lt_of_append fun hLine => absurd (List.mem_cons_of_mem _ hNewline) hLine)
    · exact .inr ⟨_, _, front, c, between, rest, distance, hLonger, hNewline, hPositive, hInside, rfl,
        rfl, rfl, rfl⟩
  · have hLe := byteLength_le_of_lt hSame.symm (by omega)
    obtain ⟨between, rfl, -⟩ := exists_append_of_byteLength_le hSame hLe
    rw [position_inside hFront hPositive hInside, position_inside hLonger hFurther hWithin]
    refine .inl (Position.lt_of_append fun hLine => ?_)
    rw [byteLength_append] at hLess
    rw [afterLast_append hLine, byteLength_append]
    omega

/-- Exactly if two offsets straddle and there are fewer characters than bytes, the later one is shown
before the other. -/
theorem position_lt_iff_straddles {first second : Nat} (hLe : first ≤ second)
    (hEnd : second ≤ text.utf8ByteSize) :
    (LineIndex.ofText text).position second < (LineIndex.ofText text).position first ↔
      ∃ bytes chars, Straddles text first second bytes chars ∧ chars < bytes := by
  constructor
  · intro hBefore
    have hLess : first < second := by
      rcases Nat.lt_or_eq_of_le hLe with hLess | rfl
      · exact hLess
      · exact absurd hBefore (Position.lt_asymm hBefore)
    rcases position_lt_or_straddles hLess hEnd with hAfter | ⟨bytes, chars, hStraddles⟩
    · exact absurd hBefore (Position.lt_asymm hAfter)
    · obtain ⟨line, hInner, hOuter⟩ := hStraddles.positions
      rw [hInner, hOuter, Position.lt_iff] at hBefore
      exact ⟨bytes, chars, hStraddles, by simpa using hBefore⟩
  · rintro ⟨bytes, chars, hStraddles, hFewer⟩
    obtain ⟨line, hInner, hOuter⟩ := hStraddles.positions
    rw [hInner, hOuter, Position.lt_iff]
    exact .inr ⟨rfl, Nat.succ_lt_succ hFewer⟩

end Straddles

end UiLint.Text
