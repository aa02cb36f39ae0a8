import UiLint.Proofs.Tree.Insertion

/-! Lines of byte offsets. The line of an offset is one more than the number of newlines before it,
so text without newlines that is put in somewhere moves no offset to another line. -/
namespace UiLint.Text

theorem byteLength_append (first second : List Char) :
    byteLength (first ++ second) = byteLength first + byteLength second := by
  induction first with
  | nil => simp [byteLength]
  | cons c first ih => rw [List.cons_append, byteLength, byteLength, ih, Nat.add_assoc]

theorem startsAfterNewlines_append (start : Nat) (first second : List Char) :
    startsAfterNewlines start (first ++ second) =
      startsAfterNewlines start first ++ startsAfterNewlines (start + byteLength first) second := by
  induction first generalizing start with
  | nil => rfl
  | cons c first ih =>
      simp only [List.cons_append, startsAfterNewlines, ih, byteLength, ← Nat.add_assoc]
      split <;> rfl

theorem startsAfterNewlines_add (start distance : Nat) (cs : List Char) :
    startsAfterNewlines (start + distance) cs = (startsAfterNewlines start cs).map (· + distance) := by
  induction cs generalizing start with
  | nil => rfl
  | cons c cs ih =>
      simp only [startsAfterNewlines, Nat.add_right_comm start distance, ih]
      split <;> rfl

/-- A line starts after a newline, and no later than the text ends. -/
theorem mem_startsAfterNewlines {start offset : Nat} {cs : List Char}
    (hOffset : offset ∈ startsAfterNewlines start cs) :
    start < offset ∧ offset ≤ start + byteLength cs := by
  induction cs generalizing start with
  | nil => cases hOffset
  | cons c cs ih =>
      have hSize := c.utf8Size_pos
      rw [byteLength]
      rw [startsAfterNewlines] at hOffset
      split at hOffset
      · rcases List.mem_cons.mp hOffset with rfl | hLater
        · omega
        · have hRest := ih hLater
          omega
      · have hRest := ih hOffset
        omega

theorem length_startsAfterNewlines (start : Nat) (cs : List Char) :
    (startsAfterNewlines start cs).length = cs.count '\n' := by
  induction cs generalizing start with
  | nil => rfl
  | cons c cs ih =>
      rw [startsAfterNewlines, List.count_cons]
      split <;> simp [ih]

theorem pairwise_startsAfterNewlines (start : Nat) (cs : List Char) :
    (startsAfterNewlines start cs).Pairwise (· < ·) := by
  induction cs generalizing start with
  | nil => exact .nil
  | cons c cs ih =>
      rw [startsAfterNewlines]
      split
      · exact .cons (fun offset hOffset => (mem_startsAfterNewlines hOffset).1) (ih _)
      · exact ih _

/-- In an ascending list, the numbers up to a bound come first. -/
theorem length_takeWhile_le {numbers : List Nat} (h : numbers.Pairwise (· < ·)) (bound : Nat) :
    (numbers.takeWhile (· ≤ bound)).length = numbers.countP (· ≤ bound) := by
  induction h with
  | nil => rfl
  | @cons first numbers hFirst _ ih =>
      by_cases hSmall : first ≤ bound
      · simp [hSmall, ih]
      · have hNone : numbers.countP (· ≤ bound) = 0 := by
          rw [List.countP_eq_zero]
          intro number hNumber
          have hLess := hFirst number hNumber
          simp only [decide_eq_true_eq]
          omega
        simp [hSmall, hNone]

/-- The line of an offset is told by the lines that start up to there. -/
theorem line_position (text : String) (offset : Nat) :
    ((LineIndex.ofText text).position offset).line =
      (startsAfterNewlines 0 text.toList).countP (· ≤ offset) + 1 := by
  have hEnd : (startsAfterNewlines 0 text.toList).countP
      (· ≤ min offset (byteLength text.toList)) =
      (startsAfterNewlines 0 text.toList).countP (· ≤ offset) := by
    apply List.countP_congr
    intro start hStart
    have hInside := (mem_startsAfterNewlines hStart).2
    simp only [decide_eq_true_eq]
    omega
  rw [← hEnd, ← length_takeWhile_le (pairwise_startsAfterNewlines ..)]
  show ((0 :: startsAfterNewlines 0 text.toList).takeWhile
    (· ≤ min offset (byteLength text.toList))).length - 1 + 1 = _
  rw [List.takeWhile_cons_of_pos (by simp)]
  rfl

/-- The line of an offset is told by the newlines before it. -/
theorem line_of_append {text : String} {before after : List Char}
    (hText : text.toList = before ++ after) :
    ((LineIndex.ofText text).position (byteLength before)).line = before.count '\n' + 1 := by
  have hBefore : (startsAfterNewlines 0 before).countP (· ≤ byteLength before) =
      before.count '\n' := by
    rw [← length_startsAfterNewlines 0, List.countP_eq_length]
    intro start hStart
    have hInside := (mem_startsAfterNewlines hStart).2
    simpa using hInside
  have hAfter : (startsAfterNewlines (0 + byteLength before) after).countP
      (· ≤ byteLength before) = 0 := by
    rw [List.countP_eq_zero]
    intro start hStart
    have hBehind := (mem_startsAfterNewlines hStart).1
    simp only [decide_eq_true_eq]
    omega
  rw [line_position, hText, startsAfterNewlines_append, List.countP_append, hBefore, hAfter,
    Nat.add_zero]

/-- Where a piece without newlines is put into a text, an offset that moves with what is behind the
piece stays on its line. Moved offsets may be held at a limit past the end of the text. -/
theorem line_insert {text longer : String} {before piece after : List Char}
    (hText : text.toList = before ++ after) (hLonger : longer.toList = before ++ piece ++ after)
    (hPiece : '\n' ∉ piece) {limit : Nat} (hLimit : longer.utf8ByteSize ≤ limit) (offset : Nat) :
    ((LineIndex.ofText longer).position
        (if byteLength before ≤ offset then min (offset + byteLength piece) limit else offset)).line =
      ((LineIndex.ofText text).position offset).line := by
  have hNone : startsAfterNewlines (byteLength before) piece = [] := by
    rw [← List.length_eq_zero_iff, length_startsAfterNewlines, List.count_eq_zero]
    exact hPiece
  rw [← byteLength_toList, hLonger, byteLength_append, byteLength_append] at hLimit
  rw [line_position, line_position, hText, hLonger]
  simp only [startsAfterNewlines_append, byteLength_append, Nat.zero_add, hNone, List.append_nil,
    List.countP_append]
  rw [startsAfterNewlines_add, List.countP_map]
  congr 2
  · apply List.countP_congr
    intro start hStart
    have hInside := (mem_startsAfterNewlines hStart).2
    simp only [decide_eq_true_eq]
    split <;> omega
  · apply List.countP_congr
    intro start hStart
    have hBehind := mem_startsAfterNewlines hStart
    simp only [Function.comp_apply, decide_eq_true_eq]
    split <;> omega

end UiLint.Text
