import Mathlib
import MlWasm.Source.Position

/-!
Lines and columns by counting. The place of a byte offset is looked up in a table of line starts and
read off a slice of the text. It is the place a count from the left arrives at: the line after as
many line ends as there are before the offset, the column after as many characters as there are
since the last of them. Further on in the text, places only grow.
-/

namespace MlWasm

open String (utf8Len)

section PartitionPoint

variable {front back : List Nat} {p : Nat → Bool}

/-- The bounds close in on the end of the front part. -/
theorem partitionPoint_search (hfront : ∀ n ∈ front, p n = true) (hback : ∀ n ∈ back, p n = false)
    (low high : Nat) (hlow : low ≤ front.length) (hhigh : front.length ≤ high)
    (hsize : high ≤ (front ++ back).length) :
    partitionPoint.search (front ++ back).toArray p low high = front.length := by
  fun_induction partitionPoint.search (front ++ back).toArray p low high with
  | case1 low high hlt middle hp ih =>
      refine ih ?_ hhigh hsize
      by_contra! hmiddle
      have hmem : (front ++ back).toArray[middle]! ∈ back := by
        have hbound : middle < (front ++ back).length := by omega
        rw [List.getElem!_toArray, getElem!_pos (front ++ back) middle hbound,
          List.getElem_append_right (by omega)]
        exact List.getElem_mem _
      rw [hback _ hmem] at hp
      cases hp
  | case2 low high hlt middle hp ih =>
      refine ih hlow ?_ (by omega)
      by_contra! hmiddle
      have hmem : (front ++ back).toArray[middle]! ∈ front := by
        have hbound : middle < (front ++ back).length := by omega
        rw [List.getElem!_toArray, getElem!_pos (front ++ back) middle hbound,
          List.getElem_append_left hmiddle]
        exact List.getElem_mem _
      exact hp (hfront _ hmem)
  | case3 low high hle => omega

theorem partitionPoint_append (hfront : ∀ n ∈ front, p n = true)
    (hback : ∀ n ∈ back, p n = false) :
    partitionPoint (front ++ back).toArray p = front.length :=
  partitionPoint_search hfront hback 0 _ (by simp) (by simp) (by simp)

end PartitionPoint

namespace LineIndex

theorem startsAfter_append (offset : Nat) (before rest : List Char) :
    startsAfter offset (before ++ rest) =
      startsAfter offset before ++ startsAfter (offset + utf8Len before) rest := by
  induction before generalizing offset with
  | nil => rfl
  | cons c before ih =>
      have hnext : offset + utf8Len (c :: before) = offset + c.utf8Size + utf8Len before := by
        rw [String.utf8Len_cons]
        omega
      simp only [List.cons_append, startsAfter, ih, hnext]
      split <;> rfl

theorem length_startsAfter (offset : Nat) (cs : List Char) :
    (startsAfter offset cs).length = cs.count '\n' := by
  induction cs generalizing offset with
  | nil => rfl
  | cons c cs ih => by_cases hc : c = '\n' <;> simp [startsAfter, hc, ih]

/-- A line starts past the characters before it, and not past the text. -/
theorem lt_and_le_of_mem_startsAfter {offset n : Nat} {cs : List Char}
    (hn : n ∈ startsAfter offset cs) : offset < n ∧ n ≤ offset + utf8Len cs := by
  induction cs generalizing offset with
  | nil => cases hn
  | cons c cs ih =>
      have hsize := c.utf8Size_pos
      rw [startsAfter] at hn
      rw [String.utf8Len_cons]
      split at hn
      · rcases List.mem_cons.mp hn with rfl | hn
        · omega
        · have := ih hn
          omega
      · have := ih hn
        omega

/-- The line these characters break off in, so far. -/
def line (before : List Char) : List Char :=
  (before.reverse.takeWhile (· ≠ '\n')).reverse

/-- The lines above it, with their line ends. -/
def above (before : List Char) : List Char :=
  (before.reverse.dropWhile (· ≠ '\n')).reverse

theorem above_append_line (before : List Char) : above before ++ line before = before := by
  rw [above, line, ← List.reverse_append, List.takeWhile_append_dropWhile, List.reverse_reverse]

theorem getLast_startsAfter (offset : Nat) (before : List Char) :
    (offset :: startsAfter offset before).getLast (List.cons_ne_nil _ _) =
      offset + utf8Len (above before) := by
  induction before using List.reverseRecOn with
  | nil => rfl
  | append_singleton before c ih =>
      by_cases hc : c = '\n'
      · simp [above, startsAfter_append, startsAfter, hc, Nat.add_assoc]
      · simpa [above, startsAfter_append, startsAfter, hc] using ih

section Split

variable {source : String} {before rest : List Char} (h : source.toList = before ++ rest)
include h

theorem lineStarts_ofSource : (ofSource source).lineStarts =
    ((0 :: startsAfter 0 before) ++ startsAfter (utf8Len before) rest).toArray := by
  rw [ofSource, h, startsAfter_append, Nat.zero_add, List.cons_append]

theorem partitionPoint_lineStarts :
    partitionPoint (ofSource source).lineStarts (· ≤ utf8Len before) = before.count '\n' + 1 := by
  rw [lineStarts_ofSource h, partitionPoint_append, List.length_cons, length_startsAfter]
  · intro n hn
    rcases List.mem_cons.mp hn with rfl | hn
    · simp
    · simpa using (lt_and_le_of_mem_startsAfter hn).2
  · intro n hn
    simpa using (lt_and_le_of_mem_startsAfter hn).1

theorem lineStarts_count :
    (ofSource source).lineStarts[before.count '\n']! = utf8Len (above before) := by
  have hlast := getLast_startsAfter 0 before
  rw [List.getLast_eq_getElem, Nat.zero_add] at hlast
  rw [lineStarts_ofSource h, List.getElem!_toArray, ← length_startsAfter 0,
    getElem!_pos _ _ (by simp), List.getElem_append_left (by simp)]
  exact hlast

end Split

end LineIndex

namespace Position

/-- The place of the character that follows these. -/
def after (before : List Char) : Position where
  line := 1 + before.count '\n'
  column := 1 + (before.reverse.takeWhile (· ≠ '\n')).length

theorem ofOffset_eq {source : String} {before rest : List Char}
    (h : source.toList = before ++ rest) : ofOffset source (utf8Len before) = after before := by
  have hsplit := LineIndex.above_append_line before
  have hslice : String.Pos.Raw.extract source ⟨utf8Len (LineIndex.above before)⟩
      ⟨utf8Len before⟩ = .ofList (LineIndex.line before) := by
    have hsource : source =
        .ofList (LineIndex.above before ++ LineIndex.line before ++ rest) := by
      rw [hsplit, ← h, String.ofList_toList]
    nth_rewrite 2 [← hsplit]
    rw [hsource, String.utf8Len_append, String.extract_of_valid]
  rw [ofOffset, LineIndex.position, LineIndex.partitionPoint_lineStarts h, Nat.add_sub_cancel,
    LineIndex.lineStarts_count h]
  simp only [LineIndex.ofSource, hslice, after, String.length_ofList]
  simp [LineIndex.line, Nat.add_comm]

theorem exists_split {source : String} {offset : Nat}
    (h : (⟨offset⟩ : String.Pos.Raw).IsValid source) :
    ∃ before rest, source.toList = before ++ rest ∧ utf8Len before = offset := by
  obtain ⟨s, t, rfl, hs⟩ := String.Pos.Raw.isValid_iff_exists_append.mp h
  refine ⟨s.toList, t.toList, String.toList_append, ?_⟩
  simpa using (congrArg String.Pos.Raw.byteIdx hs).symm

/-- Reading order: by line, then by column. -/
def Precedes (a b : Position) : Prop :=
  a.line < b.line ∨ a.line = b.line ∧ a.column < b.column

instance (a b : Position) : Decidable (a.Precedes b) :=
  inferInstanceAs (Decidable (_ ∨ _))

theorem Precedes.trans {a b c : Position} (hab : a.Precedes b) (hbc : b.Precedes c) :
    a.Precedes c := by
  unfold Precedes at *
  omega

theorem Precedes.ne {a b : Position} (h : a.Precedes b) : a ≠ b := by
  rintro rfl
  unfold Precedes at h
  omega

theorem after_precedes_concat (before : List Char) (c : Char) :
    (after before).Precedes (after (before ++ [c])) := by
  by_cases hc : c = '\n'
  · exact .inl (by simp [after, hc])
  · exact .inr (by simp [after, hc])

theorem after_precedes_append (before : List Char) {cs : List Char} (hcs : cs ≠ []) :
    (after before).Precedes (after (before ++ cs)) := by
  induction cs using List.reverseRecOn with
  | nil => contradiction
  | append_singleton cs c ih =>
      have hlast := after_precedes_concat (before ++ cs) c
      rw [List.append_assoc] at hlast
      rcases eq_or_ne cs [] with rfl | hcs
      · simpa using hlast
      · exact (ih hcs).trans hlast

theorem ofOffset_precedes {source : String} {i j : Nat}
    (hi : (⟨i⟩ : String.Pos.Raw).IsValid source) (hj : (⟨j⟩ : String.Pos.Raw).IsValid source)
    (hlt : i < j) : (ofOffset source i).Precedes (ofOffset source j) := by
  obtain ⟨before, rest, hsource, rfl⟩ := exists_split hi
  obtain ⟨before', rest', hsource', rfl⟩ := exists_split hj
  rw [ofOffset_eq hsource, ofOffset_eq hsource']
  rcases List.prefix_or_prefix_of_prefix ⟨rest, hsource.symm⟩ ⟨rest', hsource'.symm⟩ with
    ⟨cs, rfl⟩ | ⟨cs, rfl⟩
  · refine after_precedes_append before fun hcs => ?_
    simp [hcs] at hlt
  · rw [String.utf8Len_append] at hlt
    omega

end Position

/-- A place is the count of the line ends before the offset and of the characters since the last of
them; different offsets have different places, and they come in the order of the offsets. -/
theorem LineIndex.position_exact (source : String) :
    (∀ offset, (⟨offset⟩ : String.Pos.Raw).IsValid source →
      ∃ before rest, source.toList = before ++ rest ∧ utf8Len before = offset ∧
        (ofSource source).position offset =
          ⟨1 + before.count '\n', 1 + (before.reverse.takeWhile (· ≠ '\n')).length⟩) ∧
    ∀ i j, (⟨i⟩ : String.Pos.Raw).IsValid source → (⟨j⟩ : String.Pos.Raw).IsValid source →
      (i < j → ((ofSource source).position i).Precedes ((ofSource source).position j)) ∧
      (i ≠ j → (ofSource source).position i ≠ (ofSource source).position j) := by
  refine ⟨fun offset hoffset => ?_, fun i j hi hj => ⟨Position.ofOffset_precedes hi hj, ?_⟩⟩
  · obtain ⟨before, rest, hsource, rfl⟩ := Position.exists_split hoffset
    exact ⟨before, rest, hsource, rfl, Position.ofOffset_eq hsource⟩
  · intro hne
    rcases Nat.lt_or_gt_of_ne hne with hlt | hlt
    · exact (Position.ofOffset_precedes hi hj hlt).ne
    · exact (Position.ofOffset_precedes hj hi hlt).ne.symm

/-- Characters of two bytes, a line end at the offset and an empty line. -/
theorem LineIndex.position_exact_blank_line :
    ((⟨2⟩ : String.Pos.Raw).IsValid "é\n\nb" ∧ (⟨4⟩ : String.Pos.Raw).IsValid "é\n\nb") ∧
      ((ofSource "é\n\nb").position 2).Precedes ((ofSource "é\n\nb").position 4) ∧
      (ofSource "é\n\nb").position 2 = ⟨1, 2⟩ ∧ (ofSource "é\n\nb").position 4 = ⟨3, 1⟩ := by
  have h2 : (⟨2⟩ : String.Pos.Raw).IsValid "é\n\nb" := by decide
  have h4 : (⟨4⟩ : String.Pos.Raw).IsValid "é\n\nb" := by decide
  exact ⟨⟨h2, h4⟩, ((position_exact "é\n\nb").2 2 4 h2 h4).1 (by decide), by cbv, by cbv⟩

end MlWasm
