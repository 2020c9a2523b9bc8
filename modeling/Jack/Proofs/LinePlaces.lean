import Jack.Proofs.Position
import Mathlib.Data.List.Basic
import Mathlib.Data.Prod.Lex
import Mathlib.Order.Monotone.Defs

/-!
# Offsets, lines and columns

An offset may lie anywhere in a text, also inside of a character, or behind its end.  Its line is
told by the bytes in front of it, and its column counts the bytes since the last line feed among
them.  The byte of a line feed is part of no other character, so the starts of lines are the offsets
just behind these bytes (`LineTable.toList_starts`), in ascending order and with zero in front.

* `LineTable.Locates` : what a table answers for the offsets of a text;
* `LineTable.lineOf_ofText` : the line is the number of line feeds in front of the offset;
* `LineTable.getElem?_lineOf` : it starts just behind the last of them;
* `LineTable.locates_ofText` : **the table of a text locates every offset**, and never looks for a
  line in front of the first one.
-/

namespace Jack

/-- The bytes of a text in UTF-8. -/
def utf8Bytes (text : String) : List UInt8 := text.toUTF8.data.toList

/-- The byte of a line feed. -/
def lineFeed : UInt8 := 10

namespace LineTable

/-- An offset at which no line starts belongs at `i` among the starts of lines: those in front of
`i` are smaller, and those from `i` on are larger. -/
structure InsertsAt (m : LineTable) (pos i : Nat) : Prop where
  /-- The place is not behind the end. -/
  le_size : i ≤ m.starts.size
  /-- The starts in front of it are smaller. -/
  below : ∀ j start, j < i → m.starts[j]? = some start → start < pos
  /-- The starts from there on are larger. -/
  above : ∀ j start, i ≤ j → m.starts[j]? = some start → pos < start

/-- The table tells the line and the column of every offset of the text, and of those behind its
end. -/
structure Locates (m : LineTable) (text : String) : Prop where
  /-- The line is the number of line feeds in front of the offset. -/
  lineOf_eq : ∀ pos, m.lineOf pos = ((utf8Bytes text).take pos).count lineFeed
  /-- The position has this line. -/
  line_eq : ∀ pos, (m.positionOf pos).line = m.lineOf pos
  /-- Where there is no line feed in front, the column is the offset. -/
  column_first : ∀ pos, lineFeed ∉ (utf8Bytes text).take pos → (m.positionOf pos).column = pos
  /-- Otherwise it counts from just behind the last one. -/
  column_after : ∀ pos k, k < pos → (utf8Bytes text)[k]? = some lineFeed →
    (∀ j, k < j → j < pos → (utf8Bytes text)[j]? ≠ some lineFeed) →
    k + 1 + (m.positionOf pos).column = pos
  /-- The line has a start, and this and the column give the offset back. -/
  start_add_column : ∀ pos, ∃ start, m.starts[m.lineOf pos]? = some start ∧
    start + (m.positionOf pos).column = pos
  /-- Either a line starts at the offset, and that is its line, or the offset belongs behind the
  start of its line. -/
  found_or_insertsAt : ∀ pos, m.starts[m.lineOf pos]? = some pos ∨
    m.InsertsAt pos (m.lineOf pos + 1)
  /-- No other line starts at the offset. -/
  eq_lineOf_of_found : ∀ pos i, m.starts[i]? = some pos → i = m.lineOf pos
  /-- The offset belongs nowhere else, and not in front of all lines. -/
  eq_lineOf_of_insertsAt : ∀ pos i, m.InsertsAt pos i → i = m.lineOf pos + 1
  /-- Further on in the text the line is a later one, or it is the same one and the column is. -/
  strictMono : StrictMono fun pos => toLex ((m.positionOf pos).line, (m.positionOf pos).column)
  /-- No line starts behind the end of the text. -/
  start_le : ∀ start ∈ m.starts, start ≤ text.utf8ByteSize
  /-- There are not more line feeds than bytes. -/
  lineOf_le : ∀ pos, m.lineOf pos ≤ text.utf8ByteSize

end LineTable

/-! ### Line feeds among bytes -/

theorem utf8Bytes_eq_flatMap (text : String) :
    utf8Bytes text = text.toList.flatMap String.utf8EncodeChar := by
  have h : text.toByteArray = text.toList.utf8Encode := by
    rw [← String.toByteArray_ofList, String.ofList_toList]
  rw [utf8Bytes, String.toUTF8, h, List.utf8Encode, List.data_toByteArray]

theorem length_utf8Bytes (text : String) : (utf8Bytes text).length = text.utf8ByteSize := rfl

theorem lineFeed_ne_ofNat {n : Nat} (hlt : n < 256) (hne : n ≠ 10) : lineFeed ≠ UInt8.ofNat n := by
  intro h
  have hnat : 10 = n % 256 := congrArg UInt8.toNat h
  omega

/-- The byte of a line feed is part of no other character. -/
theorem lineFeed_notMem_utf8EncodeChar {c : Char} (hc : c ≠ '\n') :
    lineFeed ∉ String.utf8EncodeChar c := by
  have hval : c.val.toNat ≠ 10 := fun h => hc (Char.ext (UInt32.toNat_inj.1 h))
  -- The bytes of a character of several bytes are at least 128 each.
  simp only [String.utf8EncodeChar]
  split
  · simpa using lineFeed_ne_ofNat (by omega) hval
  · split
    · simp only [List.mem_cons, List.not_mem_nil, or_false, not_or]
      exact ⟨lineFeed_ne_ofNat (by omega) (by omega), lineFeed_ne_ofNat (by omega) (by omega)⟩
    · split
      · simp only [List.mem_cons, List.not_mem_nil, or_false, not_or]
        exact ⟨lineFeed_ne_ofNat (by omega) (by omega), lineFeed_ne_ofNat (by omega) (by omega),
          lineFeed_ne_ofNat (by omega) (by omega)⟩
      · simp only [List.mem_cons, List.not_mem_nil, or_false, not_or]
        exact ⟨lineFeed_ne_ofNat (by omega) (by omega), lineFeed_ne_ofNat (by omega) (by omega),
          lineFeed_ne_ofNat (by omega) (by omega), lineFeed_ne_ofNat (by omega) (by omega)⟩

namespace LineTable

/-- The starts of lines are just behind the bytes of line feeds. -/
theorem lineStarts_eq_findIdxs (offset : Nat) (cs : List Char) :
    lineStarts offset cs =
      (cs.flatMap String.utf8EncodeChar).findIdxs (· == lineFeed) (offset + 1) := by
  induction cs generalizing offset with
  | nil => rfl
  | cons c cs ih =>
    rw [lineStarts, List.flatMap_cons, List.findIdxs_append, String.length_utf8EncodeChar, ih,
      Nat.add_right_comm offset 1]
    by_cases hc : c = '\n'
    · subst hc
      rfl
    · have hnone : (String.utf8EncodeChar c).findIdxs (· == lineFeed) (offset + 1) = [] :=
        List.findIdxs_eq_nil_iff.2 fun b hb => beq_false_of_ne fun heq =>
          lineFeed_notMem_utf8EncodeChar hc (heq ▸ hb)
      rw [if_neg hc, hnone, List.nil_append]

/-- The first line starts at the start of the text, and one more behind each line feed. -/
theorem toList_starts (text : String) :
    (ofText text).starts.toList = 0 :: (utf8Bytes text).findIdxs (· == lineFeed) 1 := by
  rw [ofText, toList_startsFrom, lineStarts_eq_findIdxs, utf8Bytes_eq_flatMap]
  rfl

/-! ### Starts of lines -/

section Starts

variable {text : String} {pos i start : Nat}

/-- Lines start in the order in which they are numbered. -/
theorem pairwise_starts (text : String) : (ofText text).starts.toList.Pairwise (· < ·) := by
  rw [toList_starts]
  refine List.pairwise_cons.2 ⟨fun start hstart => ?_, List.pairwise_findIdxs⟩
  exact List.ge_of_mem_findIdxs start hstart

theorem getElem?_starts_lt {j start' : Nat} (hij : i < j)
    (hi : (ofText text).starts[i]? = some start) (hj : (ofText text).starts[j]? = some start') :
    start < start' := by
  rw [← Array.getElem?_toList] at hi hj
  obtain ⟨hilt, rfl⟩ := List.getElem?_eq_some_iff.1 hi
  obtain ⟨hjlt, rfl⟩ := List.getElem?_eq_some_iff.1 hj
  exact List.pairwise_iff_getElem.1 (pairwise_starts text) i j hilt hjlt hij

/-- The starts of lines are zero and the offsets just behind line feeds. -/
theorem mem_starts_iff :
    start ∈ (ofText text).starts ↔
      start = 0 ∨ ∃ k, start = k + 1 ∧ (utf8Bytes text)[k]? = some lineFeed := by
  rw [← Array.mem_toList_iff, toList_starts, List.mem_cons, List.mem_findIdxs_iff_getElem_sub_pos]
  refine or_congr_right ⟨?_, ?_⟩
  · rintro ⟨hle, hlt, hbyte⟩
    refine ⟨start - 1, by omega, ?_⟩
    rw [List.getElem?_eq_getElem hlt, eq_of_beq hbyte]
  · rintro ⟨k, rfl, hbyte⟩
    obtain ⟨hlt, hbyte⟩ := List.getElem?_eq_some_iff.1 hbyte
    exact ⟨Nat.le_add_left 1 k, hlt, beq_iff_eq.2 hbyte⟩

/-- An offset cuts the starts of lines into those up to it, of which there is one for each line feed
in front of it and one more, and those behind it. -/
theorem exists_starts_cut (text : String) (pos : Nat) :
    ∃ ks ks', (ofText text).starts.toList = ks ++ ks' ∧
      ks.length = ((utf8Bytes text).take pos).count lineFeed + 1 ∧
      (∀ start ∈ ks, start ≤ pos) ∧ ∀ start ∈ ks', pos < start := by
  refine ⟨0 :: ((utf8Bytes text).take pos).findIdxs (· == lineFeed) 1,
    ((utf8Bytes text).drop pos).findIdxs (· == lineFeed)
      (1 + ((utf8Bytes text).take pos).length), ?_, ?_, fun start hstart => ?_,
    fun start hstart => ?_⟩
  · rw [toList_starts, List.cons_append, ← List.findIdxs_append, List.take_append_drop]
  · rw [List.length_cons, List.length_findIdxs]
    rfl
  · rcases List.mem_cons.1 hstart with rfl | hmem
    · exact Nat.zero_le pos
    · have := List.lt_add_of_mem_findIdxs start hmem
      have := List.length_take_le pos (utf8Bytes text)
      omega
  · -- Behind an offset past the end there is nothing.
    rcases Nat.lt_or_ge (utf8Bytes text).length pos with hlt | hle
    · rw [List.drop_of_length_le (Nat.le_of_lt hlt)] at hstart
      cases hstart
    · have := List.ge_of_mem_findIdxs start hstart
      rw [List.length_take_of_le hle] at this
      omega

/-- **The line of an offset is the number of line feeds in front of it.** -/
theorem lineOf_ofText (text : String) (pos : Nat) :
    (ofText text).lineOf pos = ((utf8Bytes text).take pos).count lineFeed := by
  obtain ⟨ks, ks', hcut, hlength, hupto, hbehind⟩ := exists_starts_cut text pos
  rw [lineOf, rank_eq_length hcut hupto hbehind, hlength, Nat.add_sub_cancel]

/-- The lines up to that of an offset are those that do not start behind it. -/
theorem le_lineOf_iff (h : (ofText text).starts[i]? = some start) :
    i ≤ (ofText text).lineOf pos ↔ start ≤ pos := by
  obtain ⟨ks, ks', hcut, hlength, hupto, hbehind⟩ := exists_starts_cut text pos
  rw [← Array.getElem?_toList, hcut] at h
  rw [lineOf_ofText, ← Nat.lt_add_one_iff, ← hlength]
  rcases Nat.lt_or_ge i ks.length with hlt | hge
  · rw [List.getElem?_append_left hlt] at h
    exact iff_of_true hlt (hupto start (List.mem_of_getElem? h))
  · rw [List.getElem?_append_right hge] at h
    exact iff_of_false (Nat.not_lt.2 hge) (Nat.not_le.2 (hbehind start (List.mem_of_getElem? h)))

/-- The line of an offset has a start, which is not behind the offset. -/
theorem exists_start (text : String) (pos : Nat) :
    ∃ start ≤ pos, (ofText text).starts[(ofText text).lineOf pos]? = some start := by
  have hlt : (ofText text).lineOf pos < (ofText text).starts.size := by
    obtain ⟨ks, ks', hcut, hlength, -, -⟩ := exists_starts_cut text pos
    rw [lineOf_ofText, ← Array.length_toList, hcut, List.length_append]
    omega
  have hstart := Array.getElem?_eq_getElem hlt
  exact ⟨_, (le_lineOf_iff hstart).1 le_rfl, hstart⟩

/-- The start of the line and the column give the offset back. -/
theorem start_add_column
    (h : (ofText text).starts[(ofText text).lineOf pos]? = some start) :
    start + ((ofText text).positionOf pos).column = pos := by
  have hcolumn : ((ofText text).positionOf pos).column = pos - start := by
    rw [positionOf, Array.getD_eq_getD_getElem?, h, Option.getD_some]
  have hle := (le_lineOf_iff h).1 le_rfl
  omega

/-- **The line of an offset starts just behind the last line feed in front of it.** -/
theorem getElem?_lineOf {k : Nat} (hk : k < pos) (hbyte : (utf8Bytes text)[k]? = some lineFeed)
    (hlast : ∀ j, k < j → j < pos → (utf8Bytes text)[j]? ≠ some lineFeed) :
    (ofText text).starts[(ofText text).lineOf pos]? = some (k + 1) := by
  obtain ⟨i, hi⟩ := Array.mem_iff_getElem?.1 (mem_starts_iff.2 (.inr ⟨k, rfl, hbyte⟩))
  obtain ⟨start, hle, hstart⟩ := exists_start text pos
  rcases Nat.lt_or_eq_of_le ((le_lineOf_iff hi).2 hk) with hlt | heq
  · -- A line that started later would do so behind a later line feed.
    have hlater := getElem?_starts_lt hlt hi hstart
    obtain rfl | ⟨j, rfl, hj⟩ := mem_starts_iff.1 (Array.mem_of_getElem? hstart)
    · omega
    · exact absurd hj (hlast j (by omega) (by omega))
  · exact heq ▸ hi

/-- Where there is no line feed in front of an offset, its line is the first one. -/
theorem getElem?_lineOf_of_notMem (h : lineFeed ∉ (utf8Bytes text).take pos) :
    (ofText text).starts[(ofText text).lineOf pos]? = some 0 := by
  rw [lineOf_ofText, List.count_eq_zero.2 h, ← Array.getElem?_toList, toList_starts]
  rfl

end Starts

/-! ### Searching -/

section Searching

variable {text : String} {pos i : Nat}

/-- A line that starts at an offset is its line. -/
theorem eq_lineOf_of_found (h : (ofText text).starts[i]? = some pos) :
    i = (ofText text).lineOf pos := by
  obtain ⟨start, hle, hstart⟩ := exists_start text pos
  refine Nat.le_antisymm ((le_lineOf_iff h).2 le_rfl) (Nat.le_of_not_lt fun hlt => ?_)
  exact Nat.not_lt.2 hle (getElem?_starts_lt hlt h hstart)

/-- An offset at which no line starts belongs behind the start of its line. -/
theorem insertsAt_lineOf (h : (ofText text).starts[(ofText text).lineOf pos]? ≠ some pos) :
    (ofText text).InsertsAt pos ((ofText text).lineOf pos + 1) := by
  obtain ⟨start, hle, hstart⟩ := exists_start text pos
  have hlt : start < pos := Nat.lt_of_le_of_ne hle fun heq => h (heq ▸ hstart)
  refine ⟨?_, fun j start' hj hstart' => ?_, fun j start' hj hstart' => ?_⟩
  · exact (Array.getElem?_eq_some_iff.1 hstart).1
  · rcases Nat.lt_succ_iff_lt_or_eq.1 hj with hbefore | rfl
    · exact (getElem?_starts_lt hbefore hstart' hstart).trans hlt
    · exact Option.some.inj (hstart'.symm.trans hstart) ▸ hlt
  · exact Nat.lt_of_not_le fun hle' => Nat.not_lt.2 ((le_lineOf_iff hstart').2 hle') hj

/-- It belongs nowhere else. -/
theorem InsertsAt.eq (h : (ofText text).InsertsAt pos i) : i = (ofText text).lineOf pos + 1 := by
  obtain ⟨start, hle, hstart⟩ := exists_start text pos
  rcases Nat.lt_trichotomy i ((ofText text).lineOf pos + 1) with hlt | heq | hgt
  · exact absurd hle (Nat.not_le.2 (h.above _ start (Nat.le_of_lt_succ hlt) hstart))
  · exact heq
  · have hsize : (ofText text).lineOf pos + 1 < (ofText text).starts.size := hgt.trans_le h.le_size
    have hnext := Array.getElem?_eq_getElem hsize
    have hbelow := (le_lineOf_iff hnext).2 (Nat.le_of_lt (h.below _ _ hgt hnext))
    omega

/-- Further on in the text the line is a later one, or it is the same one and the column is. -/
theorem strictMono_positionOf (text : String) : StrictMono fun pos =>
    toLex (((ofText text).positionOf pos).line, ((ofText text).positionOf pos).column) := by
  intro pos pos' hlt
  obtain ⟨start, hle, hstart⟩ := exists_start text pos
  obtain ⟨start', -, hstart'⟩ := exists_start text pos'
  rw [Prod.Lex.toLex_lt_toLex]
  rcases Nat.lt_or_eq_of_le ((le_lineOf_iff hstart).2 (hle.trans (Nat.le_of_lt hlt))) with
    hline | hline
  · exact .inl hline
  · obtain rfl : start = start' := by
      rw [hline] at hstart
      exact Option.some.inj (hstart.symm.trans hstart')
    have hcolumn := start_add_column hstart
    have hcolumn' := start_add_column hstart'
    exact .inr ⟨hline, by dsimp only; omega⟩

end Searching

/-- **The table of a text locates every offset**, and never looks for a line in front of the first
one. -/
theorem locates_ofText (text : String) : (ofText text).Locates text where
  lineOf_eq := lineOf_ofText text
  line_eq pos := rfl
  column_first pos h := by
    have := start_add_column (getElem?_lineOf_of_notMem h)
    omega
  column_after pos k hk hbyte hlast := start_add_column (getElem?_lineOf hk hbyte hlast)
  start_add_column pos := by
    obtain ⟨start, -, hstart⟩ := exists_start text pos
    exact ⟨start, hstart, LineTable.start_add_column hstart⟩
  found_or_insertsAt pos := or_iff_not_imp_left.2 insertsAt_lineOf
  eq_lineOf_of_found pos i := LineTable.eq_lineOf_of_found
  eq_lineOf_of_insertsAt pos i := InsertsAt.eq
  strictMono := strictMono_positionOf text
  start_le start hstart := by
    obtain rfl | ⟨k, rfl, hbyte⟩ := mem_starts_iff.1 hstart
    · exact Nat.zero_le _
    · exact (List.getElem?_eq_some_iff.1 hbyte).1
  lineOf_le pos := by
    rw [lineOf_ofText, ← length_utf8Bytes]
    exact List.count_le_length.trans (List.length_take_le' pos _)

example : [0, 1, 2, 3, 4, 5, 9].map (ofText "é\n\nx").positionOf =
    [⟨0, 0⟩, ⟨0, 1⟩, ⟨0, 2⟩, ⟨1, 0⟩, ⟨2, 0⟩, ⟨2, 1⟩, ⟨2, 5⟩] := by cbv

end LineTable

end Jack
