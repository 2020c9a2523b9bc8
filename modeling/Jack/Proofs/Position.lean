import Jack.Proofs.Offset
import Jack.Text.LineTable
import Jack.Text.Slice
import Jack.Token.Lexer
import Mathlib.Data.List.DropRight
import Mathlib.Data.String.Basic

/-!
# Pieces of a text

A span of a text that lies between character boundaries cuts it into what comes before, a piece, and
what comes after (`Span.Cuts`), and the slice at the span is the piece.  A span that is made for a
piece (`Span.Marks`) cuts it out as long as the text has fewer than 2 ^ 32 bytes.  The line table
places the span by what comes before it.

* `exists_cuts` : a span between two boundaries cuts the text;
* `Span.Marks.cuts` : the span of a piece cuts it out of a text that is not too long;
* `Span.Cuts.slice?_eq` : the slice at a span is the piece that it cuts out;
* `LineTable.positionOf_ofText` : **an offset is in the line that has as many line feeds before it
  as the offset, at the column that counts the bytes since the last of them.**
-/

namespace Jack

/-! ### Boundaries -/

/-- The offset lies between two characters, or at one of the ends. -/
def IsBoundary (cs : List Char) (n : Nat) : Prop :=
  ∃ before after, cs = before ++ after ∧ n = byteLength before

theorem isBoundary_zero (cs : List Char) : IsBoundary cs 0 := ⟨[], cs, rfl, rfl⟩

theorem byteLength_eq_utf8Len (cs : List Char) : byteLength cs = String.utf8Len cs := by
  induction cs with
  | nil => rfl
  | cons c cs ih => rw [byteLength_cons, String.utf8Len_cons, ih, Nat.add_comm]

theorem utf8ByteSize_eq_byteLength (text : String) :
    text.utf8ByteSize = byteLength text.toList := by
  rw [byteLength_eq_utf8Len, String.utf8Len_toList]

/-- The boundaries of a text are those of its characters. -/
theorem isBoundary_iff {text : String} {n : Nat} :
    isBoundary text n = true ↔ IsBoundary text.toList n := by
  rw [isBoundary, String.Pos.Raw.isValid_eq_true_iff, String.Pos.Raw.isValid_iff_exists_append]
  constructor
  · rintro ⟨s, s', rfl, hn⟩
    refine ⟨s.toList, s'.toList, String.toList_append, ?_⟩
    rw [← utf8ByteSize_eq_byteLength]
    exact congrArg String.Pos.Raw.byteIdx hn
  · rintro ⟨before, after, hcut, hn⟩
    refine ⟨String.ofList before, String.ofList after, ?_, ?_⟩
    · rw [← String.ofList_append, ← hcut, String.ofList_toList]
    · rw [String.rawEndPos_ofList, hn, byteLength_eq_utf8Len]

/-! ### Cutting out a piece -/

/-- The characters are what comes before the span, the piece at the span, and what comes after. -/
structure Span.Cuts (span : Span) (cs before piece after : List Char) : Prop where
  /-- The three parts in a row. -/
  eq_append : cs = before ++ (piece ++ after)
  /-- The span begins behind the first part. -/
  start_eq : span.start.toNat = byteLength before
  /-- It ends behind the second one. -/
  stop_eq : span.stop.toNat = byteLength before + byteLength piece

/-- The characters are some in front of the piece, the piece, and some behind it, and the span is
made for the piece. -/
structure Span.Marks (span : Span) (cs before piece after : List Char) : Prop where
  /-- The three parts in a row. -/
  eq_append : cs = before ++ (piece ++ after)
  /-- The span is that of the second part. -/
  span_eq : span = .between (byteLength before) (byteLength before + byteLength piece)

theorem prefix_of_byteLength_le {cs before before' after after' : List Char}
    (h : cs = before ++ after) (h' : cs = before' ++ after')
    (hle : byteLength before ≤ byteLength before') : before <+: before' := by
  rcases List.prefix_or_prefix_of_prefix ⟨after, h.symm⟩ ⟨after', h'.symm⟩ with hp | hp
  · exact hp
  · -- The longer of the two has no more bytes, so it has nothing that the other one lacks.
    obtain ⟨more, rfl⟩ := hp
    cases more with
    | nil => simp
    | cons c more =>
      have hpos := c.utf8Size_pos
      simp only [byteLength_append, byteLength_cons] at hle
      omega

/-- A span between two boundaries cuts out a piece. -/
theorem exists_cuts {cs : List Char} {span : Span} (hstart : IsBoundary cs span.start.toNat)
    (hstop : IsBoundary cs span.stop.toNat) (hle : span.start ≤ span.stop) :
    ∃ before piece after, span.Cuts cs before piece after := by
  obtain ⟨before, rest, hcut, hn⟩ := hstart
  obtain ⟨upto, after, hcut', hn'⟩ := hstop
  obtain ⟨piece, rfl⟩ :=
    prefix_of_byteLength_le hcut hcut' (hn ▸ hn' ▸ UInt32.le_iff_toNat_le.1 hle)
  exact ⟨before, piece, after, by rw [hcut', List.append_assoc], hn, by
    rw [hn', byteLength_append]⟩

namespace Span.Cuts

variable {span : Span} {text : String} {cs before piece after : List Char}

theorem isBoundary_start (h : span.Cuts cs before piece after) :
    IsBoundary cs span.start.toNat :=
  ⟨before, piece ++ after, h.eq_append, h.start_eq⟩

theorem isBoundary_stop (h : span.Cuts cs before piece after) :
    IsBoundary cs span.stop.toNat :=
  ⟨before ++ piece, after, by rw [h.eq_append, List.append_assoc], by
    rw [h.stop_eq, byteLength_append]⟩

theorem start_le_stop (h : span.Cuts cs before piece after) : span.start ≤ span.stop := by
  rw [UInt32.le_iff_toNat_le, h.start_eq, h.stop_eq]
  exact Nat.le_add_right _ _

theorem stop_le (h : span.Cuts cs before piece after) : span.stop.toNat ≤ byteLength cs := by
  rw [h.eq_append, h.stop_eq, byteLength_append, byteLength_append]
  omega

/-- The slice at a span is the piece that the span cuts out. -/
theorem slice?_eq (h : span.Cuts text.toList before piece after) :
    slice? text span = some (String.ofList piece) := by
  have htext : text = String.ofList (before ++ piece ++ after) := by
    rw [List.append_assoc, ← h.eq_append, String.ofList_toList]
  have hstart := isBoundary_iff.2 h.isBoundary_start
  have hstop := isBoundary_iff.2 h.isBoundary_stop
  have hextract := String.extract_of_valid before piece after
  rw [slice?, if_pos (by simp [h.start_le_stop, hstart, hstop]), h.start_eq, h.stop_eq, htext,
    byteLength_eq_utf8Len, byteLength_eq_utf8Len, hextract]

end Span.Cuts

/-- The span of a piece cuts it out of a text that is not too long. -/
theorem Span.Marks.cuts {span : Span} {text : String} {before piece after : List Char}
    (h : span.Marks text.toList before piece after) (htext : Addressable text) :
    span.Cuts text.toList before piece after := by
  have hlt : byteLength before + byteLength piece < 2 ^ 32 := by
    rw [Addressable, utf8ByteSize_eq_byteLength, h.eq_append, byteLength_append,
      byteLength_append] at htext
    omega
  rw [h.span_eq]
  exact ⟨h.eq_append, toNat_ofNat_of_lt (by omega), toNat_ofNat_of_lt hlt⟩

/-! ### Lines -/

namespace LineTable

/-- The offsets just after the line feeds of characters that begin at an offset. -/
def lineStarts (offset : Nat) : List Char → List Nat
  | [] => []
  | c :: cs =>
    if c = '\n' then (offset + c.utf8Size) :: lineStarts (offset + c.utf8Size) cs
    else lineStarts (offset + c.utf8Size) cs

theorem toList_startsFrom (offset : Nat) (starts : Array Nat) (cs : List Char) :
    (startsFrom offset starts cs).toList = starts.toList ++ lineStarts offset cs := by
  induction cs generalizing offset starts with
  | nil => simp [startsFrom, lineStarts]
  | cons c cs ih =>
    rw [startsFrom, lineStarts, ih]
    by_cases hc : c = '\n' <;> simp [hc]

theorem lineStarts_append (offset : Nat) (cs ds : List Char) :
    lineStarts offset (cs ++ ds) =
      lineStarts offset cs ++ lineStarts (offset + byteLength cs) ds := by
  induction cs generalizing offset with
  | nil => rfl
  | cons c cs ih =>
    rw [List.cons_append, lineStarts, lineStarts, ih, byteLength_cons, ← Nat.add_assoc]
    by_cases hc : c = '\n' <;> simp [hc]

theorem length_lineStarts (offset : Nat) (cs : List Char) :
    (lineStarts offset cs).length = cs.count '\n' := by
  induction cs generalizing offset with
  | nil => rfl
  | cons c cs ih =>
    rw [lineStarts, List.count_cons]
    by_cases hc : c = '\n' <;> simp [hc, ih]

/-- A line starts behind the first of the characters, and at the latest behind the last one. -/
theorem bounds_of_mem_lineStarts {offset k : Nat} {cs : List Char} (h : k ∈ lineStarts offset cs) :
    offset < k ∧ k ≤ offset + byteLength cs := by
  induction cs generalizing offset with
  | nil => cases h
  | cons c cs ih =>
    have hpos := c.utf8Size_pos
    rw [lineStarts] at h
    rw [byteLength_cons]
    by_cases hc : c = '\n'
    · rw [if_pos hc] at h
      rcases List.mem_cons.1 h with rfl | h
      · omega
      · have := ih h
        omega
    · rw [if_neg hc] at h
      have := ih h
      omega

/-- The last line starts at the offset that leaves its characters. -/
theorem getLast_lineStarts (offset : Nat) (cs : List Char) :
    (offset :: lineStarts offset cs).getLast (List.cons_ne_nil _ _) +
      byteLength (cs.rtakeWhile (· != '\n')) = offset + byteLength cs := by
  induction cs using List.reverseRecOn with
  | nil => rfl
  | append_singleton cs c ih =>
    by_cases hc : c = '\n'
    · subst hc
      simp [lineStarts_append, lineStarts, Nat.add_assoc]
    · simp only [lineStarts_append, lineStarts, if_neg hc, List.append_nil,
        List.rtakeWhile_concat, byteLength_append]
      simp [hc]
      omega

/-- Bisection finds the place where the entries begin to be larger. -/
theorem bisect_eq {starts : Array Nat} {pos k lo hi : Nat} (hbelow : ∀ i < k, starts.getD i 0 ≤ pos)
    (habove : ∀ i, k ≤ i → i < starts.size → pos < starts.getD i 0) (hlo : lo ≤ k) (hhi : k ≤ hi)
    (hsize : hi ≤ starts.size) : bisect starts pos lo hi = k := by
  fun_induction bisect starts pos lo hi with
  | case1 lo hi hlt mid hle ih =>
    -- The entry in the middle is not larger, so the place is behind it.
    have hmid : mid < k := Nat.lt_of_not_le fun h =>
      Nat.not_lt.2 hle (habove mid h (by omega))
    exact ih hmid hhi hsize
  | case2 lo hi hlt mid hgt ih =>
    have hmid : k ≤ mid := Nat.le_of_not_lt fun h => hgt (hbelow mid h)
    exact ih hlo hmid (by omega)
  | case3 lo hi hge => omega

/-- Where the starts of lines are cut into those up to an offset and those behind it, the first part
is what the offset is ranked by. -/
theorem rank_eq_length {m : LineTable} {pos : Nat} {ks ks' : List Nat}
    (h : m.starts.toList = ks ++ ks') (hks : ∀ k ∈ ks, k ≤ pos) (hks' : ∀ k ∈ ks', pos < k) :
    m.rank pos = ks.length := by
  have hget (i : Nat) : m.starts.getD i 0 = (ks ++ ks')[i]?.getD 0 := by
    rw [← h]
    simp
  have hsize : m.starts.size = ks.length + ks'.length := by
    rw [← Array.length_toList, h, List.length_append]
  refine bisect_eq (fun i hi => ?below) (fun i hi hlt => ?above) (Nat.zero_le _) (by omega) le_rfl
  case below =>
    rw [hget, List.getElem?_append_left hi, List.getElem?_eq_getElem hi]
    exact hks _ (List.getElem_mem hi)
  case above =>
    have hi' : i - ks.length < ks'.length := by omega
    rw [hget, List.getElem?_append_right hi, List.getElem?_eq_getElem hi']
    exact hks' _ (List.getElem_mem hi')

/-- The place of an offset behind `before` characters of a text. -/
theorem positionOf_ofText {text : String} {before after : List Char}
    (h : text.toList = before ++ after) :
    (ofText text).positionOf (byteLength before) =
      ⟨before.count '\n', byteLength (before.rtakeWhile (· != '\n'))⟩ := by
  have hlist : (ofText text).starts.toList =
      (0 :: lineStarts 0 before) ++ lineStarts (byteLength before) after := by
    rw [ofText, toList_startsFrom, h, lineStarts_append, Nat.zero_add]
    rfl
  have hlength : (0 :: lineStarts 0 before).length = before.count '\n' + 1 := by
    rw [List.length_cons, length_lineStarts]
  have hget (i : Nat) : (ofText text).starts.getD i 0 =
      ((0 :: lineStarts 0 before) ++ lineStarts (byteLength before) after)[i]?.getD 0 := by
    rw [← hlist]
    simp
  have hrank : (ofText text).rank (byteLength before) = before.count '\n' + 1 := by
    refine (rank_eq_length hlist (fun k hk => ?below) fun k hk => ?above).trans hlength
    case below =>
      rcases List.mem_cons.1 hk with hzero | hmem
      · omega
      · have := bounds_of_mem_lineStarts hmem
        omega
    case above => exact (bounds_of_mem_lineStarts hk).1
  have hlast := getLast_lineStarts 0 before
  have hstart : (ofText text).starts.getD (before.count '\n') 0 =
      (0 :: lineStarts 0 before).getLast (List.cons_ne_nil _ _) := by
    rw [hget, List.getElem?_append_left (by omega), List.getLast_eq_getElem]
    simp [length_lineStarts]
  rw [positionOf, lineOf, hrank, Nat.add_sub_cancel, hstart]
  congr 1
  omega

end LineTable

end Jack
