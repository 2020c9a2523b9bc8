import Jack.Json.Reader
import Jack.Proofs.JsonText

/-!
# Values of JSON texts

The tokens of a value say what it is (`Json.tokens`), and a text is written for the value if it is
written for these tokens (`Json.WrittenAs`).  The reader keeps what is open on a stack, and so it
takes the tokens of a value at any depth and with any others behind them.

* `Json.readsAs_tokens` : the tokens of a value are read as the value, whatever is open and whatever
  comes behind them;
* `Json.numbersEnd_tokens` : no number of a value runs into the token behind it;
* `Json.parse?_eq_some` : **a text that is written for a value holds that value.**
-/

namespace Jack

/-! ### Tokens of values -/

mutual

/-- The tokens of a value. -/
def Json.tokens : Json → List JsonToken
  | .null => [.null]
  | .bool value => [.bool value]
  | .number digits => [.number digits]
  | .string content => [.string content]
  | .array [] => [.beginArray, .endArray]
  | .array (v :: vs) => .beginArray :: (v.tokens ++ (moreItems vs ++ [.endArray]))
  | .object [] => [.beginObject, .endObject]
  | .object ((name, v) :: ms) =>
    .beginObject :: .string name :: .colon :: (v.tokens ++ (moreMembers ms ++ [.endObject]))

/-- The tokens of further items of an array. -/
def moreItems : List Json → List JsonToken
  | [] => []
  | v :: vs => .comma :: (v.tokens ++ moreItems vs)

/-- The tokens of further members of an object. -/
def moreMembers : List (List JsonChar × Json) → List JsonToken
  | [] => []
  | (name, v) :: ms => .comma :: .string name :: .colon :: (v.tokens ++ moreMembers ms)

end

/-- The text is written for the value, in one of the ways that the grammar admits. -/
def Json.WrittenAs (v : Json) (text : String) : Prop := WritesTokens v.tokens text.toList

/-! ### Reading tokens -/

/-- The tokens start a value and are read as it, whatever is open and whatever comes behind them. -/
def ReadsAs (taken : List JsonToken) (v : Json) : Prop :=
  ∃ t rest state, taken = t :: rest ∧ t.start? = some state ∧
    ∀ frames ts, readJson state frames (rest ++ ts) = readJson (.after v) frames ts

section Reading

variable {taken : List JsonToken} {v : Json}

theorem readsAs_of_start {t : JsonToken} (h : t.start? = some (.after v)) : ReadsAs [t] v :=
  ⟨t, [], _, rfl, h, fun _ _ => rfl⟩

theorem ReadsAs.value (h : ReadsAs taken v) (frames : List JsonFrame) (ts : List JsonToken) :
    readJson .value frames (taken ++ ts) = readJson (.after v) frames ts := by
  obtain ⟨t, rest, state, rfl, hstart, hread⟩ := h
  rw [List.cons_append, readJson, hstart, ← hread]

/-- The first item of an array is a value like any other. -/
theorem ReadsAs.firstItem (h : ReadsAs taken v) (frames : List JsonFrame) (ts : List JsonToken) :
    readJson .firstItem frames (taken ++ ts) = readJson (.after v) (.array [] :: frames) ts := by
  obtain ⟨t, rest, state, rfl, hstart, hread⟩ := h
  rw [List.cons_append, ← hread]
  cases t <;> cases hstart <;> rfl

mutual

/-- The tokens of a value are read as the value. -/
theorem Json.readsAs_tokens : ∀ v : Json, ReadsAs v.tokens v
  | .null | .bool _ | .number _ | .string _ => readsAs_of_start rfl
  | .array [] => ⟨.beginArray, [.endArray], .firstItem, rfl, rfl, fun _ _ => rfl⟩
  | .array (v :: vs) => by
    refine ⟨.beginArray, _, .firstItem, rfl, rfl, fun frames ts => ?_⟩
    rw [List.append_assoc, (Json.readsAs_tokens v).firstItem, List.append_assoc,
      List.singleton_append, readJson_moreItems]
    rfl
  | .object [] => ⟨.beginObject, [.endObject], .firstName, rfl, rfl, fun _ _ => rfl⟩
  | .object ((name, v) :: ms) => by
    refine ⟨.beginObject, _, .firstName, rfl, rfl, fun frames ts => ?_⟩
    rw [List.cons_append, List.cons_append, List.append_assoc, readJson, readJson,
      (Json.readsAs_tokens v).value, List.append_assoc, List.singleton_append, readJson_moreMembers]
    rfl

/-- Further items are read behind those that are done. -/
theorem readJson_moreItems : ∀ (vs done : List Json) (w : Json) (frames : List JsonFrame)
    (ts : List JsonToken),
    readJson (.after w) (.array done :: frames) (moreItems vs ++ .endArray :: ts) =
      readJson (.after (.array ((w :: done).reverse ++ vs))) frames ts
  | [], done, w, frames, ts => by
    rw [moreItems, List.nil_append, readJson, List.append_nil]
  | v :: vs, done, w, frames, ts => by
    rw [moreItems, List.cons_append, readJson, List.append_assoc, (Json.readsAs_tokens v).value,
      readJson_moreItems vs, List.reverse_cons, List.append_assoc]
    rfl

/-- Further members are read behind those that are done. -/
theorem readJson_moreMembers : ∀ (ms done : List (List JsonChar × Json)) (name : List JsonChar)
    (w : Json) (frames : List JsonFrame) (ts : List JsonToken),
    readJson (.after w) (.member done name :: frames) (moreMembers ms ++ .endObject :: ts) =
      readJson (.after (.object (((name, w) :: done).reverse ++ ms))) frames ts
  | [], done, name, w, frames, ts => by
    rw [moreMembers, List.nil_append, readJson, List.append_nil]
  | (name', v) :: ms, done, name, w, frames, ts => by
    rw [moreMembers, List.cons_append, readJson, List.cons_append, readJson, List.cons_append,
      readJson, List.append_assoc, (Json.readsAs_tokens v).value, readJson_moreMembers ms,
      List.reverse_cons, List.append_assoc]
    rfl

end

end Reading

/-! ### Numbers among the tokens -/

/-- The tokens may come behind a value. -/
structure ComesBehind (ts : List JsonToken) : Prop where
  /-- Their own numbers end. -/
  numbersEnd : NumbersEnd ts
  /-- So does a number in front of them. -/
  endsValue : ∀ t ∈ ts.head?, t.endsValue = true

section Numbers

variable {t : JsonToken} {ts : List JsonToken}

theorem NumbersEnd.cons (h : NumbersEnd ts) (ht : ∀ digits, t ≠ .number digits) :
    NumbersEnd (t :: ts) :=
  List.isChain_cons.2 ⟨fun _ _ digits hdigits => absurd hdigits (ht digits), h⟩

theorem NumbersEnd.comesBehind (h : NumbersEnd ts) (ht : t.endsValue = true) :
    ComesBehind (t :: ts) where
  numbersEnd := h.cons fun digits hdigits => by
    rw [hdigits] at ht
    cases ht
  endsValue := by
    rintro t' ⟨⟩
    exact ht

theorem ComesBehind.number (h : ComesBehind ts) (digits : List Char) :
    NumbersEnd (.number digits :: ts) :=
  List.isChain_cons.2 ⟨fun t' ht' _ _ => h.endsValue t' ht', h.numbersEnd⟩

theorem comesBehind_nil : ComesBehind [] := ⟨.nil, by simp⟩

mutual

/-- The numbers of a value end. -/
theorem Json.numbersEnd_tokens : ∀ (v : Json) {ts : List JsonToken}, ComesBehind ts →
    NumbersEnd (v.tokens ++ ts)
  | .null, _, h | .bool _, _, h | .string _, _, h => h.numbersEnd.cons (by simp)
  | .number digits, _, h => h.number digits
  | .array [], _, h => (h.numbersEnd.comesBehind rfl).numbersEnd.cons (by simp)
  | .array (v :: vs), ts, h => by
    have hend : ComesBehind (.endArray :: ts) := h.numbersEnd.comesBehind rfl
    rw [Json.tokens, List.cons_append, List.append_assoc, List.append_assoc]
    exact (v.numbersEnd_tokens (comesBehind_moreItems vs hend)).cons (by simp)
  | .object [], _, h => (h.numbersEnd.comesBehind rfl).numbersEnd.cons (by simp)
  | .object ((name, v) :: ms), ts, h => by
    have hend : ComesBehind (.endObject :: ts) := h.numbersEnd.comesBehind rfl
    have hv := v.numbersEnd_tokens (comesBehind_moreMembers ms hend)
    rw [Json.tokens, List.cons_append, List.cons_append, List.cons_append, List.append_assoc,
      List.append_assoc]
    exact ((hv.cons (by simp)).cons (by simp)).cons (by simp)

theorem comesBehind_moreItems : ∀ (vs : List Json) {ts : List JsonToken}, ComesBehind ts →
    ComesBehind (moreItems vs ++ ts)
  | [], _, h => h
  | v :: vs, ts, h => by
    rw [moreItems, List.cons_append, List.append_assoc]
    exact (v.numbersEnd_tokens (comesBehind_moreItems vs h)).comesBehind rfl

theorem comesBehind_moreMembers : ∀ (ms : List (List JsonChar × Json)) {ts : List JsonToken},
    ComesBehind ts → ComesBehind (moreMembers ms ++ ts)
  | [], _, h => h
  | (name, v) :: ms, ts, h => by
    have hv := v.numbersEnd_tokens (comesBehind_moreMembers ms h)
    rw [moreMembers, List.cons_append, List.cons_append, List.cons_append, List.append_assoc]
    exact ((hv.cons (by simp)).cons (by simp)).comesBehind rfl

end

end Numbers

/-- **A text that is written for a value holds that value.** -/
theorem Json.parse?_eq_some {v : Json} {text : String} (h : v.WrittenAs text) :
    Json.parse? text = some v := by
  have hends : NumbersEnd v.tokens := by
    simpa using v.numbersEnd_tokens comesBehind_nil
  have hread : readJson .value [] v.tokens = some v := by
    simpa [readJson] using v.readsAs_tokens.value [] []
  rw [Json.parse?, jsonTokens?_eq_some h hends, Option.bind_some, hread]

end Jack
