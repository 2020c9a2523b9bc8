import Jack.Json.Writer
import Jack.Proofs.JsonReading

/-!
# Readers and writers of JSON

Nothing is asked of what reads and what writes JSON but that they follow its grammar.  A reader then
answers the value of any text that is written for one (`JsonReader.FollowsGrammar`), and a writer
makes of a record the text of an object with the same fields in the same order
(`JsonWriter.FollowsGrammar`), where it may write names and texts in any way that spells them
(`SpellsText`).

* `decodeJsonChars?_eq_some` : a string has the text that it spells;
* `Json.parse?_followsGrammar`, `Json.writeRecord_followsGrammar` : there are such a reader and such
  a writer.
-/

namespace Jack

/-! ### Spelling of texts -/

/-- How the characters of a text may be given in a string: by themselves, by one unit, or by two
units if the number of the character does not fit into one. -/
inductive SpellsChars : List JsonChar → List Char → Prop where
  /-- Nothing. -/
  | nil : SpellsChars [] []
  /-- A character is given by itself. -/
  | char {content : List JsonChar} {cs : List Char} (c : Char) (h : SpellsChars content cs) :
    SpellsChars (.char c :: content) (c :: cs)
  /-- The number of a character is a unit. -/
  | unit {content : List JsonChar} {cs : List Char} {c : Char} (hc : c.toNat < 0x10000)
    (h : SpellsChars content cs) : SpellsChars (.unit c.toNat :: content) (c :: cs)
  /-- The number of a character beyond is split in two. -/
  | pair {content : List JsonChar} {cs : List Char} {c : Char} (hc : 0x10000 ≤ c.toNat)
    (h : SpellsChars content cs) :
    SpellsChars (.unit (0xD800 + (c.toNat - 0x10000) / 0x400) ::
      .unit (0xDC00 + (c.toNat - 0x10000) % 0x400) :: content) (c :: cs)

/-- The string spells the text. -/
def SpellsText (content : List JsonChar) (text : String) : Prop := SpellsChars content text.toList

section Spelling

variable {content : List JsonChar} {cs : List Char}

/-- The number of a character is none of those that units need for pairs. -/
theorem toNat_valid (c : Char) :
    c.toNat < 0xD800 ∨ 0xDFFF < c.toNat ∧ c.toNat < 0x110000 := c.valid

/-- A unit that needs no partner stands for the character of its number. -/
theorem decodeJsonCharsFrom_unit {n : Nat} (hhigh : isHighUnit n = false)
    (hlow : isLowUnit n = false) (done : List Char) (content : List JsonChar) :
    decodeJsonCharsFrom done (.unit n :: content) =
      decodeJsonCharsFrom (Char.ofNat n :: done) content := by
  cases content with
  | nil => simp [decodeJsonCharsFrom, hhigh, hlow]
  | cons p content => cases p <;> simp [decodeJsonCharsFrom, hhigh, hlow]

theorem pairedChar_eq {c : Char} (hc : 0x10000 ≤ c.toNat) :
    pairedChar (0xD800 + (c.toNat - 0x10000) / 0x400) (0xDC00 + (c.toNat - 0x10000) % 0x400) =
      c := by
  rw [pairedChar]
  have hnumber : 0x10000 + (0xD800 + (c.toNat - 0x10000) / 0x400 - 0xD800) * 0x400 +
      (0xDC00 + (c.toNat - 0x10000) % 0x400 - 0xDC00) = c.toNat := by omega
  rw [hnumber, Char.ofNat_toNat]

theorem decodeJsonCharsFrom_eq_some (h : SpellsChars content cs) (done : List Char) :
    decodeJsonCharsFrom done content = some (done.reverse ++ cs) := by
  induction h generalizing done with
  | nil => simp [decodeJsonCharsFrom]
  | char c _ ih => simp [decodeJsonCharsFrom, ih]
  | @unit content cs c hc _ ih =>
    have hvalid := toNat_valid c
    have hhigh : isHighUnit c.toNat = false := by
      simp [isHighUnit]
      omega
    have hlow : isLowUnit c.toNat = false := by
      simp [isLowUnit]
      omega
    rw [decodeJsonCharsFrom_unit hhigh hlow, Char.ofNat_toNat, ih]
    simp
  | @pair content cs c hc _ ih =>
    have hvalid := toNat_valid c
    have hhigh : isHighUnit (0xD800 + (c.toNat - 0x10000) / 0x400) = true := by
      simp [isHighUnit]
      omega
    have hlow : isLowUnit (0xDC00 + (c.toNat - 0x10000) % 0x400) = true := by
      simp [isLowUnit]
      omega
    rw [decodeJsonCharsFrom, if_pos hhigh, if_pos hlow, pairedChar_eq hc, ih]
    simp

/-- **A string has the text that it spells.** -/
theorem decodeJsonChars?_eq_some {text : String} (h : SpellsText content text) :
    decodeJsonChars? content = some text := by
  rw [decodeJsonChars?, decodeJsonCharsFrom_eq_some h]
  simp

end Spelling

/-! ### Readers and writers -/

/-- The value is that of a field, with its text spelled in some way. -/
inductive JsonScalar.Gives : JsonScalar → Json → Prop where
  /-- There is no value. -/
  | null : Gives .null .null
  /-- A truth value. -/
  | bool (b : Bool) : Gives (.bool b) (.bool b)
  /-- A text. -/
  | text {content : List JsonChar} {text : String} (h : SpellsText content text) :
    Gives (.text text) (.string content)

/-- The member of an object is that for the field of a record. -/
structure IsMemberFor (field : String × JsonScalar) (member : List JsonChar × Json) : Prop where
  /-- It has the name of the field. -/
  name : SpellsText member.1 field.1
  /-- It has the value of the field. -/
  value : field.2.Gives member.2

/-- The reader follows the grammar of JSON: it answers the value that a text is written for. -/
def JsonReader.FollowsGrammar (read : JsonReader) : Prop :=
  ∀ (v : Json) (text : String), v.WrittenAs text → read text = some v

/-- The writer follows the grammar of JSON: it writes a record as an object with a member for each
field, in order. -/
def JsonWriter.FollowsGrammar (write : JsonWriter) : Prop :=
  ∀ fields : List (String × JsonScalar), ∃ members,
    List.Forall₂ IsMemberFor fields members ∧ (Json.object members).WrittenAs (write fields)

/-- The reader of token lists follows the grammar. -/
theorem Json.parse?_followsGrammar : JsonReader.FollowsGrammar Json.parse? :=
  fun _ _ h => parse?_eq_some h

/-! ### Writing without blanks -/

section Writing

variable {ts : List JsonToken} {rest : List Char}

theorem writesTokens_nil : WritesTokens [] [] := .nil (List.forall_mem_nil _)

theorem WritesTokens.lexeme {t : JsonToken} {lexeme : List Char} (h : WritesTokens ts rest)
    (ht : t.WrittenAs lexeme) : WritesTokens (t :: ts) (lexeme ++ rest) :=
  @WritesTokens.cons t ts [] lexeme rest (List.forall_mem_nil _) ht h

theorem WritesTokens.fixed (h : WritesTokens ts rest) (t : JsonToken) {lexeme : List Char}
    (ht : t.fixed? = some lexeme) : WritesTokens (t :: ts) (lexeme ++ rest) :=
  h.lexeme (.fixed ht)

theorem WritesTokens.blank (h : WritesTokens ts rest) {b : Char}
    (hb : b ∈ [' ', '\t', '\n', '\r']) : WritesTokens ts (b :: rest) := by
  cases h with
  | nil hblanks => exact .nil (List.forall_mem_cons.2 ⟨hb, hblanks⟩)
  | @cons t ts blanks lexeme rest hblanks ht h =>
    exact @WritesTokens.cons t ts (b :: blanks) lexeme rest
      (List.forall_mem_cons.2 ⟨hb, hblanks⟩) ht h

theorem hexDigit_mem {n : Nat} (h : n < 16) : (hexDigit n, n) ∈ hexDigits := by
  have hall : ∀ n < 16, (hexDigit n, n) ∈ hexDigits := by decide
  exact hall n h

theorem writtenAs_unitEscape {n : Nat} (h : n < 0x10000) :
    (JsonChar.unit n).WrittenAs (unitEscape n) := by
  have hn : n = ((n / 4096 % 16 * 16 + n / 256 % 16) * 16 + n / 16 % 16) * 16 + n % 16 := by
    omega
  rw [unitEscape]
  conv in JsonChar.unit n => rw [hn]
  exact .unit (hexDigit_mem (by omega)) (hexDigit_mem (by omega)) (hexDigit_mem (by omega))
    (hexDigit_mem (by omega))

/-- The writer escapes a character by a letter or by its number, or it leaves the character as it
is. -/
theorem escapeChar_cases (c : Char) :
    (∃ e, (e, c) ∈ letterEscapes ∧ escapeChar c = ['\\', e]) ∨
      (c.toNat < 0x20 ∧ escapeChar c = unitEscape c.toNat) ∨
        (c ≠ '"' ∧ c ≠ '\\' ∧ 0x20 ≤ c.toNat ∧ escapeChar c = [c]) := by
  unfold escapeChar
  split
  case h_8 hquote hbackslash _ _ _ _ _ =>
    by_cases hcontrol : c.toNat < 0x20
    · exact .inr (.inl ⟨hcontrol, if_pos hcontrol⟩)
    · exact .inr (.inr ⟨hquote, hbackslash, Nat.le_of_not_lt hcontrol, if_neg hcontrol⟩)
  all_goals exact .inl ⟨_, by decide, rfl⟩

theorem exists_writtenAs_escapeChar (c : Char) : ∃ p : JsonChar, p.WrittenAs (escapeChar c) ∧
    ∀ content cs, SpellsChars content cs → SpellsChars (p :: content) (c :: cs) := by
  rcases escapeChar_cases c with ⟨e, he, hc⟩ | ⟨hcontrol, hc⟩ | ⟨hquote, hbackslash, hcontrol, hc⟩
  · exact ⟨.char c, hc ▸ .letter he, fun _ _ h => h.char c⟩
  · exact ⟨.unit c.toNat, hc ▸ writtenAs_unitEscape (by omega), fun _ _ h => h.unit (by omega)⟩
  · exact ⟨.char c, hc ▸ .plain hquote hbackslash hcontrol, fun _ _ h => h.char c⟩

/-- What the writer makes of a text is a string that spells it. -/
theorem exists_content (cs : List Char) :
    ∃ content, WritesJsonChars content (cs.flatMap escapeChar) ∧ SpellsChars content cs := by
  induction cs with
  | nil => exact ⟨[], .nil, .nil⟩
  | cons c cs ih =>
    obtain ⟨content, hwritten, hspells⟩ := ih
    obtain ⟨p, hp, hcons⟩ := exists_writtenAs_escapeChar c
    exact ⟨p :: content, .cons hp hwritten, hcons content cs hspells⟩

theorem exists_writtenText (text : String) : ∃ content, SpellsText content text ∧
    (JsonToken.string content).WrittenAs (writtenText text) := by
  obtain ⟨content, hwritten, hspells⟩ := exists_content text.toList
  exact ⟨content, hspells, .string hwritten⟩

/-- The value of a field is written as one token. -/
theorem JsonScalar.exists_gives (s : JsonScalar) :
    ∃ v t, s.Gives v ∧ v.tokens = [t] ∧ t.WrittenAs s.written := by
  cases s with
  | null => exact ⟨.null, .null, .null, rfl, .fixed rfl⟩
  | bool b => exact ⟨.bool b, .bool b, .bool b, rfl, by cases b <;> exact .fixed rfl⟩
  | text text =>
    obtain ⟨content, hspells, hwritten⟩ := exists_writtenText text
    exact ⟨.string content, .string content, .text hspells, rfl, hwritten⟩

/-- A field is written as a member for it, whatever comes behind. -/
theorem exists_member (field : String × JsonScalar) : ∃ key v, IsMemberFor field (key, v) ∧
    ∀ ts rest, WritesTokens ts rest →
      WritesTokens (.string key :: .colon :: (v.tokens ++ ts)) (writtenField field ++ rest) := by
  obtain ⟨key, hkey, hname⟩ := exists_writtenText field.1
  obtain ⟨v, t, hgives, ht, hwritten⟩ := field.2.exists_gives
  refine ⟨key, v, ⟨hkey, hgives⟩, fun ts rest h => ?_⟩
  rw [ht, List.singleton_append, writtenField, List.append_assoc]
  exact ((h.lexeme hwritten).fixed .colon rfl).lexeme hname

/-- Further fields are written as further members. -/
theorem exists_moreMembers (fields : List (String × JsonScalar)) :
    ∃ members, List.Forall₂ IsMemberFor fields members ∧
      ∀ ts rest, WritesTokens ts rest → WritesTokens (moreMembers members ++ ts)
        (fields.flatMap (',' :: writtenField ·) ++ rest) := by
  induction fields with
  | nil => exact ⟨[], .nil, fun _ _ h => h⟩
  | cons field fields ih =>
    obtain ⟨key, v, hmember, hfirst⟩ := exists_member field
    obtain ⟨members, hmembers, hmore⟩ := ih
    refine ⟨(key, v) :: members, .cons hmember hmembers, fun ts rest h => ?_⟩
    simpa [moreMembers] using (hfirst _ _ (hmore ts rest h)).fixed .comma rfl

/-- The writer without blanks follows the grammar. -/
theorem Json.writeRecord_followsGrammar : JsonWriter.FollowsGrammar Json.writeRecord := by
  intro fields
  have hend := writesTokens_nil.fixed .endObject rfl
  cases fields with
  | nil =>
    refine ⟨[], .nil, ?_⟩
    rw [WrittenAs, writeRecord, String.toList_ofList]
    exact hend.fixed .beginObject rfl
  | cons field fields =>
    obtain ⟨key, v, hmember, hfirst⟩ := exists_member field
    obtain ⟨members, hmembers, hmore⟩ := exists_moreMembers fields
    refine ⟨(key, v) :: members, .cons hmember hmembers, ?_⟩
    rw [WrittenAs, writeRecord, String.toList_ofList]
    exact (hfirst _ _ (hmore _ _ hend)).fixed .beginObject rfl

end Writing

end Jack
