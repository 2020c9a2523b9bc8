import Jack.Json.Token
import Jack.Proofs.LexicalGrammar
import Jack.Text.Decimal
import Mathlib.Data.List.Chain
import Mathlib.Data.List.Forall2

/-!
# Texts of JSON

The grammar of JSON says how tokens are written, one after the other with blanks in front of each
and behind the last one (`WritesTokens`).  A character of a string may be written as itself, by a
letter or by its number, and nothing shows where a number ends but the character behind it.

* `readJsonString_append`, `readNumber_append` : strings and numbers are read as the grammar writes
  them;
* `jsonTokens?_eq_some` : **a text is cut into the tokens that it is written for**, if none of them
  is a number with a token behind it that does not end a value (`NumbersEnd`).
-/

namespace Jack

/-! ### The grammar -/

/-- The hexadecimal digits with their values. -/
def hexDigits : List (Char × Nat) :=
  ['0', '1', '2', '3', '4', '5', '6', '7', '8', '9', 'a', 'b', 'c', 'd', 'e', 'f'].zipIdx ++
    ['A', 'B', 'C', 'D', 'E', 'F'].zipIdx 10

/-- The characters that come behind a backslash in place of others, with those others. -/
def letterEscapes : List (Char × Char) :=
  [('"', '"'), ('\\', '\\'), ('/', '/'), ('b', '\x08'), ('f', '\x0c'), ('n', '\n'), ('r', '\r'),
    ('t', '\t')]

/-- How a part of a string may be written. -/
inductive JsonChar.WrittenAs : JsonChar → List Char → Prop where
  /-- A character stands for itself, other than the quote, the backslash and control characters. -/
  | plain {c : Char} (hquote : c ≠ '"') (hbackslash : c ≠ '\\') (hcontrol : 0x20 ≤ c.toNat) :
    WrittenAs (.char c) [c]
  /-- A backslash and a letter. -/
  | letter {e c : Char} (h : (e, c) ∈ letterEscapes) : WrittenAs (.char c) ['\\', e]
  /-- The number of a unit, in four digits. -/
  | unit {a b c d : Char} {i j k l : Nat} (ha : (a, i) ∈ hexDigits) (hb : (b, j) ∈ hexDigits)
    (hc : (c, k) ∈ hexDigits) (hd : (d, l) ∈ hexDigits) :
    WrittenAs (.unit (((i * 16 + j) * 16 + k) * 16 + l)) ['\\', 'u', a, b, c, d]

/-- The parts of a string are written one after the other. -/
inductive WritesJsonChars : List JsonChar → List Char → Prop where
  /-- Nothing. -/
  | nil : WritesJsonChars [] []
  /-- A part in front of others. -/
  | cons {p : JsonChar} {content : List JsonChar} {piece chars : List Char} (hp : p.WrittenAs piece)
    (h : WritesJsonChars content chars) : WritesJsonChars (p :: content) (piece ++ chars)

/-- The part of a number in front of the point: digits, and no zero in front of others. -/
structure IsJsonWhole (digits : List Char) : Prop extends IsNumeral digits where
  /-- A zero in front is all. -/
  zero : digits.head? = some '0' → digits = ['0']

/-- The fraction of a number. -/
inductive IsJsonFraction : List Char → Prop where
  /-- There is none. -/
  | none : IsJsonFraction []
  /-- A point and digits. -/
  | digits {ds : List Char} (h : IsNumeral ds) : IsJsonFraction ('.' :: ds)

/-- The exponent of a number. -/
inductive IsJsonExponent : List Char → Prop where
  /-- There is none. -/
  | none : IsJsonExponent []
  /-- The letter, a sign that may be missing, and digits. -/
  | digits {e : Char} {sign ds : List Char} (he : e = 'e' ∨ e = 'E')
    (hsign : sign = [] ∨ sign = ['+'] ∨ sign = ['-']) (h : IsNumeral ds) :
    IsJsonExponent (e :: (sign ++ ds))

/-- A number. -/
inductive IsJsonNumber : List Char → Prop where
  /-- A minus sign that may be missing, and the three parts. -/
  | mk {sign whole fraction exponent : List Char} (hsign : sign = [] ∨ sign = ['-'])
    (hwhole : IsJsonWhole whole) (hfraction : IsJsonFraction fraction)
    (hexponent : IsJsonExponent exponent) :
    IsJsonNumber (sign ++ (whole ++ fraction ++ exponent))

namespace JsonToken

/-- How a token is written that is written in one way. -/
def fixed? : JsonToken → Option (List Char)
  | beginObject => some ['{']
  | endObject => some ['}']
  | beginArray => some ['[']
  | endArray => some [']']
  | comma => some [',']
  | colon => some [':']
  | null => some ['n', 'u', 'l', 'l']
  | bool true => some ['t', 'r', 'u', 'e']
  | bool false => some ['f', 'a', 'l', 's', 'e']
  | number _ | string _ => none

/-- How a token may be written. -/
inductive WrittenAs : JsonToken → List Char → Prop where
  /-- In the one way. -/
  | fixed {t : JsonToken} {lexeme : List Char} (h : t.fixed? = some lexeme) : WrittenAs t lexeme
  /-- A number is as it is written. -/
  | number {digits : List Char} (h : IsJsonNumber digits) : WrittenAs (.number digits) digits
  /-- A string in quotes. -/
  | string {content : List JsonChar} {chars : List Char} (h : WritesJsonChars content chars) :
    WrittenAs (.string content) ('"' :: (chars ++ ['"']))

end JsonToken

/-- The characters are blank: spaces, tabs, line feeds and carriage returns. -/
def JsonBlanks (cs : List Char) : Prop := ∀ c ∈ cs, c ∈ [' ', '\t', '\n', '\r']

/-- The tokens are written one after the other, with any blanks between them. -/
inductive WritesTokens : List JsonToken → List Char → Prop where
  /-- Nothing but blanks. -/
  | nil {blanks : List Char} (hblanks : JsonBlanks blanks) : WritesTokens [] blanks
  /-- A token in front of others. -/
  | cons {t : JsonToken} {ts : List JsonToken} {blanks lexeme rest : List Char}
    (hblanks : JsonBlanks blanks) (ht : t.WrittenAs lexeme) (h : WritesTokens ts rest) :
    WritesTokens (t :: ts) (blanks ++ (lexeme ++ rest))

/-! ### Strings -/

section Strings

variable {content : List JsonChar} {p : JsonChar} {piece chars : List Char}

theorem hexValue?_of_mem {c : Char} {n : Nat} (h : (c, n) ∈ hexDigits) : hexValue? c = some n := by
  have hall : ∀ p ∈ hexDigits, hexValue? p.1 = some p.2 := by decide
  exact hall (c, n) h

theorem shortEscape?_of_mem {e c : Char} (h : (e, c) ∈ letterEscapes) :
    shortEscape? e = some c ∧ e ≠ 'u' := by
  have hall : ∀ p ∈ letterEscapes, shortEscape? p.1 = some p.2 ∧ p.1 ≠ 'u' := by decide
  exact hall (e, c) h

theorem JsonChar.WrittenAs.readJsonString_append (h : p.WrittenAs piece) (done : List JsonChar)
    (rest : List Char) :
    readJsonString done (piece ++ rest) = readJsonString (p :: done) rest := by
  cases h with
  | plain hquote hbackslash hcontrol =>
    simp [readJsonString, hbackslash, Nat.not_lt.2 hcontrol]
  | letter h =>
    obtain ⟨hshort, hne⟩ := shortEscape?_of_mem h
    simp [readJsonString, hshort, hne]
  | unit ha hb hc hd =>
    simp [readJsonString, hexUnit?, hexValue?_of_mem ha, hexValue?_of_mem hb, hexValue?_of_mem hc,
      hexValue?_of_mem hd]

/-- A string is read up to the quote that closes it. -/
theorem readJsonString_append (h : WritesJsonChars content chars) (done : List JsonChar)
    (rest : List Char) :
    readJsonString done (chars ++ '"' :: rest) = some (done.reverse ++ content, rest) := by
  induction h generalizing done with
  | nil => simp [readJsonString]
  | cons hp _ ih =>
    rw [List.append_assoc, hp.readJsonString_append, ih]
    simp

end Strings

/-! ### Numbers -/

/-- A number may go on with the character. -/
def InJsonNumber (c : Char) : Prop := c.isDigit = true ∨ c = '.' ∨ c = 'e' ∨ c = 'E'

section Numbers

variable {digits fraction exponent rest : List Char}

theorem readDigits_append (h : IsNumeral digits) (hrest : Stops (·.isDigit = true) rest) :
    readDigits (digits ++ rest) = some (digits, rest) := by
  rw [readDigits, takeWhile_append_of_stops Iff.rfl h.run hrest,
    dropWhile_append_of_stops Iff.rfl h.run hrest]
  obtain ⟨c, cs, rfl⟩ := List.exists_cons_of_ne_nil h.ne
  rfl

theorem readWhole_append (h : IsJsonWhole digits) (hrest : Stops (·.isDigit = true) rest) :
    readWhole (digits ++ rest) = some (digits, rest) := by
  obtain ⟨c, cs, rfl⟩ := List.exists_cons_of_ne_nil h.ne
  by_cases hzero : c = '0'
  · subst hzero
    rw [h.zero rfl]
    rfl
  · rw [readWhole]
    · exact readDigits_append h.toIsNumeral hrest
    · rintro more ⟨⟩
      exact hzero rfl

/-- Behind the part in front of the point, digits are no more taken. -/
theorem IsJsonFraction.stops (h : IsJsonFraction fraction)
    (hrest : Stops (fun c => c.isDigit = true ∨ c = '.') rest) :
    Stops (·.isDigit = true) (fraction ++ rest) := by
  cases h with
  | none => exact fun c hc hdigit => hrest c hc (.inl hdigit)
  | digits h =>
    rintro c ⟨⟩
    decide

/-- Behind the fraction, there is neither a further digit nor a further point. -/
theorem IsJsonExponent.stops (h : IsJsonExponent exponent) (hrest : Stops InJsonNumber rest) :
    Stops (fun c => c.isDigit = true ∨ c = '.') (exponent ++ rest) := by
  cases h with
  | none => exact fun c hc hmore => hrest c hc (hmore.imp_right .inl)
  | digits he =>
    rintro c ⟨⟩
    rcases he with rfl | rfl <;> decide

theorem readFraction_append (h : IsJsonFraction fraction)
    (hrest : Stops (fun c => c.isDigit = true ∨ c = '.') rest) :
    readFraction (fraction ++ rest) = some (fraction, rest) := by
  cases h with
  | none =>
    rw [List.nil_append, readFraction]
    rintro more rfl
    exact hrest '.' rfl (.inr rfl)
  | digits h =>
    rw [List.cons_append, readFraction,
      readDigits_append h fun c hc hdigit => hrest c hc (.inl hdigit)]
    rfl

theorem readExponent_append (h : IsJsonExponent exponent) (hrest : Stops InJsonNumber rest) :
    readExponent (exponent ++ rest) = some (exponent, rest) := by
  cases h with
  | none =>
    cases rest with
    | nil => rfl
    | cons c rest =>
      have hc := hrest c rfl
      simp only [InJsonNumber, not_or] at hc
      simp [readExponent, hc]
  | @digits e sign ds he hsign h =>
    have hletter : (e == 'e' || e == 'E') = true := by simpa using he
    have hdigits : readDigits (ds ++ rest) = some (ds, rest) :=
      readDigits_append h fun c hc hdigit => hrest c hc (.inl hdigit)
    rcases hsign with rfl | rfl | rfl
    · -- Digits do not begin with a sign.
      obtain ⟨c, cs, rfl⟩ := List.exists_cons_of_ne_nil h.ne
      have hc := h.run c List.mem_cons_self
      have hplus : c ≠ '+' := by
        rintro rfl
        cases hc
      have hminus : c ≠ '-' := by
        rintro rfl
        cases hc
      rw [List.cons_append] at hdigits
      simp [readExponent, hletter, hplus, hminus, hdigits]
    · simp [readExponent, hletter, hdigits]
    · simp [readExponent, hletter, hdigits]

theorem readMagnitude_append (hwhole : IsJsonWhole digits) (hfraction : IsJsonFraction fraction)
    (hexponent : IsJsonExponent exponent) (hrest : Stops InJsonNumber rest) :
    readMagnitude (digits ++ fraction ++ exponent ++ rest) =
      some (digits ++ fraction ++ exponent, rest) := by
  have hexp := hexponent.stops hrest
  have hfrac := hfraction.stops hexp
  simp [readMagnitude, List.append_assoc, readWhole_append hwhole hfrac,
    readFraction_append hfraction hexp, readExponent_append hexponent hrest]

/-- A number is read up to a character that it cannot go on with. -/
theorem readNumber_append (h : IsJsonNumber digits) (hrest : Stops InJsonNumber rest) :
    readNumber (digits ++ rest) = some (digits, rest) := by
  obtain ⟨hsign, hwhole, hfraction, hexponent⟩ := h
  have hmagnitude := readMagnitude_append hwhole hfraction hexponent hrest
  rcases hsign with rfl | rfl
  · obtain ⟨c, cs, rfl⟩ := List.exists_cons_of_ne_nil hwhole.ne
    have hminus : c ≠ '-' := by
      rintro rfl
      cases hwhole.run _ List.mem_cons_self
    simp only [List.nil_append, List.cons_append] at hmagnitude ⊢
    rw [readNumber, hmagnitude]
    rintro more ⟨⟩
    exact hminus rfl
  · rw [List.singleton_append, List.cons_append, readNumber, hmagnitude]
    rfl

end Numbers

/-! ### Tokens -/

/-- The token comes only behind a value. -/
def JsonToken.endsValue : JsonToken → Bool
  | comma | endArray | endObject => true
  | beginObject | beginArray | colon | null | bool _ | number _ | string _ => false

/-- Where a token comes behind a number, it ends the value. -/
def NumbersEnd (ts : List JsonToken) : Prop :=
  ts.IsChain fun t t' => ∀ digits, t = .number digits → t'.endsValue = true

section Tokens

variable {t : JsonToken} {ts : List JsonToken} {blanks cs lexeme rest : List Char}

theorem not_inJsonNumber_of_blank {c : Char} (h : c ∈ [' ', '\t', '\n', '\r']) :
    ¬ InJsonNumber c := by
  simp only [List.mem_cons, List.not_mem_nil, or_false] at h
  rcases h with rfl | rfl | rfl | rfl <;> simp [InJsonNumber]

theorem isJsonBlank_iff {c : Char} : isJsonBlank c = true ↔ c ∈ [' ', '\t', '\n', '\r'] := by
  simp [isJsonBlank, or_assoc]

/-- A number ends in front of a token that ends its value, and at the end. -/
theorem WritesTokens.stops (h : WritesTokens ts cs) (hts : ∀ t ∈ ts.head?, t.endsValue = true) :
    Stops InJsonNumber cs := by
  cases h with
  | nil hblanks =>
    exact fun c hc => not_inJsonNumber_of_blank (hblanks c (List.mem_of_mem_head? hc))
  | @cons t ts blanks lexeme rest hblanks ht h =>
    cases blanks with
    | cons b blanks =>
      rintro c ⟨⟩
      exact not_inJsonNumber_of_blank (hblanks b List.mem_cons_self)
    | nil =>
      have hends := hts t rfl
      cases ht with
      | fixed ht =>
        cases t with
        | comma | endArray | endObject =>
          cases ht
          rintro c ⟨⟩
          simp [InJsonNumber]
        | _ => cases hends
      | number | string => cases hends

theorem IsJsonNumber.exists_cons {digits : List Char} (h : IsJsonNumber digits) :
    ∃ c cs, digits = c :: cs ∧ (c = '-' ∨ c.isDigit = true) := by
  obtain ⟨hsign, hwhole, -, -⟩ := h
  rcases hsign with rfl | rfl
  · obtain ⟨c, cs, rfl⟩ := List.exists_cons_of_ne_nil hwhole.ne
    exact ⟨c, _, rfl, .inr (hwhole.run c List.mem_cons_self)⟩
  · exact ⟨'-', _, rfl, .inl rfl⟩

/-- What begins like a number is read as one. -/
theorem readJsonToken_eq_readNumber {c : Char} (hc : c = '-' ∨ c.isDigit = true) (cs : List Char) :
    readJsonToken (c :: cs) =
      (readNumber (c :: cs)).map fun (digits, rest) => (.number digits, rest) := by
  rw [readJsonToken]
  all_goals
    rintro more ⟨⟩
    simp at hc

theorem JsonToken.WrittenAs.readJsonToken_append (h : t.WrittenAs lexeme)
    (hrest : ∀ digits, t = .number digits → Stops InJsonNumber rest) :
    readJsonToken (lexeme ++ rest) = some (t, rest) := by
  cases h with
  | fixed h =>
    cases t with
    | number | string => cases h
    | bool b => cases b <;> (cases h; rfl)
    | _ => cases h; rfl
  | number h =>
    have hnumber := readNumber_append h (hrest _ rfl)
    obtain ⟨c, cs, rfl, hc⟩ := h.exists_cons
    rw [List.cons_append] at hnumber ⊢
    rw [readJsonToken_eq_readNumber hc, hnumber]
    rfl
  | string h =>
    rw [List.cons_append, List.append_assoc, List.singleton_append, readJsonToken,
      readJsonString_append h]
    rfl

/-- A token is not nothing, and it does not begin with a blank. -/
theorem JsonToken.WrittenAs.exists_cons (h : t.WrittenAs lexeme) :
    ∃ c cs, lexeme = c :: cs ∧ isJsonBlank c = false := by
  cases h with
  | fixed h =>
    cases t with
    | number | string => cases h
    | bool b => cases b <;> (cases h; exact ⟨_, _, rfl, by decide⟩)
    | _ => cases h; exact ⟨_, _, rfl, by decide⟩
  | number h =>
    obtain ⟨c, cs, rfl, hc⟩ := h.exists_cons
    refine ⟨c, cs, rfl, ?_⟩
    rw [← Bool.not_eq_true, isJsonBlank_iff]
    intro hblank
    rcases hc with rfl | hdigit
    · simp at hblank
    · exact not_inJsonNumber_of_blank hblank (.inl hdigit)
  | string h => exact ⟨_, _, rfl, by decide⟩

/-- Blanks take a round each. -/
theorem exists_jsonTokenRounds_blanks (hblanks : JsonBlanks blanks) {rounds : List Char}
    (hlength : (blanks ++ cs).length ≤ rounds.length) (done : List JsonToken) :
    ∃ rounds', cs.length ≤ rounds'.length ∧
      jsonTokenRounds rounds done (blanks ++ cs) = jsonTokenRounds rounds' done cs := by
  induction blanks generalizing rounds with
  | nil => exact ⟨rounds, hlength, rfl⟩
  | cons b blanks ih =>
    obtain ⟨hb, hblanks⟩ := List.forall_mem_cons.1 hblanks
    cases rounds with
    | nil => simp at hlength
    | cons r rounds =>
      obtain ⟨rounds', hlength', heq⟩ := ih hblanks (Nat.le_of_succ_le_succ hlength)
      refine ⟨rounds', hlength', ?_⟩
      rw [List.cons_append, jsonTokenRounds, if_pos (isJsonBlank_iff.2 hb), heq]

theorem jsonTokenRounds_eq_some (h : WritesTokens ts cs) (hends : NumbersEnd ts)
    {rounds : List Char} (hlength : cs.length ≤ rounds.length) (done : List JsonToken) :
    jsonTokenRounds rounds done cs = some (done.reverse ++ ts) := by
  induction h generalizing rounds done with
  | @nil blanks hblanks =>
    rw [← List.append_nil blanks] at hlength ⊢
    obtain ⟨rounds', -, heq⟩ := exists_jsonTokenRounds_blanks hblanks hlength done
    rw [heq, List.append_nil]
    cases rounds' <;> rfl
  | @cons t ts blanks lexeme rest hblanks ht h ih =>
    obtain ⟨rounds', hlength', heq⟩ := exists_jsonTokenRounds_blanks hblanks hlength done
    obtain ⟨hnext, hrest⟩ := List.isChain_cons.1 hends
    have hread : readJsonToken (lexeme ++ rest) = some (t, rest) :=
      ht.readJsonToken_append fun digits hnumber =>
        h.stops fun t' ht' => hnext t' ht' digits hnumber
    obtain ⟨c, lexeme, rfl, hc⟩ := ht.exists_cons
    cases rounds' with
    | nil => simp at hlength'
    | cons r rounds' =>
      have hleft : rest.length ≤ rounds'.length := by
        simp only [List.cons_append, List.length_cons, List.length_append] at hlength'
        omega
      simp only [List.cons_append] at heq hread ⊢
      simp only [heq, jsonTokenRounds, hc, hread, ih hrest hleft]
      simp

/-- **A text is cut into the tokens that it is written for.** -/
theorem jsonTokens?_eq_some {text : String} (h : WritesTokens ts text.toList)
    (hends : NumbersEnd ts) : jsonTokens? text = some ts :=
  jsonTokenRounds_eq_some h hends (Nat.le_refl _) []

end Tokens

end Jack
