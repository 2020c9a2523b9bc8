import Jack.Proofs.IntegerPushes
import Jack.Proofs.NodeSlice
import Jack.Proofs.OperandRange

/-!
# Integer constants

Two stages hold the value of a run of digits against a limit, the lexer against the largest operand
and the parser against 16 bits, and neither limits the number of digits.  The parser takes whatever
the lexer lets pass, so no token of the lexer is refused as an integer constant, and the value that
the code pushes is the one that the text says.

* `Place.scan_numeral`, `Parser.term_numeral` : what the two stages answer for a run of digits;
* `Parser.not_wantsInteger_of_parse` : no parser asks for an integer constant where the lexer made
  the tokens;
* `numerals_read` : **the lexer and the parser agree on digits of any number**, and the code pushes
  what is written.
-/

namespace Jack

/-- The lexer and the parser read the digits alike. -/
structure ReadAlike (digits : List Char) : Prop where
  /-- Wherever a call of the lexer comes to the digits, behind a gap, and they end there, it answers
  with their token if their value is at most 32767.  Otherwise it says that they are out of
  range. -/
  scan_eq : ∀ (p : Place) (gap rest : List Char) (start stop : Nat),
    p.rest = gap ++ (digits ++ rest) → IsGap (digits ++ rest) gap →
    Stops (·.isDigit = true) rest → start = p.offset + byteLength gap →
    stop = start + byteLength digits →
    p.scan = (if decimalValue digits ≤ 32767 then
        .token ⟨.integerConstant, String.ofList digits, .between start stop⟩
      else .fault (.integerOutOfRange (String.ofList digits)) (.between start stop), ⟨stop, rest⟩)
  /-- The parser makes a term of this value of the token, wherever it reads a term. -/
  term_eq : decimalValue digits ≤ 32767 → ∀ (resolve : String → Meaning) (levels : Nat)
    (passed rest : List Token) (t : Token), t.kind = .integerConstant →
    t.text = String.ofList digits → Parser.term resolve levels ⟨passed, t :: rest⟩ =
      .ok (.integer (decimalValue digits) t.span, ⟨t :: passed, rest⟩)

/-- A call of the lexer answers with the token. -/
def Token.IsAnswer (t : Token) : Prop := ∃ p q : Place, p.scan = (.token t, q)

/-- The error says that an integer constant is missing. -/
def CompileError.WantsInteger (e : CompileError) : Prop :=
  ∃ fault span, e = .parse fault span ∧ fault.expected = .integerConstant

/-- The values of the integer constants among tokens, in order. -/
def writtenIntegers (tokens : List Token) : List Nat :=
  (tokens.filter (·.kind == .integerConstant)).map fun t => decimalValue t.text.toList

/-- The text has digits of the value at the span, with `passed` in front of them and `left` behind
them. -/
structure WritesInteger (text : String) (value : Nat) (span : Span)
    (passed digits left : List Char) : Prop where
  /-- There are digits and nothing else. -/
  isNumeral : IsNumeral digits
  /-- The value is theirs. -/
  value_eq : decimalValue digits = value
  /-- They are a part of the text. -/
  text_eq : text.toList = passed ++ (digits ++ left)
  /-- The span is made for them, if offsets do not begin at zero again in it. -/
  span_eq : Straight (byteLength passed) (byteLength passed + byteLength digits) →
    span = .between (byteLength passed) (byteLength passed + byteLength digits)
  /-- In a text of fewer than 2 ^ 32 bytes they are the slice at the span. -/
  slice_eq : Addressable text → slice? text span = some (String.ofList digits)

/-- The code of a text pushes the integer constants that are written there. -/
structure CarriesIntegers (text : String) (tokens : List Token) (tree : ClassDec) (code : Code) :
    Prop where
  /-- Where a term stands that is an integer constant, the text has digits of its value, and its
  code pushes this value. -/
  term : ∀ value span, Node.Within (.term (.integer value span)) (.classDec tree) →
    (∃ passed digits left, WritesInteger text value span passed digits left) ∧
      ∀ ctx before, (Term.integer value span).emit ctx before = before.push (.push .constant value)
  /-- The code of the whole pushes the values of the digits one after the other. -/
  pushes : PushesInOrder (writtenIntegers tokens) code.toList

/-! ### Lexer and parser -/

section Numerals

variable {digits : List Char}

/-- **A call of the lexer that comes to digits answers with their token or says that they are out of
range**, as their value is. -/
theorem Place.scan_numeral (h : IsNumeral digits) {p : Place} {gap rest : List Char}
    (hcut : p.rest = gap ++ (digits ++ rest)) (hgap : IsGap (digits ++ rest) gap)
    (hend : Stops (·.isDigit = true) rest) :
    p.scan = (integerScan (p.offset + byteLength gap) digits,
      ⟨p.offset + byteLength gap + byteLength digits, rest⟩) := by
  obtain ⟨c, cs, rfl⟩ := List.exists_cons_of_ne_nil h.ne
  obtain ⟨hc, hcs⟩ := List.forall_mem_cons.1 h.run
  have hstart : ¬ StartsGap (c :: cs ++ rest) := not_startsGap_of_inWord (inWord_of_isDigit hc) _
  rw [Place.scan, hcut, hgap.skipGap_eq hstart]
  simp [scanLexeme, isWordStart_eq_false_of_isDigit hc, hc,
    takeWhile_append_of_stops Iff.rfl hcs hend, dropWhile_append_of_stops Iff.rfl hcs hend]

theorem integerScan_eq (n : Nat) (digits : List Char) :
    integerScan n digits = if decimalValue digits ≤ 32767 then
        .token ⟨.integerConstant, String.ofList digits, .between n (n + byteLength digits)⟩
      else .fault (.integerOutOfRange (String.ofList digits))
        (.between n (n + byteLength digits)) := by
  rw [integerScan, decimalUpTo?_eq, maxInteger]
  split <;> simp_all

/-- **The parser makes a term of the value of digits.** -/
theorem Parser.term_numeral (h : IsNumeral digits) (hvalue : decimalValue digits ≤ 65535)
    (resolve : String → Meaning) (levels : Nat) (passed rest : List Token) {t : Token}
    (hkind : t.kind = .integerConstant) (htext : t.text = String.ofList digits) :
    Parser.term resolve levels ⟨passed, t :: rest⟩ =
      .ok (.integer (decimalValue digits) t.span, ⟨t :: passed, rest⟩) := by
  have hread : integerConstant? t.text = some (decimalValue digits) := by
    rw [htext, integerConstant?_ofList h.ne h.run, if_pos hvalue]
  cases levels <;> simp [Parser.term, termWith, hkind, constant, next, hread]

theorem IsNumeral.readAlike (h : IsNumeral digits) : ReadAlike digits where
  scan_eq p gap rest start stop hcut hgap hend hstart hstop := by
    rw [Place.scan_numeral h hcut hgap hend, integerScan_eq, hstop, hstart]
  term_eq hvalue resolve levels passed rest t hkind htext :=
    Parser.term_numeral h (hvalue.trans (by decide)) resolve levels passed rest hkind htext

end Numerals

namespace Token

variable {t : Token}

/-- Tokens of the lexer that are integer constants hold digits, and their value is an operand. -/
theorem IsAnswer.exists_numeral (h : t.IsAnswer) (hkind : t.kind = .integerConstant) :
    ∃ digits, IsNumeral digits ∧ decimalValue digits ≤ 32767 ∧ t.text = String.ofList digits := by
  obtain ⟨p, q, hscan⟩ := h
  obtain ⟨gap, kind, text, lexeme, -, -, hlexeme, -, rfl⟩ := Place.scan_eq_token_iff.1 hscan
  cases hlexeme with
  | integer hne hrun hvalue hend => exact ⟨lexeme, ⟨hne, hrun⟩, hvalue, rfl⟩
  | keyword | identifier | string | symbol => cases hkind

/-- If the token is an integer constant, the parser can read it. -/
def IntegerReads (t : Token) : Prop :=
  t.kind = .integerConstant → ∃ value, integerConstant? t.text = some value

theorem IsAnswer.integerConstant?_eq (h : t.IsAnswer) (hkind : t.kind = .integerConstant) :
    integerConstant? t.text = some (decimalValue t.text.toList) := by
  obtain ⟨digits, hdigits, hvalue, htext⟩ := h.exists_numeral hkind
  rw [htext, integerConstant?_ofList hdigits.ne hdigits.run, if_pos (hvalue.trans (by decide)),
    String.toList_ofList]

theorem IsAnswer.integerReads (h : t.IsAnswer) : t.IntegerReads := fun hkind =>
  ⟨_, h.integerConstant?_eq hkind⟩

end Token

theorem Lexed.isAnswer {n : Nat} {cs : List Char} {tokens : List Token} (h : Lexed n cs tokens) :
    ∀ t ∈ tokens, t.IsAnswer := by
  induction h with
  | finished => simp
  | token hgap hlexeme _ ih =>
    refine List.forall_mem_cons.2 ⟨?_, ih⟩
    exact ⟨⟨_, _⟩, ⟨_, _⟩, Place.scan_eq_token_iff.2 ⟨_, _, _, _, rfl, hgap, hlexeme, rfl, rfl⟩⟩

/-! ### Integer constants that are missing -/

theorem CompileError.not_wantsInteger_fault {expected : Expectation} (c : Cursor) (rule : Rule)
    (h : expected.isInteger = false) : ¬ (c.fault expected rule).WantsInteger := by
  rintro ⟨fault, span, he, hexpected⟩
  rw [← Cursor.expected_of_fault he, hexpected] at h
  cases h

namespace Parser

variable {α β σ : Type}

/-- Where the parser could read the integer constants, it does not ask for one. -/
def FindsIntegers (p : Parser α) : Prop :=
  ∀ ⦃c : Cursor⦄ ⦃e : CompileError⦄, (∀ t ∈ c.rest, t.IntegerReads) → p c = .error e →
    ¬ e.WantsInteger

theorem findsIntegers_of_ok {p : Parser α} (h : ∀ c, ∃ r, p c = .ok r) : FindsIntegers p := by
  intro c e _ he
  obtain ⟨r, hr⟩ := h c
  rw [hr] at he
  cases he

theorem FindsIntegers.bind {p : Parser α} {f : α → Parser β} (hadvances : Advances p)
    (hp : FindsIntegers p) (hf : ∀ a, FindsIntegers (f a)) : FindsIntegers (p >>= f) := by
  intro c e hc h
  rcases bind_eq_error_iff.1 h with h | ⟨a, c', ha, h⟩
  · exact hp hc h
  · obtain ⟨taken, htaken⟩ := hadvances ha
    exact hf a (fun t ht => hc t (htaken.rest_eq ▸ List.mem_append_right _ ht)) h

theorem findsIntegers_fail {expected : Expectation} (rule : Rule)
    (h : expected.isInteger = false) : FindsIntegers (fail expected rule : Parser α) := by
  intro c e _ he
  cases he
  exact CompileError.not_wantsInteger_fault c rule h

theorem findsIntegers_next (select : Token → Option α) {expected : Expectation} (rule : Rule)
    (h : expected.isInteger = false) : FindsIntegers (next select expected rule) := by
  intro c e hc he
  obtain ⟨passed, rest⟩ := c
  cases rest with
  | nil => exact findsIntegers_fail rule h hc he
  | cons t rest =>
    rw [next] at he
    split at he
    · cases he
    · exact findsIntegers_fail rule h hc he

theorem findsIntegers_next? (select : Token → Option α) : FindsIntegers (next? select) :=
  findsIntegers_of_ok fun c => by
    obtain ⟨passed, rest⟩ := c
    cases rest with
    | nil => exact ⟨_, rfl⟩
    | cons t rest => cases h : select t <;> simp [next?, h]

theorem findsIntegers_declare (scopes : Scopes) (name : Ident) (type : TypeName)
    (storage : Storage) : FindsIntegers (declare scopes name type storage) := by
  rintro c e - he ⟨fault, span, rfl, -⟩
  rw [declare] at he
  split at he
  · next herror =>
    cases he
    exact Scopes.declare_ne_parse scopes name type storage fault span herror
  · cases he

theorem findsIntegers_fold (lead : Token → Option β) {item : σ → β → Parser σ}
    (hadvances : ∀ s b, Advances (item s b)) (hitem : ∀ s b, FindsIntegers (item s b)) (s : σ) :
    FindsIntegers (fold lead item s) := by
  intro c
  -- By induction on the number of tokens that are left, round by round.
  induction hn : c.rest.length using Nat.strongRecOn generalizing s c with
  | _ n ih =>
    intro e hc he
    rw [fold_eq hadvances] at he
    rcases bind_eq_error_iff.1 he with he | ⟨b?, c₁, hb, he⟩
    · exact findsIntegers_next? lead hc he
    · cases b? with
      | none => cases he
      | some b =>
        obtain ⟨t, -, ht⟩ := next?_eq_some_iff.1 hb
        rw [ht.rest_eq] at hc hn
        rcases bind_eq_error_iff.1 he with he | ⟨s₁, c₂, hs, he⟩
        · exact hitem s b (fun t ht => hc t (List.mem_append_right _ ht)) he
        · obtain ⟨taken, htaken⟩ := hadvances s b hs
          rw [htaken.rest_eq] at hc hn
          refine ih c₂.rest.length ?_ s₁ rfl (fun t ht => hc t ?_) he
          · simp only [List.length_append, List.length_singleton] at hn
            omega
          · exact List.mem_append_right _ (List.mem_append_right _ ht)

theorem compositional_findsIntegers :
    Compositional fun _ p => Advances p ∧ FindsIntegers p where
  pure a := ⟨advances_pure a, findsIntegers_of_ok fun _ => ⟨_, rfl⟩⟩
  fail expected rule h := ⟨advances_fail expected rule, findsIntegers_fail rule h⟩
  offset := ⟨advances_offset, findsIntegers_of_ok fun _ => ⟨_, rfl⟩⟩
  spanFrom start := ⟨advances_spanFrom start, findsIntegers_of_ok fun _ => ⟨_, rfl⟩⟩
  atSymbol ch := ⟨advances_atSymbol ch, findsIntegers_of_ok fun _ => ⟨_, rfl⟩⟩
  next select expected rule h :=
    ⟨advances_next select expected rule, findsIntegers_next select rule h⟩
  next? select := ⟨advances_next? select, findsIntegers_next? select⟩
  declare scopes name type storage :=
    ⟨advances_declare scopes name type storage, findsIntegers_declare scopes name type storage⟩
  bind hp hf := ⟨hp.1.bind fun a => (hf a).1, hp.2.bind hp.1 fun a => (hf a).2⟩
  fold lead _ hitem s := ⟨advances_fold lead (fun s b => (hitem s b).1) s,
    findsIntegers_fold lead (fun s b => (hitem s b).1) (fun s b => (hitem s b).2) s⟩

/-- The integer constant that a term may be is read. -/
theorem findsIntegers_termWith (resolve : String → Meaning) {expression : Parser Expr}
    {operand : Parser Term} (he : Advances expression ∧ FindsIntegers expression)
    (ho : Advances operand ∧ FindsIntegers operand) :
    Advances (termWith resolve expression operand) ∧
      FindsIntegers (termWith resolve expression operand) := by
  refine ⟨advances_termWith resolve he.1 ho.1, fun c e hc herror => ?_⟩
  obtain ⟨passed, rest⟩ := c
  cases rest with
  | nil => exact findsIntegers_fail .term rfl hc herror
  | cons t rest =>
    simp only [termWith] at herror
    split at herror
    · next hkind =>
      obtain ⟨value, hvalue⟩ := hc t List.mem_cons_self hkind
      simp [constant, next, hvalue] at herror
    · exact findsIntegers_next _ .term rfl hc herror
    · exact findsIntegers_next _ .term rfl hc herror
    · exact (compositional_findsIntegers.symbolTerm he ho t).2 hc herror
    · exact (compositional_findsIntegers.nameTerm resolve he _).2 hc herror

end Parser

/-- **No parser asks for an integer constant where the lexer made the tokens.** -/
theorem Parser.not_wantsInteger_of_parse {tokens : List Token} {e : CompileError}
    (htokens : ∀ t ∈ tokens, t.IsAnswer) (h : parse tokens = .error e) : ¬ e.WantsInteger := by
  have hclass := (compositional_findsIntegers.classDec findsIntegers_termWith).2
  rw [parse] at h
  split at h
  · next herror =>
    cases h
    exact hclass (fun t ht => (htokens t ht).integerReads) herror
  · next c hok =>
    split at h
    · cases h
    · cases h
      exact CompileError.not_wantsInteger_fault c .classDec rfl

/-! ### Integer constants of a text -/

section Texts

variable {text : String} {before taken after tokens : List Token}

theorem isAnswer_of_tokenize (h : tokenize text = .ok tokens) : ∀ t ∈ tokens, t.IsAnswer :=
  (lexed_of_tokenize h).isAnswer

/-- Where a term stands that is an integer constant, the text has digits of its value. -/
theorem Node.Stands.writesInteger {value : Nat} {span : Span}
    (hn : (Node.term (.integer value span)).Stands taken)
    (h : tokenize text = .ok (before ++ (taken ++ after))) :
    ∃ passed digits left, WritesInteger text value span passed digits left := by
  have hspells : List.Forall₂ Token.Spells taken [.integer value] := hn.spells
  obtain ⟨t, rest, ht, hrest, rfl⟩ := List.forall₂_cons_right_iff.1 hspells
  obtain rfl := List.forall₂_nil_right_iff.1 hrest
  obtain ⟨hkind, hvalue⟩ := ht
  have hmem : t ∈ before ++ ([t] ++ after) := by simp
  have hanswer := isAnswer_of_tokenize h t hmem
  obtain ⟨digits, hdigits, -, htext⟩ := hanswer.exists_numeral hkind
  obtain ⟨passed, left, hmarks⟩ := marks_of_tokenize h t hmem
  have hlexeme : t.lexeme = digits := by
    rw [Token.lexeme, hkind, htext, if_neg (by simp), String.toList_ofList]
  rw [hlexeme] at hmarks
  -- The term is this one token, so its span is that of the token if the token runs forward.
  have hspan (hforward : t.span.start ≤ t.span.stop) : span = t.span :=
    hn.span_eq ⟨by simpa [visible, Forward] using hforward, List.pairwise_singleton ..⟩
  refine ⟨passed, digits, left, hdigits, ?value, hmarks.eq_append, fun hs => ?span,
    fun htext => ?slice⟩
  case value =>
    rw [hanswer.integerConstant?_eq hkind, htext, String.toList_ofList] at hvalue
    exact Option.some.inj hvalue
  case span =>
    have hforward : t.span.start ≤ t.span.stop := by
      rw [hmarks.span_eq]
      exact hs.ofNat_le_ofNat (Nat.le_add_right _ _)
    rw [hspan hforward, hmarks.span_eq]
  case slice =>
    have hcuts := hmarks.cuts htext
    rw [hspan hcuts.start_le_stop, hcuts.slice?_eq]

/-- The integer constants that are written are those that the terminals hold. -/
theorem writtenIntegers_eq {ws : List Terminal} (hanswer : ∀ t ∈ tokens, t.IsAnswer)
    (hspells : List.Forall₂ Token.Spells tokens ws) : writtenIntegers tokens = integersIn ws := by
  induction hspells with
  | nil => rfl
  | @cons t w tokens ws ht _ ih =>
    obtain ⟨hanswer, hrest⟩ := List.forall_mem_cons.1 hanswer
    specialize ih hrest
    rw [writtenIntegers] at ih ⊢
    cases w with
    | integer value =>
      have hvalue : decimalValue t.text.toList = value :=
        Option.some.inj ((hanswer.integerConstant?_eq ht.1).symm.trans ht.2)
      simp [ht.1, hvalue, ih]
    | keyword k => simp [ht.1, ih]
    | identifier name => simp [ht.1, ih]
    | symbol c => simp [ht.1, ih]
    | string content => simp [ht.1, ih]

theorem carriesIntegers_of_lower {parsed : ParsedClass} {options : Options} {code : Code}
    (htokens : tokenize text = .ok tokens) (hparsed : parse tokens = .ok parsed)
    (hlower : lower parsed.tree parsed.scope text options = .ok code) :
    CarriesIntegers text tokens parsed.tree code where
  term value span hn := by
    obtain ⟨before, taken, after, rfl, hstands⟩ := (stands_of_parse hparsed).within hn
    exact ⟨hstands.writesInteger htokens, fun _ _ => rfl⟩
  pushes := by
    rw [(lower_eq_ok_iff.1 hlower).2,
      writtenIntegers_eq (isAnswer_of_tokenize htokens) (spells_of_parse hparsed), integersIn_class]
    exact pushes_subroutinesListing _ _ _ _

end Texts

/-- **The lexer and the parser agree on digits of any number**: they answer alike, no integer
constant is ever missing where the lexer made the tokens, and the code of a compiled unit pushes the
values that are written in its text. -/
theorem numerals_read :
    (∀ digits, IsNumeral digits → ReadAlike digits) ∧
      (∀ tokens, (∀ t ∈ tokens, t.IsAnswer) → ∀ e, parse tokens = .error e → ¬ e.WantsInteger) ∧
        ∀ name text options compiled, compileUnit name text options = .ok compiled →
          ∃ tokens parsed, tokenize text = .ok tokens ∧ parse tokens = .ok parsed ∧
            CarriesIntegers text tokens parsed.tree compiled.code := by
  refine ⟨fun _ h => h.readAlike, fun _ htokens _ => Parser.not_wantsInteger_of_parse htokens,
    fun name text options compiled h => ?_⟩
  obtain ⟨tokens, parsed, htokens, hparsed, hlower⟩ := compile_eq_ok (compile_of_compileUnit h)
  exact ⟨tokens, parsed, htokens, hparsed, carriesIntegers_of_lower htokens hparsed hlower⟩

/-- A class with integer constants that have more digits than they need. -/
def vaultText : String :=
  "class Vault \x7b function int code(Array a) \x7b let a[00] = -000000000000032767;" ++
    " return a[7/*8*//9]; \x7d \x7d"

/-- Tokens that lack a term, where an integer constant could be. -/
def gapText : String := "class Gap \x7b function int size() \x7b return 1 + ; \x7d \x7d"

theorem numerals_read_vault :
    ReadAlike (List.replicate 40 '0' ++ ['3', '2', '7', '6', '8']) ∧
      (∃ tokens e, tokenize gapText = .ok tokens ∧ parse tokens = .error e ∧ ¬ e.WantsInteger) ∧
        ∃ compiled, compileUnit "Vault" vaultText .none = .ok compiled ∧
          ∃ tokens parsed, tokenize vaultText = .ok tokens ∧ parse tokens = .ok parsed ∧
            CarriesIntegers vaultText tokens parsed.tree compiled.code := by
  obtain ⟨halike, hmissing, hcarries⟩ := numerals_read
  refine ⟨halike _ ⟨by simp, List.forall_mem_append.2 ⟨by simp, by simp⟩⟩, ?_, ?_⟩
  · have hok : (tokenize gapText).toOption.isSome = true := by decide +kernel
    have herror : (tokenize gapText >>= parse).toOption.isNone = true := by decide +kernel
    obtain ⟨tokens, htokens⟩ := exists_eq_ok hok
    cases hparsed : parse tokens with
    | error e =>
      exact ⟨tokens, e, htokens, hparsed, hmissing tokens (isAnswer_of_tokenize htokens) e hparsed⟩
    | ok parsed => simp [htokens, hparsed, Except.toOption, bind, Except.bind] at herror
  · have hok : (compileUnit "Vault" vaultText .none).toOption.isSome = true := by decide +kernel
    obtain ⟨compiled, h⟩ := exists_eq_ok hok
    exact ⟨compiled, h, hcarries _ _ _ _ h⟩

end Jack
