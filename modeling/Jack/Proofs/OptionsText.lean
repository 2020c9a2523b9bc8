import Jack.Options.Json
import Jack.Proofs.JsonRecord

/-!
# Texts of options

Options are written as a record with one field for each of the three.  They are given by an object
with a member for each field, and also if its members come in another order, if members of options
that are not given are left out, or if members with other names come among them
(`Options.GivenBy`).  What is said here holds for all readers and writers of JSON that follow its
grammar.

* `Options.ofJson?_eq_some` : an object that gives options holds them;
* `Options.givenBy_of_fields` : an object with the fields of options gives them;
* `Options.reads_written` : **options are read back** from the text that is written for them and
  from any text of an object that gives them.
-/

namespace Jack

/-! ### Members -/

/-- The value is that of an option: `null` if none is given. -/
inductive GivesOption {α : Type} (Gives : α → Json → Prop) : Option α → Json → Prop where
  /-- No option is given. -/
  | absent : GivesOption Gives none .null
  /-- The option is given. -/
  | given {a : α} {v : Json} (h : Gives a v) : GivesOption Gives (some a) v

/-- The members are those for an option of this name: one, or none if the option is not given. -/
inductive GivesMember {α : Type} (name : String) (Gives : α → Json → Prop) :
    Option α → List (List JsonChar × Json) → Prop where
  /-- One member. -/
  | present {a : Option α} {key : List JsonChar} {v : Json} (hkey : SpellsText key name)
    (hv : GivesOption Gives a v) : GivesMember name Gives a [(key, v)]
  /-- None. -/
  | dropped : GivesMember name Gives none []

/-- The value is a string that spells the text. -/
def Json.SpellsString (text : String) (v : Json) : Prop :=
  ∃ content, v = .string content ∧ SpellsText content text

/-- The members of an object give the options. -/
inductive Options.GivenBy (o : Options) : List (List JsonChar × Json) → Prop where
  /-- The members for the three options and any members with other names, in any order. -/
  | mk {annotate encoding modulo others members : List (List JsonChar × Json)}
    (hannotate : GivesMember annotateKey (fun b v => v = .bool b) o.annotateStatements annotate)
    (hencoding : GivesMember encodingKey (fun e v => v.SpellsString e.text) o.trueEncoding encoding)
    (hmodulo : GivesMember moduloKey Json.SpellsString o.moduloRoutine modulo)
    (hothers : ∀ m ∈ others, ∃ name, SpellsText m.1 name ∧
      name ≠ annotateKey ∧ name ≠ encodingKey ∧ name ≠ moduloKey)
    (hmembers : members.Perm (annotate ++ (encoding ++ (modulo ++ others)))) : o.GivenBy members

section Members

variable {α : Type} {name : String} {Gives : α → Json → Prop} {a : Option α}
  {members own others : List (List JsonChar × Json)}

/-- The member with its name as a text. -/
def namedMember (m : List JsonChar × Json) : String × Json :=
  ((decodeJsonChars? m.1).getD "", m.2)

theorem decodeMembers_eq_some (h : ∀ m ∈ members, ∃ name, SpellsText m.1 name) :
    decodeMembers members = some (members.map namedMember) := by
  induction members with
  | nil => rfl
  | cons m ms ih =>
    obtain ⟨⟨name, hname⟩, hms⟩ := List.forall_mem_cons.1 h
    have hdecode := decodeJsonChars?_eq_some hname
    rw [decodeMembers] at ih ⊢
    simp [List.mapM_cons, hdecode, ih hms, namedMember]

theorem GivesMember.spellsText (h : GivesMember name Gives a own) :
    ∀ m ∈ own, SpellsText m.1 name := by
  cases h with
  | present hkey => exact List.forall_mem_singleton.2 hkey
  | dropped => simp

/-- None of the members has the name. -/
def LacksName (name : String) (members : List (List JsonChar × Json)) : Prop :=
  ∀ m ∈ members, ∃ name', SpellsText m.1 name' ∧ name' ≠ name

theorem LacksName.append (h : LacksName name own) (h' : LacksName name others) :
    LacksName name (own ++ others) := List.forall_mem_append.2 ⟨h, h'⟩

theorem GivesMember.lacksName {name' : String} (h : GivesMember name Gives a own)
    (hne : name ≠ name') : LacksName name' own :=
  fun m hm => ⟨name, h.spellsText m hm, hne⟩

/-- Among the members that have the name, there are only those for the option. -/
theorem GivesMember.filter_perm (h : GivesMember name Gives a own)
    (hothers : LacksName name others) (hmembers : members.Perm (own ++ others)) :
    ((members.map namedMember).filter fun m => m.1 == name).Perm (own.map namedMember) := by
  have hown : (own.map namedMember).filter (fun m => m.1 == name) = own.map namedMember := by
    rw [List.filter_eq_self, List.forall_mem_map]
    intro m hm
    simp [namedMember, decodeJsonChars?_eq_some (h.spellsText m hm)]
  have hrest : (others.map namedMember).filter (fun m => m.1 == name) = [] := by
    rw [List.filter_eq_nil_iff, List.forall_mem_map]
    intro m hm
    obtain ⟨name', hname', hne⟩ := hothers m hm
    simpa [namedMember, decodeJsonChars?_eq_some hname'] using hne
  refine ((hmembers.map _).filter _).trans ?_
  rw [List.map_append, List.filter_append, hown, hrest, List.append_nil]

/-- The member of an option is found, wherever it is, and may be left out if it is not given. -/
theorem GivesMember.member?_eq_some (h : GivesMember name Gives a own) {read : Json → Option α}
    (hread : ∀ a v, Gives a v → v.optional? read = some (some a))
    (hothers : LacksName name others) (hmembers : members.Perm (own ++ others)) :
    member? (members.map namedMember) name read = some a := by
  have hperm := h.filter_perm hothers hmembers
  rw [member?]
  cases h with
  | present hkey hv =>
    rw [List.perm_singleton.1 hperm]
    cases hv with
    | absent => rfl
    | given hv => exact hread _ _ hv
  | dropped =>
    rw [List.perm_nil.1 hperm]

theorem TrueEncoding.ofText?_text (e : TrueEncoding) : ofText? e.text = some e := by
  cases e <;> decide

theorem Json.optional?_bool? {b : Bool} {v : Json} (h : v = .bool b) :
    v.optional? Json.bool? = some (some b) := by
  rw [h]
  rfl

theorem Json.SpellsString.optional?_text? {text : String} {v : Json} (h : v.SpellsString text) :
    v.optional? Json.text? = some (some text) := by
  obtain ⟨content, rfl, hcontent⟩ := h
  simp [Json.optional?, Json.text?, decodeJsonChars?_eq_some hcontent]

theorem Json.SpellsString.optional?_encoding? {e : TrueEncoding} {v : Json}
    (h : v.SpellsString e.text) : v.optional? Json.encoding? = some (some e) := by
  obtain ⟨content, rfl, hcontent⟩ := h
  simp [Json.optional?, Json.encoding?, decodeJsonChars?_eq_some hcontent,
    TrueEncoding.ofText?_text]

/-- **An object that gives options holds them.** -/
theorem Options.ofJson?_eq_some {o : Options} (h : o.GivenBy members) :
    ofJson? (.object members) = some o := by
  obtain @⟨annotate, encoding, modulo, others, _, hannotate, hencoding, hmodulo, hothers,
    hmembers⟩ := h
  have hnames : ∀ m ∈ members, ∃ name, SpellsText m.1 name := fun m hm => by
    rcases List.mem_append.1 (hmembers.subset hm) with hm | hm
    · exact ⟨_, hannotate.spellsText m hm⟩
    rcases List.mem_append.1 hm with hm | hm
    · exact ⟨_, hencoding.spellsText m hm⟩
    rcases List.mem_append.1 hm with hm | hm
    · exact ⟨_, hmodulo.spellsText m hm⟩
    · exact (hothers m hm).imp fun _ h => h.1
  have hlacks : LacksName annotateKey others ∧ LacksName encodingKey others ∧
      LacksName moduloKey others :=
    ⟨fun m hm => (hothers m hm).imp fun _ h => ⟨h.1, h.2.1⟩,
      fun m hm => (hothers m hm).imp fun _ h => ⟨h.1, h.2.2.1⟩,
      fun m hm => (hothers m hm).imp fun _ h => ⟨h.1, h.2.2.2⟩⟩
  -- The members of each option come in front, as the order of members does not matter.
  have hencodingFirst : members.Perm (encoding ++ (annotate ++ (modulo ++ others))) :=
    hmembers.trans (List.perm_append_comm_assoc ..)
  have hmoduloFirst : members.Perm (modulo ++ (annotate ++ (encoding ++ others))) :=
    (hmembers.trans ((List.perm_append_comm_assoc ..).append_left _)).trans
      (List.perm_append_comm_assoc ..)
  have hannotate' := hannotate.member?_eq_some (fun _ _ => Json.optional?_bool?)
    ((hencoding.lacksName (by decide)).append
      ((hmodulo.lacksName (by decide)).append hlacks.1)) hmembers
  have hencoding' := hencoding.member?_eq_some (fun _ _ h => h.optional?_encoding?)
    ((hannotate.lacksName (by decide)).append
      ((hmodulo.lacksName (by decide)).append hlacks.2.1)) hencodingFirst
  have hmodulo' := hmodulo.member?_eq_some (fun _ _ h => h.optional?_text?)
    ((hannotate.lacksName (by decide)).append
      ((hencoding.lacksName (by decide)).append hlacks.2.2)) hmoduloFirst
  simp [ofJson?, decodeMembers_eq_some hnames, hannotate', hencoding', hmodulo']

end Members

/-! ### Written options -/

section Written

variable {α : Type} {name : String} {Gives : α → Json → Prop} {a : Option α}

/-- A field that is `null` if the option is not given has a member that gives the option. -/
theorem IsMemberFor.givesMember {scalar : α → JsonScalar} {m : List JsonChar × Json}
    (hgives : ∀ a v, (scalar a).Gives v → Gives a v)
    (h : IsMemberFor (name, Options.scalarOrNull scalar a) m) : GivesMember name Gives a [m] := by
  obtain ⟨key, v⟩ := m
  obtain ⟨hkey, hv⟩ := h
  cases a with
  | none =>
    cases hv
    exact .present hkey .absent
  | some a => exact .present hkey (.given (hgives a v hv))

theorem JsonScalar.Gives.spellsString {text : String} {v : Json}
    (h : (JsonScalar.text text).Gives v) : v.SpellsString text := by
  cases h with
  | text h => exact ⟨_, rfl, h⟩

theorem JsonScalar.Gives.eq_bool {b : Bool} {v : Json} (h : (JsonScalar.bool b).Gives v) :
    v = .bool b := by
  cases h
  rfl

/-- **An object with the fields of options gives them.** -/
theorem Options.givenBy_of_fields {o : Options} {members : List (List JsonChar × Json)}
    (h : List.Forall₂ IsMemberFor o.fields members) : o.GivenBy members := by
  obtain ⟨annotate, _, hannotate, htwo, rfl⟩ := List.forall₂_cons_left_iff.1 h
  obtain ⟨encoding, _, hencoding, hone, rfl⟩ := List.forall₂_cons_left_iff.1 htwo
  obtain ⟨modulo, _, hmodulo, hnone, rfl⟩ := List.forall₂_cons_left_iff.1 hone
  obtain rfl := List.forall₂_nil_left_iff.1 hnone
  exact .mk (hannotate.givesMember fun _ _ h => h.eq_bool)
    (hencoding.givesMember fun _ _ h => h.spellsString)
    (hmodulo.givesMember fun _ _ h => h.spellsString) (List.forall_mem_nil _) (.refl _)

/-- **Options are read back** from the text that is written for them and from any text of an object
that gives them, if the reader and the writer follow the grammar of JSON. -/
theorem Options.reads_written {read : JsonReader} {write : JsonWriter}
    (hread : read.FollowsGrammar) (hwrite : write.FollowsGrammar) (o : Options) :
    parse? read (o.jsonText write) = some o ∧
      (∃ members, o.GivenBy members ∧ (Json.object members).WrittenAs (o.jsonText write)) ∧
        ∀ members text, o.GivenBy members → (Json.object members).WrittenAs text →
          parse? read text = some o := by
  have hparse : ∀ members text, o.GivenBy members → (Json.object members).WrittenAs text →
      parse? read text = some o := fun members text hmembers htext => by
    rw [parse?, hread _ _ htext, Option.bind_some, ofJson?_eq_some hmembers]
  obtain ⟨members, hfields, htext⟩ := hwrite o.fields
  have hmembers := givenBy_of_fields hfields
  exact ⟨hparse members _ hmembers htext, ⟨members, hmembers, htext⟩, hparse⟩

/-- Options of which one is given. -/
def sparseOptions : Options := { Options.none with moduloRoutine := some "%\n😀" }

/-- The options as a text with blanks, with a member that is not known, without those that are not
given, and with characters written by a number, by a letter and by two numbers. -/
def sparseText : String :=
  "\x7b \"\" : [-0],\t\"moduloRoutine\":\"\\u0025\\n\\uD83D\\ude00\"\r\x7d"

theorem Options.reads_written_sparse :
    ∃ members, sparseOptions.GivenBy members ∧ (Json.object members).WrittenAs sparseText ∧
      parse? Json.parse? sparseText = some sparseOptions ∧
        parse? Json.parse? (sparseOptions.jsonText Json.writeRecord) = some sparseOptions := by
  obtain ⟨hcompact, -, hreads⟩ :=
    Options.reads_written Json.parse?_followsGrammar Json.writeRecord_followsGrammar sparseOptions
  obtain ⟨key, hkey, hname⟩ := exists_writtenText moduloKey
  let content : List JsonChar := [.unit 0x25, .char '\n', .unit 0xD83D, .unit 0xDE00]
  have hspells : SpellsText content "%\n😀" := by
    have hnil : SpellsChars [] [] := .nil
    have hpair := hnil.pair (c := '😀') (by decide)
    exact (hpair.char '\n').unit (c := '%') (by decide)
  have hgiven : sparseOptions.GivenBy [([], .array [.number ['-', '0']]), (key, .string content)] :=
    .mk .dropped .dropped (.present hkey (.given ⟨content, rfl, hspells⟩))
      (List.forall_mem_singleton.2 ⟨"", show SpellsText [] "" from .nil, by decide, by decide,
        by decide⟩) (.swap ..)
  have hvalue : (JsonToken.string content).WrittenAs ('"' :: (['\\', 'u', '0', '0', '2', '5', '\\',
      'n', '\\', 'u', 'D', '8', '3', 'D', '\\', 'u', 'd', 'e', '0', '0'] ++ ['"'])) :=
    .string (.cons (.unit (i := 0) (j := 0) (k := 2) (l := 5) (by decide) (by decide) (by decide)
      (by decide)) (.cons (.letter (by decide)) (.cons (.unit (i := 13) (j := 8) (k := 3) (l := 13)
        (by decide) (by decide) (by decide) (by decide)) (.cons (.unit (i := 13) (j := 14) (k := 0)
          (l := 0) (by decide) (by decide) (by decide) (by decide)) .nil))))
  have hnumber : (JsonToken.number ['-', '0']).WrittenAs ['-', '0'] :=
    .number (@IsJsonNumber.mk ['-'] ['0'] [] [] (.inr rfl) ⟨⟨by simp, by simp⟩, fun _ => rfl⟩ .none
      .none)
  have hwritten : (Json.object [([], .array [.number ['-', '0']]),
      (key, .string content)]).WrittenAs sparseText := by
    have hspace : ' ' ∈ [' ', '\t', '\n', '\r'] := by decide
    have hend := (writesTokens_nil.fixed .endObject rfl).blank (b := '\r') (by decide)
    have hmember := ((hend.lexeme hvalue).fixed .colon rfl).lexeme hname
    have hcomma := (hmember.blank (b := '\t') (by decide)).fixed .comma rfl
    have harray := ((hcomma.fixed .endArray rfl).lexeme hnumber).fixed .beginArray rfl
    have hcolon := (harray.blank hspace).fixed .colon rfl
    have hother := ((hcolon.blank hspace).lexeme (.string .nil)).blank hspace
    exact hother.fixed .beginObject rfl
  exact ⟨_, hgiven, hwritten, hreads _ _ hgiven hwritten, hcompact⟩

end Written

end Jack
