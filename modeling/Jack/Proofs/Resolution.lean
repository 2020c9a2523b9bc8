import Jack.Proofs.Declarations
import Jack.Proofs.Terminals

/-!
# Resolution of names

What a name means in a parsed class follows from the declarations of its tree alone: those of its
own subroutine and those of the class.  No other subroutine has a part in it, although the scopes
that the names were looked up in are cleared and filled again from one subroutine to the next.

* `lexicallyScoped_of_parse` : a parsed class is lexically scoped;
* `meanings_of_parse` : **the class lists its variables, and each name has its meaning.**
-/

namespace Jack

/-- The names of a parsed class are those of its declarations. -/
structure LexicallyScoped (parsed : ParsedClass) : Prop where
  /-- The scope of the class lists its variables in order. -/
  scope_eq : parsed.scope.toList = parsed.tree.declaredVariables
  /-- The variables of the class have distinct names. -/
  nodup : (parsed.tree.declaredVariables.map (·.name)).Nodup
  /-- The variables of a subroutine have distinct names. -/
  nodup_subroutine : ∀ s ∈ parsed.tree.subroutines,
    ((s.declaredVariables parsed.tree.name.text).map (·.name)).Nodup
  /-- A name that is used in a subroutine means what the declarations say. -/
  meaning_eq : ∀ s ∈ parsed.tree.subroutines, ∀ n ∈ statementsNameUses s.statements,
    n.meaning = s.meaning parsed.tree.name.text parsed.tree.declaredVariables n.name

/-- The scopes that a class was read with hold its declarations. -/
theorem ReadInScopes.holds {parsed : ParsedClass} {scopes : Scopes}
    (h : ReadInScopes parsed scopes) : scopes.Holds parsed.tree.declarations :=
  Scopes.holds_empty.of_declares h.declares

/-- With what a subroutine declares, the scopes hold all that its names can mean. -/
theorem ReadInScopes.exists_holds {parsed : ParsedClass} {scopes : Scopes}
    (h : ReadInScopes parsed scopes) {s : SubroutineDec} (hs : s ∈ parsed.tree.subroutines) :
    ∃ scopes' : Scopes,
      scopes'.Holds (parsed.tree.declarations ++ s.declarations parsed.tree.name.text) ∧
        Resolved scopes'.resolve (statementsNameUses s.statements) := by
  obtain ⟨scopes', hdeclares, hnames⟩ := h.subroutines s hs
  have hclass := h.holds.clearSubroutine parsed.tree.level_of_mem_declarations
  exact ⟨scopes', hclass.of_declares hdeclares, hnames⟩

theorem ReadInScopes.lexicallyScoped {parsed : ParsedClass} {scopes : Scopes}
    (h : ReadInScopes parsed scopes) : LexicallyScoped parsed := by
  have hscope : parsed.scope.toList = parsed.tree.declaredVariables := by
    have hclass := h.holds.toList_eq .classLevel
    rw [onLevel_eq_self parsed.tree.level_of_mem_declarations] at hclass
    rw [h.scope_eq]
    exact hclass
  refine ⟨hscope, ?_, fun s hs => ?_, fun s hs n hn => ?_⟩
  · rw [← hscope, h.scope_eq]
    exact h.holds.nodup .classLevel
  · obtain ⟨scopes', hs', -⟩ := h.exists_holds hs
    rw [← hs'.toList_ofLevel.2]
    exact hs'.nodup .subroutineLevel
  · obtain ⟨scopes', hs', hnames⟩ := h.exists_holds hs
    rw [hnames n hn, hs'.resolve_eq]

theorem lexicallyScoped_of_parse {tokens : List Token} {parsed : ParsedClass}
    (h : parse tokens = .ok parsed) : LexicallyScoped parsed := by
  obtain ⟨scopes, hread⟩ := readInScopes_of_parse h
  exact hread.lexicallyScoped

/-- **The scope of a parsed class lists the variables of the class in order, and each name that is
used in a subroutine means its variable of that name, else that of the class, else what its first
letter suggests.** -/
theorem meanings_of_parse {tokens : List Token} {parsed : ParsedClass}
    (h : parse tokens = .ok parsed) :
    parsed.scope.toList = parsed.tree.declaredVariables ∧
      (parsed.tree.declaredVariables.map (·.name)).Nodup ∧
      ∀ s ∈ parsed.tree.subroutines,
        ((s.declaredVariables parsed.tree.name.text).map (·.name)).Nodup ∧
          ∀ n ∈ statementsNameUses s.statements,
            n.meaning = s.meaning parsed.tree.name.text parsed.tree.declaredVariables n.name := by
  obtain ⟨hscope, hnodup, hnodup_subroutine, hmeaning⟩ := lexicallyScoped_of_parse h
  exact ⟨hscope, hnodup, fun s hs => ⟨hnodup_subroutine s hs, hmeaning s hs⟩⟩

theorem meanings_of_parse_gauge :
    ∃ parsed, parse Gauge.tokens = .ok parsed ∧
      parsed.scope.toList = parsed.tree.declaredVariables ∧
        (parsed.tree.declaredVariables.map (·.name)).Nodup ∧
        ∀ s ∈ parsed.tree.subroutines,
          ((s.declaredVariables parsed.tree.name.text).map (·.name)).Nodup ∧
            ∀ n ∈ statementsNameUses s.statements,
              n.meaning = s.meaning parsed.tree.name.text parsed.tree.declaredVariables n.name := by
  obtain ⟨parsed, h⟩ := Gauge.exists_parse_tokens
  exact ⟨parsed, h, meanings_of_parse h⟩

/-- The local variable hides the field, and the argument comes after the object of the method. -/
example : (Gauge.tree.subroutines.flatMap fun s => ["level", "limit", "step", "Output"].map
      (s.meaning Gauge.tree.name.text Gauge.tree.declaredVariables)) =
    [.declared ⟨"level", .int, .localVar, 0⟩, .declared ⟨"limit", .int, .field, 1⟩,
      .declared ⟨"step", .int, .argument, 1⟩, .className] := by decide

end Jack
