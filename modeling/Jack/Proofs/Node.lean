import Jack.Tree
import Mathlib.Logic.Relation

/-!
# Nodes of a tree

A class holds declarations, statements, expressions, terms, calls and names.  A `Node` is any of
these, so that what holds of all of them can be said at once.  The children of a node come in the
order in which they are written, and a node is `Within` another one that it is reached from through
children.

* `Node.forall_within_iff` : what holds of all nodes within a node holds of the node and of all
  nodes within its children.
-/

namespace Jack

/-- A part of the tree of a class. -/
inductive Node where
  /-- The class. -/
  | classDec (c : ClassDec)
  /-- A declaration of variables of the class. -/
  | classVarDec (d : ClassVarDec)
  /-- A subroutine. -/
  | subroutineDec (s : SubroutineDec)
  /-- A declaration of local variables. -/
  | varDec (d : VarDec)
  /-- A statement. -/
  | statement (s : Statement)
  /-- An expression. -/
  | expr (e : Expr)
  /-- A term. -/
  | term (t : Term)
  /-- A call. -/
  | call (c : Call)
  /-- A name that is used. -/
  | nameUse (n : NameUse)
  /-- A name that is declared or called. -/
  | ident (name : Ident)

/-- The parts of a statement in order. -/
def Statement.children : Statement → List Node
  | .assign target index value _ =>
    .nameUse target :: (index.toList.map .expr ++ [.expr value])
  | .ifThen condition body _ | .whileLoop condition body _ =>
    .expr condition :: body.map .statement
  | .ifElse condition thenBody elseBody _ =>
    .expr condition :: (thenBody.map .statement ++ elseBody.map .statement)
  | .doCall call _ => [.call call]
  | .ret value _ => value.toList.map .expr

/-- The parts of a term in order. -/
def Term.children : Term → List Node
  | .integer .. | .string .. | .keyword .. => []
  | .var name => [.nameUse name]
  | .element array index => [.nameUse array, .expr index]
  | .call c => [.call c]
  | .group inner _ => [.expr inner]
  | .unary _ operand _ => [.term operand]

namespace Node

/-- The parts of a node in order. -/
def children : Node → List Node
  | classDec c =>
    ident c.name :: (c.varDecs.map classVarDec ++ c.subroutines.map subroutineDec)
  | classVarDec d => d.names.map ident
  | subroutineDec s =>
    ident s.name :: (s.parameters.map (fun p => ident p.name) ++
      (s.varDecs.map varDec ++ s.statements.map statement))
  | varDec d => d.names.map ident
  | statement s => s.children
  | expr e => term e.head :: e.tail.map fun p => term p.2
  | term t => t.children
  | call c => c.receiver.toList.map nameUse ++ ident c.name :: c.arguments.map expr
  | nameUse _ | ident _ => []

/-- Where a node stands. -/
def span : Node → Span
  | classDec c => c.span
  | classVarDec d => d.span
  | subroutineDec s => s.span
  | varDec d => d.span
  | statement s => s.span
  | expr e => e.span
  | term t => t.span
  | call c => c.span
  | nameUse n => n.span
  | ident name => name.span

/-- The node `m` is `n`, or is reached from `n` through children. -/
def Within (m n : Node) : Prop := Relation.ReflTransGen (fun a b => b ∈ a.children) n m

/-- What holds of all nodes within a node holds of the node and of all nodes within its children. -/
theorem forall_within_iff {n : Node} {P : Node → Prop} :
    (∀ m : Node, m.Within n → P m) ↔ P n ∧ ∀ c ∈ n.children, ∀ m : Node, m.Within c → P m := by
  constructor
  · intro h
    exact ⟨h n .refl, fun c hc m hm => h m (.head hc hm)⟩
  · rintro ⟨hn, hchildren⟩ m hm
    rcases Relation.ReflTransGen.cases_head hm with rfl | ⟨c, hc, hm⟩
    · exact hn
    · exact hchildren c hc m hm

end Node

end Jack
