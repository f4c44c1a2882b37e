import NullLint.Arena.Parser.Expression
import NullLint.Proofs.Arena.Planting

/-!
# Types and expressions in step

The parsers of types and expressions that fill an arena go in step with those that give trees, as
soon as the parsers of what is nested in them do. The counter goes up by one where an expression
begins, so that it says how many levels are left.
-/

namespace NullLint.ArenaParser

variable {d : Nat} {nested : Parser Green} {nested' : ArenaParser Nat}

/-! ## Types -/

section Types

variable {argument : Parser Green} {argument' : ArenaParser Nat}
  (h : ∀ d, Plants argument argument' d [] IsNode)
include h

theorem plants_typeArguments :
    Plants (Parser.typeArguments argument) (typeArguments argument') d [] IsNode := by
  have hparts : Plants
      (do
        let opening ← Parser.advance
        let types ← Parser.commaSeparated do return [← argument]
        return opening :: types ++ [← Parser.expect .greaterThan])
      (deeper do
        let opening ← advance
        let types ← commaSeparated do return [← argument']
        return opening :: types ++ [← expect .greaterThan]) d [] AreNodes := by
    refine Plants.deeper ?_
    refine plants_advance.node fun opening => ?_
    refine (plants_commaSeparated (h _).single).nodes fun types => ?_
    refine (plants_expect _).node fun closing => ?_
    exact plants_pure ⟨by simp, by simp⟩
  refine hparts.nodes (f := fun parts => pure (Green.group .typeArgumentList parts))
    (g := group .typeArgumentList) fun parts => ?_
  exact plants_group (by simp) (by simp)

end Types

/-- The parsers of type arguments go in step, if there are any. -/
def Arguments (argument : Option (Parser Green)) (argument' : Option (ArenaParser Nat)) : Prop :=
  match argument, argument' with
  | some p, some q => ∀ d, Plants p q d [] IsNode
  | none, none => True
  | _, _ => False

theorem plants_decorate (n : Node Nat) :
    Plants (Parser.decorate n.erase) (decorate n.tag) d [n] (IsNext n) := by
  refine Plants.lift _ fun s => ?_
  refine Plants.ite (fun _ => ?_) fun _ => Plants.ite (fun _ => ?_) fun _ => plants_none
  · exact plants_advance.node fun mark => plants_some (by simp) (by simp)
  · refine plants_advance.node fun opening => ?_
    exact plants_advance.node fun closing => plants_some (by simp) (by simp)

section TypeParts

variable {argument : Option (Parser Green)} {argument' : Option (ArenaParser Nat)}
  (h : Arguments argument argument')
include h

theorem plants_simpleType :
    Plants (Parser.simpleType argument) (simpleType argument') d [] IsNode := by
  refine Plants.lift _ fun isVar => ?_
  refine Plants.ite (fun _ => ?_) fun _ => ?_
  · exact plants_advance.node fun keyword => plants_group (by simp) (by simp)
  · refine (plants_expect _).node fun name => ?_
    match argument, argument', h with
    | none, none, _ => exact plants_group (by simp) (by simp)
    | some p, some q, h =>
      refine Plants.lift _ fun s => ?_
      refine Plants.ite (fun _ => ?_) fun _ => plants_group (by simp) (by simp)
      exact (plants_typeArguments h).node fun list => plants_group (by simp) (by simp)

theorem plants_qualify (n : Node Nat) :
    Plants (Parser.qualify argument n.erase) (qualify argument' n.tag) d [n] (IsNext n) := by
  refine Plants.lift _ fun s => ?_
  refine Plants.ite (fun _ => ?_) fun _ => plants_none
  refine plants_advance.node fun dot => ?_
  exact (plants_simpleType h).node fun right => plants_some (by simp) (by simp)

theorem plants_typeWith : Plants (Parser.typeWith argument) (typeWith argument') d [] IsNode := by
  refine (plants_simpleType h).node fun name => ?_
  exact (plants_refine (plants_qualify h) name).nodeOf [] fun qualified =>
    plants_refine plants_decorate qualified

end TypeParts

theorem plants_typeNested (depth : Nat) :
    ∀ d, Plants (Parser.typeNested depth) (typeNested depth) d [] IsNode := by
  induction depth with
  | zero => exact fun d => plants_typeWith (show Arguments none none from trivial)
  | succ depth ih =>
    exact fun d => plants_typeWith (show Arguments (some _) (some _) from ih)

theorem plants_type : Plants Parser.type type d [] IsNode := plants_typeNested _ d

/-! ## Expressions -/

theorem plants_identifierName : Plants Parser.identifierName identifierName d [] IsNode :=
  (plants_expect _).node fun name => plants_group (by simp) (by simp)

theorem plants_absentExpression : Plants Parser.absentExpression absentExpression d [] IsNode := by
  refine Plants.lift _ fun _ => ?_
  refine (plants_leaf (.absent .identifier)).node
    (f := fun name => pure (Green.group .identifierName [name])) fun name => ?_
  exact plants_group (by simp) (by simp)

/-- Signs before an operand. -/
theorem plants_prefixed (operand : Node Nat) (operators : List (Node Nat)) :
    Plants
      (pure ((operators.map Node.erase).foldr
        (fun op e => Green.group .prefixUnaryExpression [op, e]) operand.erase))
      (prefixed operand.tag (operators.map Node.tag)) d (operators ++ [operand]) IsNode := by
  induction operators with
  | nil => exact plants_pure ⟨operand, rfl, rfl, rfl⟩
  | cons op operators ih =>
    refine ih.nodeOf (f := fun e => pure (Green.group .prefixUnaryExpression [op.erase, e]))
      [op] fun inner => ?_
    exact plants_group (by simp) (by simp)

section Nested

variable (h : Plants nested nested' d [] IsNode)
include h

theorem plants_argumentList (opening closing kind : Kind) :
    Plants (Parser.argumentList nested opening closing kind)
      (argumentList nested' opening closing kind) d [] IsNode := by
  refine (plants_expect _).node fun first => ?_
  refine Plants.lift _ fun closes => ?_
  refine Plants.ite (fun _ => plants_nil.nodes fun arguments => ?_) fun _ =>
    (plants_commaSeparated h.single).nodes fun arguments => ?_
  · exact (plants_expect _).node fun last => plants_group (by simp) (by simp)
  · exact (plants_expect _).node fun last => plants_group (by simp) (by simp)

theorem plants_parenthesizedArguments :
    Plants (Parser.parenthesizedArguments nested) (parenthesizedArguments nested') d [] IsNode :=
  plants_argumentList h _ _ _

theorem plants_bracketedArguments :
    Plants (Parser.bracketedArguments nested) (bracketedArguments nested') d [] IsNode :=
  plants_argumentList h _ _ _

theorem plants_objectCreation :
    Plants (Parser.objectCreation nested) (objectCreation nested') d [] IsNode := by
  refine plants_advance.node fun keyword => ?_
  refine plants_type.node fun created => ?_
  refine Plants.lift _ fun opens => ?_
  refine Plants.ite (fun _ => (plants_parenthesizedArguments h).node fun arguments => ?_) fun _ =>
    (plants_expect _).node fun arguments => ?_
  · exact plants_group (by simp) (by simp)
  · exact plants_group (by simp) (by simp)

theorem plants_parenthesized :
    Plants (Parser.parenthesized nested) (parenthesized nested') d [] IsNode := by
  refine plants_advance.node fun opening => ?_
  refine h.node fun e => ?_
  exact (plants_expect _).node fun closing => plants_group (by simp) (by simp)

theorem plants_primary : Plants (Parser.primary nested) (primary nested') d [] IsNode := by
  refine Plants.lift _ fun s => ?_
  split
  case h_1 hk =>
    rw [if_pos hk]
    exact plants_identifierName
  case h_2 hk =>
    simp only [hk, reduceCtorEq, ↓reduceIte]
    exact plants_advance.node fun keyword => plants_group (by simp) (by simp)
  case h_3 hk =>
    simp only [hk, reduceCtorEq, ↓reduceIte]
    exact plants_parenthesized h
  case h_4 hk =>
    simp only [hk, reduceCtorEq, ↓reduceIte]
    exact plants_objectCreation h
  case h_5 hk =>
    simp only [hk, reduceCtorEq, ↓reduceIte]
    exact plants_skip _
  case h_6 h₁ h₂ h₃ h₄ h₅ =>
    rw [if_neg h₁, if_neg h₂, if_neg h₃, if_neg h₄, if_neg h₅]
    refine Plants.ite (fun _ => ?_) fun _ => plants_absentExpression
    exact plants_advance.node fun literal => plants_group (by simp) (by simp)

theorem plants_extend (n : Node Nat) :
    Plants (Parser.extend nested n.erase) (extend nested' n.tag) d [n] (IsNext n) := by
  refine Plants.lift _ fun s => ?_
  split
  case h_1 hk =>
    rw [if_pos hk]
    refine plants_advance.node fun dot => ?_
    exact plants_identifierName.node fun name => plants_some (by simp) (by simp)
  case h_2 hk =>
    simp only [hk, reduceCtorEq, ↓reduceIte]
    refine Plants.ite (fun _ => ?_) fun _ => plants_none
    exact plants_advance.node fun mark => plants_some (by simp) (by simp)
  case h_3 hk =>
    simp only [hk, reduceCtorEq, ↓reduceIte]
    exact (plants_parenthesizedArguments h).node fun list => plants_some (by simp) (by simp)
  case h_4 hk =>
    simp only [hk, reduceCtorEq, ↓reduceIte]
    exact (plants_bracketedArguments h).node fun list => plants_some (by simp) (by simp)
  case h_5 hk =>
    simp only [hk, reduceCtorEq, ↓reduceIte]
    exact plants_advance.node fun mark => plants_some (by simp) (by simp)
  case h_6 hk =>
    simp only [hk, reduceCtorEq, ↓reduceIte, true_or]
    exact plants_advance.node fun mark => plants_some (by simp) (by simp)
  case h_7 hk =>
    simp only [hk, reduceCtorEq, ↓reduceIte, or_true]
    exact plants_advance.node fun mark => plants_some (by simp) (by simp)
  case h_8 h₁ h₂ h₃ h₄ h₅ h₆ h₇ =>
    rw [if_neg h₁, if_neg h₂, if_neg h₃, if_neg h₄, if_neg h₅, if_neg fun hk => hk.elim h₆ h₇]
    exact plants_none

theorem plants_postfixed : Plants (Parser.postfixed nested) (postfixed nested') d [] IsNode :=
  (plants_primary h).node fun e => plants_refine (plants_extend h) e

theorem plants_unary : Plants (Parser.unary nested) (unary nested') d [] IsNode := by
  refine Plants.nodes (plants_nodesWhile _ plants_advance.single) fun operators => ?_
  exact (plants_postfixed h).node fun operand => plants_prefixed operand operators

end Nested

/-- Operators and operands in turn. -/
inductive Paired : List (Node Nat) → Prop
  | nil : Paired []
  | cons (operator operand : Node Nat) {more : List (Node Nat)} (h : Paired more) :
    Paired (operator :: operand :: more)

theorem Paired.append {ns ms : List (Node Nat)} (h : Paired ns) (h' : Paired ms) :
    Paired (ns ++ ms) := by
  induction h with
  | nil => exact h'
  | cons operator operand _ ih => exact ih.cons operator operand

/-- The operands are grouped from the last one on, and each of them is used. -/
theorem plants_groupRight (kind : Kind) (first : Node Nat) {more : List (Node Nat)}
    (h : Paired more) :
    Plants (pure (Parser.groupRight kind first.erase (more.map Node.erase)))
      (groupRight kind first.tag (more.map Node.tag)) d (first :: more) IsNode := by
  induction h generalizing first with
  | nil => exact plants_pure ⟨first, rfl, rfl, rfl⟩
  | cons operator next _ ih =>
    refine (ih next).nodeOf
      (f := fun e => pure (Green.group kind [first.erase, operator.erase, e]))
      [first, operator] fun right => ?_
    exact plants_group (by simp) (by simp)

section Operands

variable {operand : Parser Green} {operand' : ArenaParser Nat}
  (h : Plants operand operand' d [] IsNode)
include h

theorem plants_leftGrouped (joins : Kind → Bool) :
    Plants (Parser.leftGrouped joins operand) (leftGrouped joins operand') d [] IsNode := by
  refine h.node fun first => plants_refine (fun left => ?_) first
  refine Plants.lift _ fun s => ?_
  refine Plants.ite (fun _ => ?_) fun _ => plants_none
  refine plants_advance.node fun operator => ?_
  exact h.node fun right => plants_some (by simp) (by simp)

theorem plants_rightGrouped (kind operator : Kind) :
    Plants (Parser.rightGrouped kind operator operand) (rightGrouped kind operator operand')
      d [] IsNode := by
  have hitem : Plants (do let mark ← Parser.advance; return [mark, ← operand])
      (do let mark ← advance; return [mark, ← operand']) d [] fun got gs is =>
        AreNodes got gs is ∧ Paired got := by
    refine plants_advance.node fun mark => h.node fun e => ?_
    exact plants_pure ⟨⟨by simp, by simp⟩, Paired.nil.cons mark e⟩
  refine h.node fun first => ?_
  refine Plants.then (plants_collectWhile ⟨⟨rfl, rfl⟩, .nil⟩
    (fun hns hms => ⟨hns.1.append hms.1, hns.2.append hms.2⟩) _ hitem) ?_
  rintro more _ _ ⟨⟨rfl, rfl⟩, hpaired⟩
  exact plants_groupRight kind first hpaired

end Operands

theorem plants_binaryAbove (h : Plants nested nested' d [] IsNode) (levels : List Nat) :
    Plants (Parser.binaryAbove levels nested) (binaryAbove levels nested') d [] IsNode := by
  induction levels with
  | nil => exact plants_unary h
  | cons level levels ih => exact plants_leftGrouped ih fun k => k.precedence == level

theorem plants_assignment (h : Plants nested nested' d [] IsNode) :
    Plants (Parser.assignment nested) (assignment nested') d [] IsNode :=
  plants_rightGrouped (plants_rightGrouped (plants_binaryAbove h _) _ _) _ _

/-- While the counter and the levels left make up what is allowed, the counter sends just the
expressions for which no level is left to `giveUp`. -/
theorem plants_expression {levels : Nat} (hd : d + levels = maxParseDepth) :
    Plants (Parser.expression levels) (expression levels) d [] IsNode := by
  induction levels generalizing d with
  | zero => exact plants_nesting_too_deep (by omega) (plants_giveUp false)
  | succ levels ih =>
    exact plants_nesting (by omega) (plants_assignment (ih (by omega)))

end NullLint.ArenaParser
