import NullLint.Arena.Parser.Declaration
import NullLint.Proofs.Arena.Expressions
import NullLint.Proofs.Parser.Progress

/-!
# Statements and declarations in step

Statements go in step like expressions. Declarations stand outside of all of them, where the counter
is at zero; modifiers and names that are read before it is known what they belong to wait in the
arena. So a whole file fills an arena with the tree that it has (`plants_compilationUnit`).
-/

namespace NullLint.ArenaParser

open Lookahead
open NullLint.Parser (ListLoop startsType)

variable {d levels : Nat} {statement' : ArenaParser Nat} {p : Parser Green}

/-! ## Statements -/

section Levels

variable (hd : d + levels = maxParseDepth)
include hd

theorem plants_equalsValue :
    Plants (Parser.equalsValue levels) (equalsValue levels) d [] IsNode := by
  refine plants_advance.node fun equals => ?_
  exact (plants_expression hd).node fun e => plants_group (by simp) (by simp)

/-- A declarator takes up its name. -/
theorem plants_declarator (name : Node Nat) :
    Plants (Parser.declarator levels name.erase) (declarator levels name.tag) d [name] IsNode := by
  refine Plants.lift _ fun equals => ?_
  refine Plants.ite (fun _ => ?_) fun _ => plants_group (by simp) (by simp)
  exact (plants_equalsValue hd).node fun value => plants_group (by simp) (by simp)

theorem plants_moreDeclarators :
    Plants (Parser.moreDeclarators levels) (moreDeclarators levels) d [] AreNodes := by
  refine plants_nodesWhile _ (plants_advance.node fun comma => ?_)
  refine (plants_expect _).node fun name => ?_
  exact (plants_declarator hd name).nodeOf [comma] fun declarator =>
    plants_pure ⟨by simp, by simp⟩

theorem plants_localDeclaration :
    Plants (Parser.localDeclaration levels) (localDeclaration levels) d [] IsNode := by
  refine plants_type.node fun declared => ?_
  refine (plants_expect _).node fun name => ?_
  refine (plants_declarator hd name).nodeOf [declared] fun first => ?_
  refine (plants_moreDeclarators hd).nodes fun others => ?_
  exact (plants_expect _).node fun semicolon => plants_group (by simp) (by simp)

theorem plants_expressionStatement :
    Plants (Parser.expressionStatement levels) (expressionStatement levels) d [] IsNode := by
  refine (plants_expression hd).node fun e => ?_
  exact (plants_expect _).node fun semicolon => plants_group (by simp) (by simp)

theorem plants_jump (kind : Kind) :
    Plants (Parser.jump levels kind) (jump levels kind) d [] IsNode := by
  refine plants_advance.node fun keyword => ?_
  refine Plants.lift _ fun s => ?_
  refine Plants.ite (fun _ => (plants_expression hd).node fun value => ?_) fun _ =>
    plants_nil.nodes fun value => ?_
  · rw [pure_bind, pure_bind]
    exact (plants_expect _).node fun semicolon => plants_group (by simp) (by simp)
  · exact (plants_expect _).node fun semicolon => plants_group (by simp) (by simp)

section Inner

variable (h : Plants p statement' d [] IsNode)
include h

theorem plants_embedded :
    Plants (Parser.embedded levels p) (embedded levels statement') d [] IsNode := by
  refine Plants.lift _ fun s => ?_
  exact Plants.ite (fun _ => h) fun _ => plants_expressionStatement hd

theorem plants_guarded :
    Plants (Parser.guarded levels p) (guarded levels statement') d [] AreNodes := by
  refine plants_advance.node fun keyword => ?_
  refine (plants_expect _).node fun opening => ?_
  refine (plants_expression hd).node fun condition => ?_
  refine (plants_expect _).node fun closing => ?_
  exact (plants_embedded hd h).node fun inner => plants_pure ⟨by simp, by simp⟩

theorem plants_ifStatement :
    Plants (Parser.ifStatement levels p) (ifStatement levels statement') d [] IsNode := by
  refine (plants_guarded hd h).nodes fun parts => ?_
  refine Plants.lift _ fun alternative => ?_
  refine Plants.ite (fun _ => ?_) fun _ => plants_group (by simp) (by simp)
  refine plants_advance.node fun keyword => ?_
  refine (plants_embedded hd h).node fun other => ?_
  rw [List.append_assoc]
  exact Plants.group _ (by simp) fun i =>
    plants_group (by simp [Node.erase_branch]) (by simp [Node.tag])

theorem plants_whileStatement :
    Plants (Parser.whileStatement levels p) (whileStatement levels statement') d [] IsNode :=
  (plants_guarded hd h).nodes fun parts => plants_group (by simp) (by simp)

theorem plants_statementWith
    (hblock : Plants (Parser.block p) (block statement') d [] IsNode) :
    Plants (Parser.statementWith levels p) (statementWith levels statement') d [] IsNode := by
  refine Plants.lift _ fun s => ?_
  split
  case h_1 hk =>
    rw [if_pos hk]
    exact hblock
  case h_2 hk =>
    simp only [hk, reduceCtorEq, ↓reduceIte]
    exact plants_advance.node fun semicolon => plants_group (by simp) (by simp)
  case h_3 hk =>
    simp only [hk, reduceCtorEq, ↓reduceIte]
    exact plants_ifStatement hd h
  case h_4 hk =>
    simp only [hk, reduceCtorEq, ↓reduceIte]
    exact plants_whileStatement hd h
  case h_5 hk =>
    simp only [hk, reduceCtorEq, ↓reduceIte]
    exact plants_jump hd _
  case h_6 hk =>
    simp only [hk, reduceCtorEq, ↓reduceIte]
    exact plants_jump hd _
  case h_7 h₁ h₂ h₃ h₄ h₅ h₆ =>
    rw [if_neg h₁, if_neg h₂, if_neg h₃, if_neg h₄, if_neg h₅, if_neg h₆]
    exact Plants.ite (fun _ => plants_localDeclaration hd) fun _ => plants_expressionStatement hd

end Inner

end Levels

/-! ## Lists -/

/-- One element of a list, for which as many levels are left as the list has. -/
def listItem : ListLoop → ArenaParser Nat
  | .file => topLevelItem
  | .namespaceFile depth | .namespaceBody depth => namespaceMember (namespaceNested depth)
  | .typeBody depth => do
    if startsMember (← lift get).kind then member (typeDeclarationNested depth)
    else skip .invalidMemberToken
  | .block levels => do
    if startsStatement (← lift get).kind then statement levels
    else skip .invalidExpressionTerm

/-- A whole list. -/
def list (l : ListLoop) : ArenaParser (List Nat) :=
  collectWhile l.goesOn (element l.code (listItem l))

theorem plants_list {l : ListLoop} (h : Plants l.item (listItem l) d [] IsNode) :
    Plants l.run (list l) d [] AreNodes :=
  plants_nodesWhile _ (plants_element _ h)

theorem plants_blockItem (h : Plants (Parser.statement levels) (statement levels) d [] IsNode) :
    Plants (ListLoop.block levels).item (listItem (.block levels)) d [] IsNode := by
  refine Plants.lift _ fun s => ?_
  exact Plants.ite (fun _ => h) fun _ => plants_skip _

theorem plants_block (h : Plants (Parser.statement levels) (statement levels) d [] IsNode) :
    Plants (Parser.block (Parser.statement levels)) (block (statement levels)) d [] IsNode := by
  rw [ListLoop.block_eq]
  refine (plants_expect _).node fun opening => ?_
  refine (plants_list (plants_blockItem h)).nodes fun body => ?_
  exact (plants_expect _).node fun closing => plants_group (by simp) (by simp)

theorem plants_statement (hd : d + levels = maxParseDepth) :
    Plants (Parser.statement levels) (statement levels) d [] IsNode := by
  induction levels generalizing d with
  | zero => exact plants_nesting_too_deep (by omega) (plants_giveUp true)
  | succ levels ih =>
    have hd' : d + 1 + levels = maxParseDepth := by omega
    have h := ih hd'
    exact plants_nesting (by omega) (plants_statementWith hd' h (plants_block h))

/-! ## Declarations -/

/-- Outside of all statements, all levels are left. -/
theorem all_levels : 0 + maxParseDepth = maxParseDepth := Nat.zero_add _

theorem plants_arrowClause : Plants Parser.arrowClause arrowClause 0 [] IsNode := by
  refine plants_advance.node fun arrow => ?_
  exact (plants_expression all_levels).node fun e => plants_group (by simp) (by simp)

theorem plants_body : Plants Parser.body body 0 [] AreNodes := by
  refine Plants.lift _ fun s => ?_
  split
  case h_1 hk =>
    rw [if_pos hk]
    exact (plants_block (plants_statement all_levels)).single
  case h_2 hk =>
    simp only [hk, reduceCtorEq, ↓reduceIte]
    refine plants_arrowClause.node fun clause => ?_
    exact (plants_expect _).node fun semicolon => plants_pure ⟨by simp, by simp⟩
  case h_3 h₁ h₂ =>
    rw [if_neg h₁, if_neg h₂]
    exact (plants_expect _).single

theorem plants_parameter : Plants Parser.parameter parameter 0 [] IsNode := by
  refine plants_type.node fun declared => ?_
  refine (plants_expect _).node fun name => ?_
  refine Plants.lift _ fun equals => ?_
  refine Plants.ite (fun _ => (plants_equalsValue all_levels).node fun value => ?_) fun _ =>
    plants_nil.nodes fun value => plants_group (by simp) (by simp)
  rw [pure_bind, pure_bind]
  exact plants_group (by simp) (by simp)

theorem plants_parameterList : Plants Parser.parameterList parameterList 0 [] IsNode := by
  refine (plants_expect _).node fun opening => ?_
  refine Plants.nodes (plants_collect AreNodes.append ?_) fun parameters => ?_
  · refine Plants.lift _ fun s => ?_
    refine Plants.ite (fun _ => ?_) fun _ => plants_pure ⟨⟨rfl, rfl⟩, rfl⟩
    refine plants_parameter.node fun p => ?_
    refine (plants_accept _).nodes fun comma => ?_
    exact plants_pure ⟨⟨by simp, by simp⟩, by simp⟩
  · exact (plants_expect _).node fun closing => plants_group (by simp) (by simp)

theorem plants_accessorList : Plants Parser.accessorList accessorList 0 [] IsNode := by
  refine plants_advance.node fun opening => ?_
  refine Plants.nodes (plants_nodesWhile _ ?_) fun accessors => ?_
  · refine plants_modifiers.nodes fun words => ?_
    refine (plants_expect _).node fun name => ?_
    refine plants_body.nodes fun rest => ?_
    refine Plants.group [] (by simp) fun i => plants_pure ⟨?_, rfl⟩
    simp [Node.erase_branch]
  · exact (plants_expect _).node fun closing => plants_group (by simp) (by simp)

/-- A member takes up what was read before it: its modifiers, its type and its name. -/
theorem plants_memberTail (before : List (Node Nat)) (name : Node Nat) :
    Plants (Parser.memberTail (before.map Node.erase) name.erase)
      (memberTail (before.map Node.tag) name.tag) 0 (before ++ [name]) IsNode := by
  refine Plants.lift _ fun s => ?_
  split
  case h_1 hk =>
    rw [if_pos hk]
    refine plants_parameterList.node fun parameters => ?_
    exact plants_body.nodes fun rest => plants_group (by simp) (by simp)
  case h_2 hk =>
    simp only [hk, reduceCtorEq, ↓reduceIte]
    refine plants_accessorList.node fun accessors => ?_
    refine Plants.lift _ fun equals => ?_
    refine Plants.ite (fun _ => ?_) fun _ => plants_group (by simp) (by simp)
    refine (plants_equalsValue all_levels).node fun value => ?_
    exact (plants_expect _).node fun semicolon => plants_group (by simp) (by simp)
  case h_3 hk =>
    simp only [hk, reduceCtorEq, ↓reduceIte]
    refine plants_arrowClause.node fun clause => ?_
    exact (plants_expect _).node fun semicolon => plants_group (by simp) (by simp)
  case h_4 h₁ h₂ h₃ =>
    rw [if_neg h₁, if_neg h₂, if_neg h₃]
    refine (plants_declarator all_levels name).nodeOf before fun first => ?_
    refine (plants_moreDeclarators all_levels).nodes fun others => ?_
    exact (plants_expect _).node fun semicolon => plants_group (by simp) (by simp)

section Types

variable {nested : List Green → Parser Green} {nested' : List Nat → ArenaParser Nat}
  (h : ∀ words : List (Node Nat),
    Plants (nested (words.map Node.erase)) (nested' (words.map Node.tag)) 0 words IsNode)
include h

theorem plants_member : Plants (Parser.member nested) (member nested') 0 [] IsNode := by
  refine plants_modifiers.nodes fun words => ?_
  refine Plants.lift _ fun s => ?_
  refine Plants.ite (fun _ => h words) fun _ => Plants.ite (fun _ => ?_) fun _ =>
    Plants.ite (fun _ => ?_) fun _ => ?_
  · refine plants_advance.node fun name => ?_
    refine plants_parameterList.node fun parameters => ?_
    exact plants_body.nodes fun rest => plants_group (by simp) (by simp)
  · refine plants_type.node fun declared => ?_
    refine (plants_expect _).node fun name => ?_
    simpa using plants_memberTail (words ++ [declared]) name
  · exact (plants_expect _).node fun name => plants_group (by simp) (by simp)

end Types

theorem plants_baseList : Plants Parser.baseList baseList d [] AreNodes := by
  refine Plants.lift _ fun colon => ?_
  refine Plants.ite (fun _ => ?_) fun _ => plants_nil
  refine plants_advance.node fun colon => ?_
  refine (plants_commaSeparated plants_type.single).nodes fun bases => ?_
  exact plants_pure ⟨by simp, by simp⟩

theorem plants_typeItem {depth : Nat} (h : ∀ words : List (Node Nat),
    Plants (Parser.typeDeclarationNested depth (words.map Node.erase))
      (typeDeclarationNested depth (words.map Node.tag)) 0 words IsNode) :
    Plants (ListLoop.typeBody depth).item (listItem (.typeBody depth)) 0 [] IsNode := by
  refine Plants.lift _ fun s => ?_
  exact Plants.ite (fun _ => plants_member h) fun _ => plants_skip _

/-- A class takes up its modifiers. -/
theorem plants_typeDeclarationNested (depth : Nat) (words : List (Node Nat)) :
    Plants (Parser.typeDeclarationNested depth (words.map Node.erase))
      (typeDeclarationNested depth (words.map Node.tag)) 0 words IsNode := by
  induction depth generalizing words with
  | zero =>
    refine Plants.lift _ fun _ => ?_
    exact plants_advance.node fun keyword => plants_group (by simp) (by simp)
  | succ depth ih =>
    rw [ListLoop.typeDeclarationNested_eq]
    refine Plants.lift _ fun s => ?_
    refine plants_advance.node fun keyword => ?_
    refine (plants_expect _).node fun name => ?_
    refine plants_baseList.nodes fun bases => ?_
    refine (plants_expect _).node fun opening => ?_
    refine (plants_list (plants_typeItem ih)).nodes fun members => ?_
    exact (plants_expect _).node fun closing => plants_group (by simp) (by simp)

theorem plants_typeDeclaration : Plants Parser.typeDeclaration typeDeclaration 0 [] IsNode := by
  refine plants_modifiers.nodes fun words => ?_
  exact Plants.lift _ fun s => plants_typeDeclarationNested _ words

theorem plants_usingDirective : Plants Parser.usingDirective usingDirective d [] IsNode := by
  refine plants_advance.node fun keyword => ?_
  refine (plants_accept _).nodes fun static => ?_
  refine Plants.lift _ fun s => ?_
  refine Plants.ite (fun _ => ?_) fun _ => plants_nil.nodes fun shortName => ?_
  · refine plants_advance.node fun name => ?_
    refine plants_advance.node fun equals => ?_
    rw [pure_bind, pure_bind]
    refine plants_type.node fun target => ?_
    exact (plants_expect _).node fun semicolon => plants_group (by simp) (by simp)
  · refine plants_type.node fun target => ?_
    exact (plants_expect _).node fun semicolon => plants_group (by simp) (by simp)

theorem plants_namespaceMember {nested : Parser Green} {nested' : ArenaParser Nat}
    (h : Plants nested nested' 0 [] IsNode) :
    Plants (Parser.namespaceMember nested) (namespaceMember nested') 0 [] IsNode := by
  refine Plants.lift _ fun s => ?_
  split
  case h_1 hk =>
    rw [if_pos hk]
    exact plants_usingDirective
  case h_2 hk =>
    simp only [hk, reduceCtorEq, ↓reduceIte]
    exact h
  case h_3 h₁ h₂ =>
    rw [if_neg h₁, if_neg h₂]
    exact Plants.ite (fun _ => plants_typeDeclaration) fun _ => plants_skip _

theorem plants_namespaceNested (depth : Nat) :
    Plants (Parser.namespaceNested depth) (namespaceNested depth) 0 [] IsNode := by
  induction depth with
  | zero => exact plants_skip _
  | succ depth ih =>
    rw [ListLoop.namespaceNested_eq]
    refine plants_advance.node fun keyword => ?_
    refine plants_type.node fun name => ?_
    refine Plants.lift _ fun semicolon => ?_
    refine Plants.ite (fun _ => ?_) fun _ => ?_
    · refine plants_advance.node fun semicolon => ?_
      refine Plants.nodes (plants_list (l := .namespaceFile depth) ?_) fun items => ?_
      · exact plants_namespaceMember ih
      · exact plants_group (by simp) (by simp)
    · refine (plants_expect _).node fun opening => ?_
      refine Plants.nodes (plants_list (l := .namespaceBody depth) ?_) fun items => ?_
      · exact plants_namespaceMember ih
      · exact (plants_expect _).node fun closing => plants_group (by simp) (by simp)

theorem plants_topLevelItem : Plants Parser.topLevelItem topLevelItem 0 [] IsNode := by
  refine Plants.lift _ fun s => ?_
  split
  case h_1 hk =>
    rw [if_pos hk]
    exact plants_usingDirective
  case h_2 hk =>
    simp only [hk, reduceCtorEq, ↓reduceIte]
    exact Plants.lift _ fun s => plants_namespaceNested _
  case h_3 h₁ h₂ =>
    rw [if_neg h₁, if_neg h₂]
    refine Plants.ite (fun _ => plants_typeDeclaration) fun _ => ?_
    exact Plants.ite (fun _ => plants_statement all_levels) fun _ => plants_skip _

/-- A file fills the arena with one tree. -/
theorem plants_compilationUnit : Plants Parser.compilationUnit compilationUnit 0 [] IsNode := by
  rw [ListLoop.compilationUnit_eq]
  refine (plants_list (l := .file) plants_topLevelItem).nodes fun items => ?_
  exact plants_advance.node fun last => plants_group (by simp) (by simp)

end NullLint.ArenaParser
