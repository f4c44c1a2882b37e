import NullLint.Proofs.Expression.Lexing
import NullLint.Proofs.Expression.Parsing
import NullLint.Proofs.LosslessParsing

/-!
# Writing and parsing expressions

A canonical expression that is written out behind `return` and parsed again gives its own tree, with
nothing reported, as long as it nests no deeper than the parser goes.
-/

namespace NullLint

open Canonical Lookahead

namespace Canonical

/-- The statement that returns an expression, as it is written. -/
def returning (value : Green) : Green :=
  .group .returnStatement
    [.leaf (spacedMark .returnKeyword), value.spaced, .leaf (bare .semicolon ";")]

theorem tokens_returning (value : Green) :
    (returning value).tokens =
      spacedMark .returnKeyword :: (value.spaced.tokens ++ [bare .semicolon ";"]) := by
  simp [returning]

/-- The text of a statement that returns an expression is lexed into its tokens. -/
theorem lexes_returning {depth : Nat} (e : Expression depth) :
    Lexer.Lexes ("return " ++ written e.tree.tokens ++ ";").toList
      ((returning e.tree).tokens ++ [bare .endOfFile ""]) := by
  have hscans : Lexer.Scans ";" .semicolon [] := ⟨';', [], rfl, fun _ => rfl, rfl⟩
  have hvalue := writes_expression e _ _ (Lexer.lexes_nil.glue hscans)
  have hreturn := hvalue.space (Lexer.scans_mark (k := .returnKeyword) rfl _)
  have hmark : spacedMark .returnKeyword =
      ⟨.returnKeyword, "return", [], [⟨.whitespace, " "⟩], false⟩ := rfl
  simpa [tokens_returning, Node.tokens_spaced, hmark, bare] using hreturn

end Canonical

namespace Parser

/-- A file with one item. -/
theorem gives_file {ts : List Token} {n : Green}
    (h : topLevelItem.Gives ts n [bare .endOfFile ""]) (hts : ts ≠ [])
    (hk : (kindOf ts != .endOfFile) = true) :
    compilationUnit.Gives (ts ++ [bare .endOfFile ""])
      (.group .compilationUnit [n, .leaf (bare .endOfFile "")]) [] := by
  have hitem := gives_element .namespaceMemberExpected h hts
  have hstop : Gives (collectWhile (fun s => s.kind != .endOfFile)
      (element .namespaceMemberExpected topLevelItem)) [] [] [bare .endOfFile ""] :=
    gives_collectWhile_stop (q := fun k => k != .endOfFile) rfl
  have hloop := gives_collectWhile_step (q := fun k => k != .endOfFile) hitem hts hk hstop
  rw [List.append_nil, List.append_nil] at hloop
  exact hloop.bind (gives_advance _ []).map

section Returning

variable {depth : Nat} (e : Expression depth)

theorem gives_statement {limit : Nat} (h : depth ≤ limit) (rest : List Token) :
    (statement (limit + 1)).Gives (returning e.tree).tokens (returning e.tree) rest := by
  have hparses := parses_expression h
  have hvalue : (expression limit).Accepts e.tree (bare .semicolon ";" :: rest) :=
    hparses.accepts e _ Nat.one_pos
  have hstatement : statement (limit + 1) = statementWith limit (statement limit) := rfl
  rw [hstatement, tokens_returning]
  apply gives_get
  intro s _ hk
  rw [hk]
  apply gives_advance_bind
  apply gives_get
  intro s _ hk
  have hstarts : startsExpression s.kind = true := by
    rw [hk, List.append_assoc, kindOf_append (hparses.opens e)]
    exact hparses.opens e
  rw [if_pos hstarts]
  exact Gives.bind hvalue (Gives.bind (gives_pure _ _) (gives_expect rfl rest).map)

theorem typeDeclarationAhead_returning {s : ParseState} {ts : List Token}
    (h : s.tokens = spacedMark .returnKeyword :: ts) : typeDeclarationAhead s = false := by
  simp only [ParseState.tokens, List.map_eq_cons_iff] at h
  obtain ⟨l, ls, hrest, hl, -⟩ := h
  have hk : l.kind = .returnKeyword := by rw [Lexeme.kind, hl, kind_spacedMark]
  simp [typeDeclarationAhead, hrest, hk, Kind.isModifier, kindAhead]

theorem gives_returning (h : depth < maxParseDepth) (rest : List Token) :
    topLevelItem.Gives (returning e.tree).tokens (returning e.tree) rest := by
  have hstatement := gives_statement e (Nat.le_pred_of_lt h) rest
  rw [tokens_returning] at hstatement ⊢
  apply gives_get
  intro s hs hk
  rw [hk, typeDeclarationAhead_returning hs]
  exact hstatement

theorem gives_compilationUnit (h : depth < maxParseDepth) :
    compilationUnit.Gives ((returning e.tree).tokens ++ [bare .endOfFile ""])
      (.group .compilationUnit [returning e.tree, .leaf (bare .endOfFile "")]) [] :=
  gives_file (gives_returning e h [bare .endOfFile ""]) (List.cons_ne_nil _ _) rfl

end Returning

end Parser

/-- A text that is lexed into tokens for which the parser gives a file is parsed as that file, with
nothing reported. -/
theorem parse_eq_of_gives {text : String} {ts : List Token} {n : Green}
    (hlexes : Lexer.Lexes text.toList ts) (h : Parser.compilationUnit.Gives ts n [])
    (file : String) :
    (parse file text).errors = [] ∧ (parse file text).tree.root = some n := by
  have hstate : (ParseState.ofText text).tokens = ts ++ [] := by
    rw [List.append_nil, ← hlexes.tokens true 0]
    rfl
  obtain ⟨hroot, -, herrors⟩ := h _ hstate
  constructor
  · rw [errors_parse_eq_nil, herrors, errors_ofText]
    exact hlexes.errors true 0
  · rw [root_parse, hroot]

/-- What is written for a canonical expression behind `return` is parsed without errors into one
`return` statement, whose value is the expression again. -/
theorem parse_written {depth : Nat} (h : depth < maxParseDepth) (file : String)
    (e : Expression depth) :
    let r := parse file ("return " ++ written e.tree.tokens ++ ";")
    r.errors = [] ∧ ∃ keyword value, keyword.kind = .returnKeyword ∧
      r.tree.root = some (.group .compilationUnit
        [.group .returnStatement [.leaf keyword, value, mark .semicolon], mark .endOfFile]) ∧
      value.outline = e.tree.outline := by
  intro r
  obtain ⟨herrors, hroot⟩ :=
    parse_eq_of_gives (lexes_returning e) (Parser.gives_compilationUnit e h) file
  exact ⟨herrors, spacedMark .returnKeyword, e.tree.spaced, rfl, hroot, Node.outline_spaced e.tree⟩

namespace Canonical

/-- A signed expression as an operand on every level. -/
def BinaryAbove.ofSigned {E : Type} (e : Signed E) : {levels : List Nat} → BinaryAbove E levels
  | [] => e
  | _ :: _ => LeftGrouped.operand (ofSigned e)

/-- The expression `x = a?.b(1) ?? !(a - 1)`. -/
def fallback : Expression 2 :=
  let a : Name := ⟨"a", rfl, rfl⟩
  let one : Signed (Expression 0) :=
    .operand (.primary (.literal (.integer "1" (by decide) rfl)))
  let difference : Expression 1 :=
    .operand (.operand (.operand (.operand (.operand (.operand (.join
      (.operand (.ofSigned (.operand (.primary (.name a))))) ⟨.minus, rfl⟩ (.ofSigned one)))))))
  let call : Signed (Expression 1) :=
    .operand (.call (.conditionalMember (.primary (.name a)) ⟨"b", rfl, rfl⟩)
      [.operand (.operand (.ofSigned one))])
  .join (.operand (.ofSigned (.operand (.primary (.name ⟨"x", rfl, rfl⟩)))))
    (.operand (.join (.ofSigned call)
      (.operand (.ofSigned
        (.sign ⟨.exclamation, rfl⟩ (.operand (.primary (.parenthesized difference))))))))

end Canonical

theorem parse_written_fallback :
    let r := parse "" "return x = a ?. b ( 1 ) ?? ! ( a - 1 ) ;"
    r.errors = [] ∧ ∃ keyword value, keyword.kind = .returnKeyword ∧
      r.tree.root = some (.group .compilationUnit
        [.group .returnStatement [.leaf keyword, value, mark .semicolon], mark .endOfFile]) ∧
      value.outline = fallback.tree.outline := by
  have htext : "return " ++ written fallback.tree.tokens ++ ";" =
      "return x = a ?. b ( 1 ) ?? ! ( a - 1 ) ;" := by decide +kernel
  rw [← htext]
  exact parse_written (by decide) "" fallback

end NullLint
