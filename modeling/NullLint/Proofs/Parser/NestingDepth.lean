import NullLint.Proofs.Parser.Shapes
import NullLint.Proofs.Expression.RoundTrip

/-!
# How deep a parsed tree can get

Statements, expressions and type arguments nest only as deep as the parser goes, whatever the
source. Namespaces and types count towards no limit: a file of namespaces, one in the other, is
parsed without an error, and its tree is as deep as there are namespaces.
-/

namespace NullLint

open Canonical Lookahead

/-- Declarations that hold declarations. -/
def Kind.isDeclaring : Kind → Bool
  | .namespaceDeclaration | .classDeclaration | .structDeclaration => true
  | _ => false

/-! ## Namespaces in namespaces -/

namespace Canonical

/-- A namespace of the name `x` with the given members. -/
def namespaceTree (x : Name) (members : List Green) : Green :=
  .group .namespaceDeclaration (mark .namespaceKeyword ::
    .group .predefinedOrNamedType [x.leaf] :: mark .openBrace :: members ++ [mark .closeBrace])

/-- Namespaces of the name `x`, each with just the next one in it, if there is one. -/
def nestedNamespaces (x : Name) : Nat → List Green
  | 0 => []
  | n + 1 => [namespaceTree x (nestedNamespaces x n)]

theorem spaced_namespaceTree (x : Name) (members : List Green) :
    (namespaceTree x members).spaced = Green.group .namespaceDeclaration
      (Green.leaf (spacedMark .namespaceKeyword) ::
        Green.group .predefinedOrNamedType [x.leaf.spaced] ::
          Green.leaf (spacedMark .openBrace) :: members.map Node.spaced ++
            [Green.leaf (spacedMark .closeBrace)]) := by
  simp [namespaceTree]

/-- The tokens of the namespaces, as they are written. -/
def namespaceTokens (x : Name) (n : Nat) : List Token :=
  (nestedNamespaces x n).flatMap fun t => t.spaced.tokens

variable (x : Name)

theorem namespaceTokens_succ (n : Nat) :
    namespaceTokens x (n + 1) = spacedMark .namespaceKeyword :: (x.leaf.spaced.tokens ++
      (spacedMark .openBrace :: (namespaceTokens x n ++ [spacedMark .closeBrace]))) := by
  simp [namespaceTokens, nestedNamespaces, namespaceTree, List.flatMap_map]

theorem le_length_namespaceTokens (n : Nat) : n ≤ (namespaceTokens x n).length := by
  induction n with
  | zero => simp
  | succ n ih =>
    rw [namespaceTokens_succ]
    simp only [List.length_cons, List.length_append]
    omega

theorem writes_nestedNamespaces (n : Nat) :
    Writes ((nestedNamespaces x n).flatMap Node.tokens) := by
  induction n with
  | zero => exact writes_nil
  | succ n ih =>
    have hopening := (writes_mark (k := .namespaceKeyword) rfl).append
      ((writes_name x).append (writes_mark (k := .openBrace) rfl))
    have hall := hopening.append (ih.append (writes_mark (k := .closeBrace) rfl))
    simpa [nestedNamespaces, namespaceTree] using hall

/-- The text of the namespaces. -/
def namespaceText (x : Name) (n : Nat) : String :=
  written ((nestedNamespaces x n).flatMap Node.tokens)

example : namespaceText ⟨"a", rfl, rfl⟩ 2 = "namespace a \x7b namespace a \x7b \x7d \x7d " := by
  decide +kernel

theorem lexes_namespaceText (n : Nat) :
    Lexer.Lexes (namespaceText x n).toList (namespaceTokens x n ++ [bare .endOfFile ""]) := by
  have hlexes := writes_nestedNamespaces x n _ _ Lexer.lexes_nil
  have htokens : ((nestedNamespaces x n).flatMap Node.tokens).map Token.spaced =
      namespaceTokens x n := by
    simp only [namespaceTokens, Node.tokens_spaced, List.map_flatMap]
  rw [List.append_nil, htokens] at hlexes
  exact hlexes

end Canonical

namespace Parser

variable (x : Name)

/-- A namespace is read if its members are. -/
theorem gives_namespaceNested {n depth : Nat} {rest : List Token}
    (h : Gives (collectWhile (fun s => !endsList s)
        (element .namespaceMemberExpected (namespaceMember (namespaceNested depth))))
      (namespaceTokens x n) ((nestedNamespaces x n).map Node.spaced)
      (spacedMark .closeBrace :: rest)) :
    (namespaceNested (depth + 1)).Gives (namespaceTokens x (n + 1))
      (namespaceTree x (nestedNamespaces x n)).spaced rest := by
  have hnested : namespaceNested (depth + 1) = namespaceWith (namespaceNested depth) := rfl
  rw [hnested, namespaceTokens_succ, spaced_namespaceTree]
  apply gives_advance_bind
  apply Gives.bind
  · exact gives_type x rfl
  · apply gives_sees
    apply gives_expect_bind rfl
    exact h.bind (gives_expect rfl rest).map

/-- The namespaces are read as the members between the braces of another one. -/
theorem gives_namespaceMembers {n depth : Nat} (h : n ≤ depth) (rest : List Token) :
    Gives (collectWhile (fun s => !endsList s)
        (element .namespaceMemberExpected (namespaceMember (namespaceNested depth))))
      (namespaceTokens x n) ((nestedNamespaces x n).map Node.spaced)
      (spacedMark .closeBrace :: rest) := by
  let goesOn (k : Kind) : Bool := !(k == .closeBrace || k == .endOfFile)
  have hstop (depth : Nat) (rest : List Token) : Gives (collectWhile (fun s => !endsList s)
      (element .namespaceMemberExpected (namespaceMember (namespaceNested depth))))
      [] [] (spacedMark .closeBrace :: rest) :=
    gives_collectWhile_stop (q := goesOn) rfl
  induction n generalizing depth rest with
  | zero => exact hstop depth rest
  | succ n ih =>
    obtain ⟨depth, rfl⟩ : ∃ d, depth = d + 1 := ⟨depth - 1, by omega⟩
    have hle : n ≤ depth := by omega
    have hnested := gives_namespaceNested x (ih hle (spacedMark .closeBrace :: rest))
    have htokens := namespaceTokens_succ x n
    have hmember : (namespaceMember (namespaceNested (depth + 1))).Gives (namespaceTokens x (n + 1))
        (namespaceTree x (nestedNamespaces x n)).spaced (spacedMark .closeBrace :: rest) := by
      rw [htokens] at hnested ⊢
      apply gives_get
      intro s _ hk
      rw [hk]
      exact hnested
    have helement := gives_element .namespaceMemberExpected hmember (by simp [htokens])
    have hloop := gives_collectWhile_step (q := goesOn) helement (by simp [htokens])
      (by rw [htokens]; rfl) (hstop (depth + 1) rest)
    rw [List.append_nil] at hloop
    exact hloop

/-- The namespaces are read as the only item of a file. -/
theorem gives_nestedNamespaces (n : Nat) :
    compilationUnit.Gives (namespaceTokens x (n + 1) ++ [bare .endOfFile ""])
      (.group .compilationUnit
        [(namespaceTree x (nestedNamespaces x n)).spaced, .leaf (bare .endOfFile "")]) [] := by
  have htokens := namespaceTokens_succ x n
  refine gives_file ?_ (by simp [htokens]) (by rw [htokens]; rfl)
  have hitem (depth : Nat) (h : n < depth) : (namespaceNested depth).Gives
      (namespaceTokens x (n + 1)) (namespaceTree x (nestedNamespaces x n)).spaced
      [bare .endOfFile ""] := by
    obtain ⟨depth, rfl⟩ : ∃ d, depth = d + 1 := ⟨depth - 1, by omega⟩
    exact gives_namespaceNested x (gives_namespaceMembers x (by omega) _)
  rw [htokens]
  apply gives_get
  intro s _ hk
  rw [hk]
  rw [← htokens]
  -- Every namespace has tokens, so there are lexemes enough to go down to the last one.
  apply gives_get
  intro s hs _
  apply hitem
  rw [← s.length_tokens, hs, List.length_append]
  exact Nat.lt_add_right _ (le_length_namespaceTokens x (n + 1))

end Parser

/-! ## Paths -/

/-- The children of a placed node are placed children of the green node. -/
theorem exists_child_of_erase {p : Placed} {k : Kind} {gs : List Green} {g : Green}
    (h : p.erase = .branch () k gs) (hg : g ∈ gs) : ∃ c ∈ p.children, c.erase = g := by
  cases p with
  | token => cases h
  | branch a l cs =>
    rw [Node.erase_branch, Node.branch.injEq] at h
    exact List.mem_map.1 (h.2.2 ▸ hg)

/-- Below a node that has the namespaces as children a path leads through all of them. -/
theorem exists_path_namespaces (x : Canonical.Name) (n : Nat) {p : Placed} (above : List Placed)
    (h : ∀ t ∈ nestedNamespaces x n, ∃ c ∈ p.children, c.erase = t.spaced) :
    ∃ m path, Node.Descends p above (m :: path) ∧
      (m :: path).countP (fun m => m.kind.isDeclaring) =
        (p :: above).countP (fun m => m.kind.isDeclaring) + n := by
  induction n generalizing p above with
  | zero => exact ⟨p, above, .here p above, rfl⟩
  | succ n ih =>
    obtain ⟨c, hc, herase⟩ := h _ (List.mem_singleton_self _)
    rw [spaced_namespaceTree] at herase
    have hkind : c.kind = .namespaceDeclaration := by
      rw [← Node.kind_map (fun _ => ()) c]
      exact congrArg Node.kind herase
    have hmembers : ∀ t ∈ nestedNamespaces x n, ∃ d ∈ c.children, d.erase = t.spaced := by
      intro t ht
      refine exists_child_of_erase herase ?_
      simp only [List.cons_append, List.mem_cons, List.mem_append]
      exact .inr (.inr (.inr (.inl (List.mem_map_of_mem ht))))
    obtain ⟨m, path, hpath, hcount⟩ := ih (p :: above) hmembers
    refine ⟨m, path, .down hc hpath, ?_⟩
    have hdeclaring : Kind.namespaceDeclaration.isDeclaring = true := rfl
    rw [hcount]
    simp only [List.countP_cons, hkind, hdeclaring, if_true]
    omega

/-- In the file of some namespaces, one in the other, a path leads through all of them. -/
theorem exists_path_namespaceText (x : Canonical.Name) (file : String) (n : Nat) :
    (parse file (namespaceText x (n + 1))).errors = [] ∧
      ∃ id path, (parse file (namespaceText x (n + 1))).tree.path? id = some path ∧
        path.countP (fun m => m.kind.isDeclaring) = n + 1 := by
  obtain ⟨herrors, hroot⟩ := parse_eq_of_gives (lexes_namespaceText x (n + 1))
    (Parser.gives_nestedNamespaces x n) file
  refine ⟨herrors, ?_⟩
  generalize (parse file (namespaceText x (n + 1))).tree = t at hroot
  have hplaced : t.placed = t.root.map Node.placed := rfl
  rw [hroot, Option.map_some] at hplaced
  have herase := Node.erase_placed (.group .compilationUnit
    [(namespaceTree x (nestedNamespaces x n)).spaced, .leaf (bare .endOfFile "")])
  have hnumbered := Node.numbered_placed (Green.group .compilationUnit
    [(namespaceTree x (nestedNamespaces x n)).spaced, .leaf (bare .endOfFile "")])
  generalize Node.placed _ = root at hplaced herase hnumbered
  have hkind : root.kind = .compilationUnit := by
    rw [← Node.kind_map (fun _ => ()) root]
    exact congrArg Node.kind herase
  have hmembers : ∀ t ∈ nestedNamespaces x (n + 1),
      ∃ c ∈ root.children, c.erase = t.spaced := by
    intro t ht
    obtain rfl := List.mem_singleton.1 ht
    exact exists_child_of_erase herase (by simp)
  obtain ⟨m, path, hpath, hcount⟩ := exists_path_namespaces x (n + 1) [] hmembers
  refine ⟨m.id, m :: path, Tree.path?_of_descends hplaced hnumbered hpath, ?_⟩
  have hfile : Kind.compilationUnit.isDeclaring = false := rfl
  simpa [List.countP_cons, hkind, hfile] using hcount

/-- On every path of a parsed tree, whatever the source, statements, expressions and argument lists
nest only as deep as the parser goes. Declarations do not: on some path of some file without errors
there are as many as one likes. -/
theorem nesting_on_paths (file : String) :
    (∀ text id path, (parse file text).tree.path? id = some path →
      path.countP (fun m => m.kind.isNesting) ≤ 2 * maxParseDepth + 2) ∧
    ∀ n, ∃ text id path, (parse file text).errors = [] ∧
      (parse file text).tree.path? id = some path ∧
      path.countP (fun m => m.kind.isDeclaring) = n + 1 := by
  constructor
  · intro text id path hpath
    obtain ⟨root, hroot, hnumbered, hwf, hshaped⟩ := shaped_parse file text
    rw [Tree.path?, hroot, Option.bind_some] at hpath
    have hcount := hshaped.countP_le hwf (Node.descends_of_path? hnumbered hpath)
    rw [List.countP_nil, Nat.zero_add] at hcount
    unfold Parser.nestingBound at hcount
    omega
  · intro n
    obtain ⟨herrors, id, path, hpath, hcount⟩ := exists_path_namespaceText ⟨"a", rfl, rfl⟩ file n
    exact ⟨_, id, path, herrors, hpath, hcount⟩

/-- In a file of namespaces, one in the other, one more than four times the depth to which statements
and expressions may nest, a path leads through more phrases that are parsed by recursion than four
times this depth. -/
theorem namespaces_nest_deeper :
    let text := namespaceText ⟨"a", rfl, rfl⟩ (4 * maxParseDepth + 1)
    ∃ id path, (parse "" text).tree.path? id = some path ∧
      ¬path.countP (fun m => m.kind.isDeclaring || m.kind.isNesting) ≤ 4 * maxParseDepth := by
  intro text
  obtain ⟨-, id, path, hpath, hcount⟩ :=
    exists_path_namespaceText ⟨"a", rfl, rfl⟩ "" (4 * maxParseDepth)
  refine ⟨id, path, hpath, fun hle => ?_⟩
  have hmono := List.countP_mono_left (l := path) (p := fun m => m.kind.isDeclaring)
    (q := fun m => m.kind.isDeclaring || m.kind.isNesting) fun m _ hm => by simp [hm]
  omega

end NullLint
