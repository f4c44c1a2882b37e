import NullLint.Proofs.LosslessParsing
import NullLint.Proofs.Lexer.Tokens
import NullLint.Proofs.Syntax.Substitution

/-!
# Trees made by parsing and editing

The trees that come from parsed files by cutting out, replacing and carrying trivia over
(`Tree.Derived`). Each of them has a root, in which just the tokens have kinds of tokens and the
marks of null operators are not empty. Replacing nodes of such a tree by such fragments is
substitution.
-/

namespace NullLint

/-- A token of the kind of a token; if it is the mark of a null operator, it has a text. -/
structure Token.WellFormed (t : Token) : Prop where
  isToken : t.kind.isToken = true
  mark : t.kind = .question ∨ t.kind = .exclamation → t.text ≠ ""

namespace Node

variable {α β : Type}

/-- Branches have kinds of nodes, and tokens are well-formed. -/
inductive WellFormed : Node α → Prop where
  | token {a : α} {t : Token} (h : t.WellFormed) : WellFormed (.token a t)
  | branch {a : α} {k : Kind} {cs : List (Node α)} (hk : k.isNode = true)
      (hcs : ∀ c ∈ cs, WellFormed c) : WellFormed (.branch a k cs)

theorem wellFormed_token {a : α} {t : Token} : (token a t).WellFormed ↔ t.WellFormed :=
  ⟨fun | .token h => h, .token⟩

theorem wellFormed_branch {a : α} {k : Kind} {cs : List (Node α)} :
    (branch a k cs).WellFormed ↔ k.isNode = true ∧ ∀ c ∈ cs, c.WellFormed :=
  ⟨fun | .branch hk hcs => ⟨hk, hcs⟩, fun h => .branch h.1 h.2⟩

theorem wellFormed_of_tokens {n : Node α} (hkinds : n.BranchKinds)
    (htokens : ∀ t ∈ n.tokens, t.WellFormed) : n.WellFormed := by
  induction n with
  | token a t => exact .token (htokens t (by simp))
  | branch a k cs ih =>
    obtain ⟨hk, hcs⟩ := branchKinds_branch.1 hkinds
    refine .branch hk fun c hc => ih c hc (hcs c hc) fun t ht => htokens t ?_
    exact tokens_branch a k cs ▸ List.mem_flatMap.2 ⟨c, hc, ht⟩

/-- In a well-formed tree just the tokens have kinds of tokens. -/
theorem WellFormed.token?_iff_isToken {n : Node α} (h : n.WellFormed) :
    (∃ token, n.token? = some token) ↔ n.kind.isToken = true := by
  cases h with
  | @token a token htoken => exact iff_of_true ⟨token, rfl⟩ htoken.isToken
  | @branch a k cs hk hcs =>
    refine iff_of_false (by rintro ⟨token, htoken⟩; cases htoken) ?_
    rw [Node.kind_branch, Kind.isToken_eq_not_isNode, hk]
    decide

theorem WellFormed.of_mem {m n : Node α} (h : n.WellFormed) (hm : m ∈ n.preorder) :
    m.WellFormed := by
  induction h with
  | token h =>
    rw [preorder_token, List.mem_singleton] at hm
    exact hm ▸ .token h
  | branch hk hcs ih =>
    rcases mem_preorder_branch.1 hm with rfl | ⟨c, hc, hm⟩
    · exact .branch hk hcs
    · exact ih c hc hm

@[simp] theorem wellFormed_map (f : α → β) (n : Node α) :
    (n.map f).WellFormed ↔ n.WellFormed := by
  induction n with
  | token a t => simp [map, wellFormed_token]
  | branch a k cs ih =>
    rw [map_branch, wellFormed_branch, wellFormed_branch, List.forall_mem_map]
    exact and_congr_right fun _ => forall₂_congr ih

@[simp] theorem wellFormed_erase (n : Node α) : n.erase.WellFormed ↔ n.WellFormed :=
  wellFormed_map _ n

@[simp] theorem wellFormed_placed (n : Green) : n.placed.WellFormed ↔ n.WellFormed := by
  rw [← wellFormed_erase, erase_placed]

theorem WellFormed.substitute {σ : Nat → Option Green} {n : Placed} (h : n.WellFormed)
    (hσ : ∀ id g, σ id = some g → g.WellFormed) : (n.substitute σ).WellFormed := by
  induction n using replacing_induction σ with
  | replaced n g hg => exact substitute_of_eq_some hg ▸ hσ _ g hg
  | token a t hnone => exact substitute_token hnone ▸ .token (wellFormed_token.1 h)
  | branch a k cs hnone ih =>
    obtain ⟨hk, hcs⟩ := wellFormed_branch.1 h
    rw [substitute_branch hnone]
    refine .branch hk fun d hd => ?_
    obtain ⟨c, hc, rfl⟩ := List.mem_map.1 hd
    exact ih c hc (hcs c hc)

end Node

namespace Tree

/-! ## Outer trivia -/

/-- The change leaves kind and text of a token as they are. -/
def KeepsText (f : Token → Token) : Prop := ∀ t, (f t).kind = t.kind ∧ (f t).text = t.text

theorem KeepsText.wellFormed {f : Token → Token} (hf : KeepsText f) {t : Token}
    (h : t.WellFormed) : (f t).WellFormed := by
  obtain ⟨hkind, htext⟩ := hf t
  exact ⟨hkind ▸ h.isToken, by rw [hkind, htext]; exact h.mark⟩

theorem wellFormed_updateFirst {f : Token → Token} (hf : KeepsText f) {n : Green}
    (h : n.WellFormed) : (updateFirst f n).WellFormed := by
  fun_induction updateFirst f n with
  | case1 a t => exact .token (hf.wellFormed (Node.wellFormed_token.1 h))
  | case2 a k => exact .branch (Node.wellFormed_branch.1 h).1 (by simp)
  | case3 a k c cs ih =>
    obtain ⟨hk, hcs⟩ := Node.wellFormed_branch.1 h
    refine .branch hk fun d hd => ?_
    rcases List.mem_cons.1 hd with rfl | hd
    · exact ih (hcs c (by simp))
    · exact hcs d (by simp [hd])

mutual

theorem wellFormed_updateLast {f : Token → Token} (hf : KeepsText f) (n : Green)
    (h : n.WellFormed) : (updateLast f n).WellFormed := by
  cases n with
  | token a t => exact .token (hf.wellFormed (Node.wellFormed_token.1 h))
  | branch a k cs =>
    obtain ⟨hk, hcs⟩ := Node.wellFormed_branch.1 h
    exact .branch hk (wellFormed_updateLastIn hf cs hcs)

theorem wellFormed_updateLastIn {f : Token → Token} (hf : KeepsText f) (cs : List Green)
    (h : ∀ c ∈ cs, c.WellFormed) : ∀ c ∈ updateLastIn f cs, c.WellFormed := by
  match cs with
  | [] => simp [updateLastIn]
  | [c] => simpa [updateLastIn] using wellFormed_updateLast hf c (h c (by simp))
  | c :: d :: cs =>
    simp only [updateLastIn, List.forall_mem_cons]
    exact ⟨h c (by simp), wellFormed_updateLastIn hf (d :: cs) fun e he => h e (by simp [he])⟩

end

theorem updateLastIn_concat (f : Token → Token) (cs : List Green) (c : Green) :
    updateLastIn f (cs ++ [c]) = cs ++ [updateLast f c] := by
  induction cs with
  | nil => rfl
  | cons d cs ih =>
    cases cs with
    | nil => rfl
    | cons e cs => exact congrArg (d :: ·) ih

theorem updateLast_group (f : Token → Token) (k : Kind) (cs : List Green) (c : Green) :
    updateLast f (.group k (cs ++ [c])) = .group k (cs ++ [updateLast f c]) := by
  rw [updateLast, updateLastIn_concat]

theorem root_withTriviaOf {t : Tree} {root : Green} (hroot : t.root = some root)
    (h : root.WellFormed) (node : Option Placed) :
    ∃ root', (t.withTriviaOf node).root = some root' ∧ root'.WellFormed := by
  obtain ⟨file, _⟩ := t
  subst hroot
  refine ⟨_, rfl, wellFormed_updateLast ?_ _ (wellFormed_updateFirst ?_ h)⟩
  · exact fun _ => ⟨rfl, rfl⟩
  · exact fun _ => ⟨rfl, rfl⟩

/-! ## Numbers -/

theorem nodes_of_placed {t : Tree} {root : Placed} (h : t.placed = some root) :
    t.nodes = root.preorder := by
  simp [nodes, h]

theorem ids_nodes (t : Tree) : t.nodes.map Node.id = List.range t.size := by
  cases hroot : t.root with
  | none => simp [size, nodes, placed, hroot]
  | some g =>
    have hnodes : t.nodes = g.placed.preorder := nodes_of_placed (by simp [placed, hroot])
    have hlen := congrArg List.length g.ids_placed
    rw [List.length_map, List.length_range] at hlen
    rw [size, hnodes, hlen]
    exact g.ids_placed

/-- The number of a node is its position among the nodes. -/
theorem node?_eq_some_iff {t : Tree} {id : Nat} {n : Placed} :
    t.node? id = some n ↔ n ∈ t.nodes ∧ n.id = id := by
  have hposition {i : Nat} (hi : t.nodes[i]? = some n) : n.id = i := by
    have hids := congrArg (·[i]?) t.ids_nodes
    simp only [List.getElem?_map, hi, Option.map_some] at hids
    obtain ⟨hlt, hi⟩ := List.getElem?_eq_some_iff.1 hids.symm
    simpa using hi.symm
  constructor
  · intro hn
    exact ⟨List.mem_of_getElem? hn, hposition hn⟩
  · rintro ⟨hn, rfl⟩
    obtain ⟨i, hi⟩ := List.mem_iff_getElem?.1 hn
    exact hposition hi ▸ hi

theorem eq_of_id_eq {t : Tree} {m n : Placed} (hm : m ∈ t.nodes) (hn : n ∈ t.nodes)
    (h : m.id = n.id) : m = n := by
  have hnode := node?_eq_some_iff.2 ⟨hm, h⟩
  rw [node?_eq_some_iff.2 ⟨hn, rfl⟩] at hnode
  exact (Option.some.inj hnode).symm

theorem lt_size_iff {t : Tree} {id : Nat} : id < t.size ↔ ∃ n ∈ t.nodes, n.id = id := by
  rw [← List.mem_range, ← ids_nodes, List.mem_map]

/-! ## Derived trees -/

/-- Trees that come from parsed files by edits. -/
inductive Derived : Tree → Prop where
  | parse (file text : String) : Derived (parse file text).tree
  | extract {t fragment : Tree} {id : Nat} (ht : Derived t) (h : t.extract id = some fragment) :
      Derived fragment
  | replaceMany {t result : Tree} {edits : List (Nat × Tree)} (ht : Derived t)
      (hedits : ∀ e ∈ edits, Derived e.2) (h : t.replaceMany edits = some result) :
      Derived result
  | withTriviaOf {t source : Tree} (ht : Derived t) (hsource : Derived source) (id : Nat) :
      Derived (t.withTriviaOf (source.node? id))

theorem Derived.replace {t fragment result : Tree} {id : Nat} (ht : Derived t)
    (hfragment : Derived fragment) (h : t.replace id fragment = some result) : Derived result :=
  .replaceMany ht (by simpa using hfragment) h

theorem wellFormed_of_mem_fills {ts : List Token} {ls : List Lexeme} (h : Fills ts ls)
    (hls : ∀ l ∈ ls, l.token.WellFormed) : ∀ t ∈ ts, t.WellFormed := by
  induction h with
  | nil => simp
  | read l _ ih =>
    exact List.forall_mem_cons.2 ⟨hls l (by simp), ih fun m hm => hls m (by simp [hm])⟩
  | absent k hk _ ih =>
    refine List.forall_mem_cons.2 ⟨⟨?_, ?_⟩, ih hls⟩
    · revert hk
      cases k <;> decide
    · rintro (rfl | rfl) <;> cases hk

/-- Parsing gives a well-formed tree, whatever the text. -/
theorem wellFormed_compilationUnit (text : String) :
    (Parser.compilationUnit (.ofText text)).1.WellFormed := by
  have hends : Parser.EndsOnce (ParseState.ofText text).rest :=
    Lexer.endsOnce_lexFrom true 0 text.toList
  obtain ⟨⟨hkinds, -⟩, -⟩ := Parser.reads_compilationUnit hends
  refine Node.wellFormed_of_tokens (by simpa using hkinds) ?_
  refine wellFormed_of_mem_fills (fills_parse text) fun l hl => ⟨?_, fun hmark => ?_⟩
  · exact Lexer.isToken_lexFrom true 0 text.toList l hl
  · refine Lexer.text_ne_lexFrom true 0 text.toList l hl fun hend => ?_
    have hkind : l.token.kind = .endOfFile := hend
    simp [hkind] at hmark

theorem root_replaceMany {t result : Tree} {root : Green} {edits : List (Nat × Tree)}
    (hroot : t.root = some root) (hwf : root.WellFormed)
    (hedits : ∀ e ∈ edits, ∃ g, e.2.root = some g ∧ g.WellFormed)
    (h : t.replaceMany edits = some result) :
    ∃ root', result.root = some root' ∧ root'.WellFormed := by
  have hplaced : t.placed = some root.placed := by simp [placed, hroot]
  have hsome : ∀ e ∈ edits, e.2.root.isSome = true := by
    intro e he
    obtain ⟨g, hg, -⟩ := hedits e he
    simp [hg]
  obtain rfl := eq_of_replaceMany hplaced hsome h
  refine ⟨_, rfl, ((Node.wellFormed_placed root).2 hwf).substitute fun id g hg => ?_⟩
  obtain ⟨e, he, -, hg⟩ := exists_edit_of_lastFragment? hg
  obtain ⟨g', hg', hwf'⟩ := hedits e he
  rw [hg'] at hg
  cases hg
  exact hwf'

/-- Every derived tree has a well-formed root. -/
theorem Derived.root {t : Tree} (h : t.Derived) : ∃ root, t.root = some root ∧ root.WellFormed := by
  induction h with
  | parse file text => exact ⟨_, root_parse file text, wellFormed_compilationUnit text⟩
  | extract ht h ih =>
    obtain ⟨root, hroot, hwf⟩ := ih
    obtain ⟨n, hn, rfl⟩ := Option.map_eq_some_iff.1 h
    have hmem := (node?_eq_some_iff.1 hn).1
    rw [nodes_of_placed (by rw [placed, hroot]; rfl)] at hmem
    refine ⟨_, rfl, ?_⟩
    rw [Node.wellFormed_erase]
    exact ((Node.wellFormed_placed root).2 hwf).of_mem hmem
  | replaceMany ht hedits h ih ihedits =>
    obtain ⟨root, hroot, hwf⟩ := ih
    exact root_replaceMany hroot hwf ihedits h
  | withTriviaOf ht hsource id ih =>
    obtain ⟨root, hroot, hwf⟩ := ih
    exact root_withTriviaOf hroot hwf _

/-! ## Edits of derived trees -/

theorem lastFragment?_singleton (id id' : Nat) (fragment : Tree) :
    lastFragment? [(id, fragment)] id' = if id = id' then fragment.root else none := by
  by_cases h : id = id' <;> simp [lastFragment?, h]

/-- Putting a copy of a node in its place gives the tree back. -/
theorem replace_extract {t : Tree} {root : Green} (hroot : t.root = some root) {n : Placed}
    (hn : n ∈ t.nodes) :
    ∃ fragment, t.extract n.id = some fragment ∧ t.replace n.id fragment = some t := by
  have hplaced : t.placed = some root.placed := by simp [placed, hroot]
  have hnode : t.node? n.id = some n := node?_eq_some_iff.2 ⟨hn, rfl⟩
  refine ⟨⟨t.file, some n.erase⟩, by simp [extract, hnode], ?_⟩
  have hlt : n.id < t.size := lt_size_iff.2 ⟨n, hn, rfl⟩
  have hself : root.placed.substitute (lastFragment? [(n.id, ⟨t.file, some n.erase⟩)]) = root := by
    rw [Node.substitute_self, Node.erase_placed]
    intro m hm g hg
    rw [lastFragment?_singleton] at hg
    split at hg
    · rename_i hid
      rw [← nodes_of_placed hplaced] at hm
      obtain rfl := eq_of_id_eq hn hm hid
      exact (Option.some.inj hg).symm
    · cases hg
  rw [replace, replaceMany_eq hplaced (by simp) (by simpa using hlt), hself, ← hroot]

/-- An edit of a derived tree is substitution: it fails just if a target is no node of the tree, the
last edit of a node counts, an outer edit hides those below it, and nothing is replaced inside a
fragment. Putting a copy of a node in its place changes nothing. -/
theorem replaceMany_is_substitution {t : Tree} {edits : List (Nat × Tree)} (ht : t.Derived)
    (hedits : ∀ e ∈ edits, e.2.Derived) :
    (t.replaceMany edits = none ↔ ∃ e ∈ edits, ∀ n ∈ t.nodes, n.id ≠ e.1) ∧
      (∀ result, t.replaceMany edits = some result → ∃ root, t.placed = some root ∧
        result = ⟨t.file, some (root.substitute (lastFragment? edits))⟩) ∧
      ∀ n ∈ t.nodes, ∃ fragment,
        t.extract n.id = some fragment ∧ t.replace n.id fragment = some t := by
  obtain ⟨root, hroot, -⟩ := ht.root
  have hplaced : t.placed = some root.placed := by simp [placed, hroot]
  have hsome : ∀ e ∈ edits, e.2.root.isSome = true := by
    intro e he
    obtain ⟨g, hg, -⟩ := (hedits e he).root
    simp [hg]
  refine ⟨?_, fun result h => ?_, fun n hn => replace_extract hroot hn⟩
  · rw [replaceMany_eq_none_iff]
    simp only [lt_size_iff, not_exists, not_and, ne_eq]
  · exact ⟨root.placed, hplaced, eq_of_replaceMany hplaced hsome h⟩

/-- In `a!!;` the last of two edits of the outer operator counts and hides the edit of the name. -/
theorem replaceMany_is_substitution_nested :
    let t := (parse "" "a!!;").tree
    let fragment (id : Nat) : Tree := (t.extract id).getD t
    let edits := [(4, fragment 6), (2, fragment 3), (2, fragment 4)]
    ∃ root result, t.placed = some root ∧ t.replaceMany edits = some result ∧
      result = ⟨"", some (root.substitute (lastFragment? edits))⟩ ∧ result.text = "a;" := by
  intro t fragment edits
  have hderived (id : Nat) : (fragment id).Derived := by
    cases h : t.extract id with
    | none => simpa [fragment, h] using Derived.parse "" "a!!;"
    | some u => simpa [fragment, h] using Derived.extract (.parse "" "a!!;") h
  have hall : ∀ e ∈ edits, e.2.Derived := by simp [edits, hderived]
  have htext : (t.replaceMany edits).map Tree.text = some "a;" := by decide +kernel
  obtain ⟨result, hresult, htext⟩ := Option.map_eq_some_iff.1 htext
  obtain ⟨-, hsubst, -⟩ := replaceMany_is_substitution (.parse "" "a!!;") hall
  obtain ⟨root, hroot, heq⟩ := hsubst result hresult
  exact ⟨root, result, hroot, hresult, heq, htext⟩

end Tree

end NullLint
