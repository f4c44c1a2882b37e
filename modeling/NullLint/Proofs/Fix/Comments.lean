import NullLint.Proofs.Fix.Interval
import NullLint.Proofs.Syntax.Contexts

/-!
# Comments and directives beside a removed operator

Removing a null operator changes two tokens. The mark is dropped, and the token before it takes over
the trivia behind the mark instead of its own. So what stands between them is lost, comments and
directives as well as blanks, and all else is kept in its order.
-/

namespace NullLint

/-! ## Remarks -/

namespace Trivia

/-- Comments and directives, trivia that are more than blanks. -/
def isRemark (v : Trivia) : Bool := v.isComment || v.kind == .directive

/-- The texts of the comments and directives. -/
def remarks (vs : List Trivia) : List String := (vs.filter isRemark).map Trivia.text

@[simp] theorem remarks_append (vs ws : List Trivia) :
    remarks (vs ++ ws) = remarks vs ++ remarks ws := by
  simp [remarks]

theorem remarks_eq_nil_iff {vs : List Trivia} :
    remarks vs = [] ↔ ∀ v ∈ vs, v.isRemark = false := by
  simp [remarks]

end Trivia

/-- The comments and directives that a token owns. -/
def Token.remarks (t : Token) : List String :=
  Trivia.remarks t.leading ++ Trivia.remarks t.trailing

/-- The comments and directives of a list of tokens, in order. -/
def remarks (ts : List Token) : List String := ts.flatMap Token.remarks

@[simp] theorem remarks_append (ts us : List Token) :
    remarks (ts ++ us) = remarks ts ++ remarks us :=
  List.flatMap_append

@[simp] theorem remarks_cons (t : Token) (ts : List Token) :
    remarks (t :: ts) = t.remarks ++ remarks ts :=
  List.flatMap_cons

namespace Tree

/-- The tokens of a tree, in source order. -/
def tokens (t : Tree) : List Token := (t.root.map Node.tokens).getD []

end Tree

/-! ## Tokens around a node -/

/-- The tokens of a tree with a subtree put in are those before it, its own, and those behind it. -/
theorem Frame.exists_tokens_plugAll (fs : List Frame) :
    ∃ before after, ∀ g, (plugAll fs g).tokens = before ++ (g.tokens ++ after) := by
  induction fs with
  | nil => exact ⟨[], [], fun g => by simp [plugAll]⟩
  | cons f fs ih =>
    obtain ⟨before, after, hfs⟩ := ih
    refine ⟨f.left.flatMap Node.tokens ++ before, after ++ f.right.flatMap Node.tokens, fun g => ?_⟩
    have hplug : (plugAll (f :: fs) g).tokens = f.left.flatMap Node.tokens ++
        ((plugAll fs g).tokens ++ f.right.flatMap Node.tokens) := by
      change (f.plug (plugAll fs g)).tokens = _
      simp [plug]
    simp [hplug, hfs]

namespace Tree

open Checker (operation? Operation)

variable {t result fragment : Tree} {n : Placed} {op : Operation}

/-- Replacing a node changes no token before it and none behind it. -/
theorem exists_tokens_replace {root g : Green} (hroot : t.root = some root) (hn : n ∈ t.nodes)
    (hg : fragment.root = some g) (h : t.replace n.id fragment = some result) :
    ∃ before after, t.tokens = before ++ (n.tokens ++ after) ∧
      result.tokens = before ++ (g.tokens ++ after) := by
  have hplaced : t.placed = some root.placed := by simp [placed, hroot]
  have hmem : n ∈ root.placed.preorder := nodes_of_placed hplaced ▸ hn
  have hserial := Node.serial_placed root
  obtain ⟨fs, herase, -, hsubstitute⟩ := Node.exists_frames hserial hmem
  obtain ⟨before, after, htokens⟩ := Frame.exists_tokens_plugAll fs
  refine ⟨before, after, ?_, ?_⟩
  · rw [Node.erase_placed] at herase
    have hplug := htokens n.erase
    rw [← herase, Node.erase, Node.tokens_map] at hplug
    simp [tokens, hroot, hplug]
  · have hresult := eq_of_replaceMany hplaced (by simp [hg]) h
    have hother : ∀ x ∈ root.placed.preorder, x ∉ n.preorder →
        lastFragment? [(n.id, fragment)] x.id = none := by
      intro x hx hne
      rw [lastFragment?_singleton, if_neg]
      intro hid
      obtain rfl := hserial.numbered.eq_of_id_eq hmem hx hid
      exact hne (Node.self_mem_preorder _)
    have hself : lastFragment? [(n.id, fragment)] n.id = some g := by
      rw [lastFragment?_singleton, if_pos rfl, hg]
    rw [hresult, hsubstitute _ hother, Node.substitute_of_eq_some hself]
    exact htokens g

/-- Removing a null operator drops its mark and gives the trivia behind it to the token before. -/
theorem Derived.tokens_removing (ht : t.Derived) (hn : n ∈ t.nodes)
    (hop : operation? n = some op) {last : Token} (hlast : op.operand.lastToken? = some last) :
    ∃ mark edit result before after, op.token.token? = some mark ∧
      FixEdit.removing t (some n.id) = .ok edit ∧ edit.apply t = .ok result ∧
      t.tokens = before ++ last :: mark :: after ∧
      result.tokens = before ++ { last with trailing := mark.trailing } :: after := by
  obtain ⟨root, hroot, hwf⟩ := ht.root
  have hplaced : t.placed = some root.placed := by simp [placed, hroot]
  have hmem : n ∈ root.placed.preorder := nodes_of_placed hplaced ▸ hn
  have hnode := ((Node.wellFormed_placed root).2 hwf).of_mem hmem
  obtain ⟨leaf, hleaf, -⟩ := Option.bind_eq_some_iff.1 hlast
  obtain ⟨edit, result, fragment, hedit, happly, hfragment, hreplace, -⟩ :=
    ht.apply_removing hn hop hleaf
  obtain rfl : Tree.withoutOperator t.file n = fragment := by
    simpa [removeOperator, node?_eq_some_iff.2 ⟨hn, rfl⟩] using hfragment
  obtain ⟨mark, htokens, hg⟩ := exists_operand t.file hnode hop
  have hmark : op.token.token? = some mark := by
    obtain ⟨-, hchildren, -⟩ := Checker.operation?_eq_some hop
    obtain ⟨a, k, b, mark', rfl, -⟩ := Node.eq_branch_of_operation hnode hop
    obtain rfl : mark' = mark := by simpa using htokens
    rw [← (List.cons.inj (List.cons.inj hchildren).2).1]
    rfl
  obtain ⟨before, after, hbefore, hafter⟩ := exists_tokens_replace hroot hn hg hreplace
  have herased : op.operand.erase.lastToken? = some last := (Node.lastToken?_map _ _).trans hlast
  obtain ⟨inside, hinside, hupdated⟩ :=
    tokens_updateLast (fun t => { t with trailing := mark.trailing }) herased
  rw [Node.erase, Node.tokens_map] at hinside
  refine ⟨mark, edit, result, before ++ inside, after, hmark, hedit, happly, ?_, ?_⟩
  · simp [hbefore, htokens, hinside]
  · simp [hafter, hupdated]

end Tree

open Checker (operation?) in
/-- Removing a null operator loses the comments and directives that stand behind the operand on its
line and those before the mark on later lines, and keeps all others in their order. -/
theorem removing_keeps_remarks_iff (file text : String) {n : Placed} {op : Checker.Operation}
    (hn : n ∈ (parse file text).tree.nodes) (hop : operation? n = some op) :
    let t := (parse file text).tree
    ∃ last mark edit result before after,
      op.operand.lastToken? = some last ∧ op.token.token? = some mark ∧
      FixEdit.removing t (some n.id) = .ok edit ∧ edit.apply t = .ok result ∧
      remarks t.tokens = before ++ (Trivia.remarks (last.trailing ++ mark.leading) ++ after) ∧
      remarks result.tokens = before ++ after ∧
      (remarks result.tokens = remarks t.tokens ↔
        ∀ v ∈ last.trailing ++ mark.leading, v.isRemark = false) := by
  intro t
  obtain ⟨root, hroot, -, -, hshaped⟩ := shaped_parse file text
  have hmem : n ∈ root.preorder := Tree.nodes_of_placed hroot ▸ hn
  obtain ⟨hkind, hchildren, -⟩ := Checker.operation?_eq_some hop
  obtain ⟨last, hlast⟩ := Option.isSome_iff_exists.1
    (hshaped.endsInToken hmem hkind op.operand (by simp [hchildren]))
  have ht : t.Derived := .parse file text
  obtain ⟨mark, edit, result, before, after, hmark, hedit, happly, htokens, hresult⟩ :=
    ht.tokens_removing hn hop hlast
  have hall : remarks t.tokens = remarks before ++ Trivia.remarks last.leading ++
      (Trivia.remarks (last.trailing ++ mark.leading) ++
        (Trivia.remarks mark.trailing ++ remarks after)) := by
    simp [htokens, Token.remarks]
  have hkept : remarks result.tokens = remarks before ++ Trivia.remarks last.leading ++
      (Trivia.remarks mark.trailing ++ remarks after) := by
    simp [hresult, Token.remarks]
  refine ⟨last, mark, edit, result, _, _, hlast, hmark, hedit, happly, hall, hkept, ?_⟩
  rw [← Trivia.remarks_eq_nil_iff, hall, hkept, List.append_cancel_left_eq,
    List.self_eq_append_left]

/-- Only a blank stands between the operand and the mark, so all around them is kept. -/
theorem removing_keeps_remarks_around :
    let t := (parse "" "/* a */ b // c\n#if d\n.e !. /* f */ g();").tree
    ∃ n ∈ t.nodes, ∃ op edit result, Checker.operation? n = some op ∧
      FixEdit.removing t (some n.id) = .ok edit ∧ edit.apply t = .ok result ∧
      remarks t.tokens = ["/* a */", "// c", "#if d", "/* f */"] ∧
      remarks result.tokens = ["/* a */", "// c", "#if d", "/* f */"] := by
  intro t
  have hfound : ∃ n ∈ t.nodes, (Checker.operation? n).any (fun op =>
      op.operand.lastToken?.map Token.trailing == some [⟨.whitespace, " "⟩] &&
        op.token.token?.map Token.leading == some []) = true := by
    decide +kernel
  obtain ⟨n, hn, hany⟩ := hfound
  obtain ⟨op, hop, hblank⟩ := (Option.any_eq_true _ _).1 hany
  obtain ⟨last, mark, edit, result, -, -, hlast, hmark, hedit, happly, -, -, hiff⟩ :=
    removing_keeps_remarks_iff "" "/* a */ b // c\n#if d\n.e !. /* f */ g();" hn hop
  obtain ⟨htrailing, hleading⟩ : last.trailing = [⟨.whitespace, " "⟩] ∧ mark.leading = [] := by
    simpa [hlast, hmark] using hblank
  have hremarks : remarks t.tokens = ["/* a */", "// c", "#if d", "/* f */"] := by decide +kernel
  refine ⟨n, hn, op, edit, result, hop, hedit, happly, hremarks, ?_⟩
  rw [← hremarks]
  refine hiff.2 fun v hv => ?_
  obtain rfl : v = ⟨.whitespace, " "⟩ := by simpa [htrailing, hleading] using hv
  rfl

/-- In `x // c`, `#if d`, `!.f();` on three lines, both the comment and the directive are lost. -/
theorem removing_loses_remarks :
    let t := (parse "" "x // c\n#if d\n!.f();").tree
    ∃ n ∈ t.nodes, ∃ op edit result, Checker.operation? n = some op ∧
      FixEdit.removing t (some n.id) = .ok edit ∧ edit.apply t = .ok result ∧
      remarks t.tokens = ["// c", "#if d"] ∧ remarks result.tokens = [] := by
  intro t
  have hfixed : ∃ n ∈ t.nodes, (Checker.operation? n).isSome = true ∧
      ((FixEdit.removing t (some n.id)).bind fun e =>
        (e.apply t).map fun u => remarks u.tokens).toOption = some [] := by
    decide +kernel
  obtain ⟨n, hn, hsome, hlost⟩ := hfixed
  obtain ⟨op, hop⟩ := Option.isSome_iff_exists.1 hsome
  cases hedit : FixEdit.removing t (some n.id) with
  | error e => rw [hedit] at hlost; cases hlost
  | ok edit =>
    rw [hedit] at hlost
    change ((edit.apply t).map fun u => remarks u.tokens).toOption = some [] at hlost
    cases happly : edit.apply t with
    | error e => rw [happly] at hlost; cases hlost
    | ok result =>
      rw [happly] at hlost
      exact ⟨n, hn, op, edit, result, hop, hedit, happly, by decide +kernel, Option.some.inj hlost⟩

end NullLint
