import NullLint.Proofs.Arena.Declarations

/-!
# The counter in lists

Whatever an element of a list holds, the counter stands behind it where it stood before: each level
that is entered is left again, on recovery too. So a list is read in rounds at one depth, and none
of them needs a token to be skipped (`rounds_list`).
-/

namespace NullLint.ArenaParser

open NullLint.Parser (ListLoop)

variable {d : Nat} {l : ListLoop} {s : ArenaState} {ns : List (Node Nat)}

/-- How many levels are left for the elements of a list. -/
def levelsOf : ListLoop → Nat
  | .block levels => levels
  | _ => maxParseDepth

theorem plants_listItem (l : ListLoop) (hd : d + levelsOf l = maxParseDepth) :
    Plants l.item (listItem l) d [] IsNode := by
  cases l with
  | block levels => exact plants_blockItem (plants_statement hd)
  | file =>
    obtain rfl : d = 0 := by simpa [levelsOf] using hd
    exact plants_topLevelItem
  | namespaceFile depth | namespaceBody depth =>
    obtain rfl : d = 0 := by simpa [levelsOf] using hd
    exact plants_namespaceMember (plants_namespaceNested depth)
  | typeBody depth =>
    obtain rfl : d = 0 := by simpa [levelsOf] using hd
    exact plants_typeItem (plants_typeDeclarationNested depth)

/-- An element reads what it reads without an arena, leaves the counter where it was, and adds one
tree to the forest. -/
theorem listItem_spec (hs : s.arena.Forest ns) (hd : s.depth + levelsOf l = maxParseDepth) :
    (listItem l s).2.ahead = (l.item s.ahead).2 ∧ (listItem l s).2.depth = s.depth ∧
      ∃ n, (listItem l s).2.arena.Forest (ns ++ [n]) := by
  obtain ⟨hahead, hdepth, _, hforest, n, rfl, -, -⟩ :=
    plants_listItem l hd s ns rfl (by simpa using hs)
  exact ⟨hahead, hdepth, n, hforest⟩

/-- Round after round with the counter at `d`, as long as the loop goes on. -/
inductive Rounds (l : ListLoop) (d : Nat) : ArenaState → List Nat → ArenaState → Prop
  | stop {s : ArenaState} (h : l.goesOn s.ahead = false) (hd : s.depth = d) : Rounds l d s [] s
  | round {s s' : ArenaState} {is : List Nat} (h : l.goesOn s.ahead = true) (hd : s.depth = d)
      (rest : Rounds l d (listItem l s).2 is s') : Rounds l d s ((listItem l s).1 :: is) s'

/-- A loop goes on behind an element that reads something, and skips nothing. -/
theorem list_of_length_lt (h : l.goesOn s.ahead = true)
    (hlt : (listItem l s).2.ahead.rest.length < s.ahead.rest.length) :
    list l s =
      ((listItem l s).1 :: (list l (listItem l s).2).1, (list l (listItem l s).2).2) := by
  have helement : element l.code (listItem l) s = ([(listItem l s).1], (listItem l s).2) := by
    change (if (listItem l s).2.ahead.rest.length = s.ahead.rest.length ∧
        (listItem l s).2.ahead.kind ≠ .endOfFile
      then (do return [(listItem l s).1, ← skip l.code]) else pure [(listItem l s).1] :
        ArenaParser (List Nat)) (listItem l s).2 = _
    rw [if_neg fun hstuck => hlt.ne hstuck.1]
    rfl
  conv_lhs => rw [list, collectWhile, collect]
  simp only [h, if_true, helement]
  rw [dif_pos ⟨trivial, hlt⟩]
  rfl

/-- A list is read in rounds at one depth. Each of them gives one element, and no token is skipped
behind it. -/
theorem rounds_list (hs : s.ahead.Present) (hforest : s.arena.Forest ns)
    (hd : s.depth + levelsOf l = maxParseDepth) :
    Rounds l s.depth s (list l s).1 (list l s).2 := by
  induction hlength : s.ahead.rest.length using Nat.strong_induction_on generalizing s ns with
  | h length ih =>
    subst hlength
    cases h : l.goesOn s.ahead with
    | false =>
      have hstop : list l s = ([], s) := by
        rw [list, collectWhile, collect]
        simp [h]
      rw [hstop]
      exact .stop h rfl
    | true =>
      obtain ⟨hahead, hdepth, n, hgrown⟩ := listItem_spec hforest hd
      have hlt : (listItem l s).2.ahead.rest.length < s.ahead.rest.length :=
        hahead ▸ ListLoop.length_item hs h
      have hpresent : (listItem l s).2.ahead.Present := hahead ▸ ListLoop.present_item hs h
      rw [list_of_length_lt h hlt]
      exact .round h rfl (hdepth ▸ ih _ hlt hpresent hgrown (hdepth ▸ hd) rfl)

end NullLint.ArenaParser
