import NullLint.Proofs.Semantics.Scoping
import Mathlib.Data.List.Forall2

/-!
# Tables of the open scopes

While a tree is bound, every open scope gives a name the symbol of the last declaration of that name
made in it so far (`Bindings.Tables`). Opening a scope puts an empty table in front, declaring adds
to the first table, and a name is looked up table by table. What binding leaves behind is a symbol
for each declaration, and an entry or a count for each name looked up (`Bindings.Records`).
-/

namespace NullLint

/-- The last of the declarations that gives the name. -/
def lastNamed? (ds : List Placed) (name : String) : Option Placed :=
  (ds.filter fun d => d.declaredName? == some name).getLast?

@[simp] theorem lastNamed?_nil (name : String) : lastNamed? [] name = none := rfl

theorem lastNamed?_append_singleton (ds : List Placed) (d : Placed) (name : String) :
    lastNamed? (ds ++ [d]) name =
      if d.declaredName? = some name then some d else lastNamed? ds name := by
  unfold lastNamed?
  rw [List.filter_append]
  by_cases h : d.declaredName? = some name <;> simp [h]

/-- The symbol is the one that the node declares. -/
def Denotes (symbols : List Symbol) (x : Nat) (d : Placed) : Prop :=
  ∃ s, symbols[x]? = some s ∧ s.declaration = d.id

theorem Denotes.append {symbols : List Symbol} {x : Nat} {d : Placed}
    (h : Denotes symbols x d) (new : List Symbol) : Denotes (symbols ++ new) x d := by
  obtain ⟨s, hs, hd⟩ := h
  obtain ⟨hlt, -⟩ := List.getElem?_eq_some_iff.1 hs
  exact ⟨s, by rw [List.getElem?_append_left hlt, hs], hd⟩

namespace Scope

theorem find?_declare_of_ne (s : Scope) {name other : String} (symbol : Nat) (h : other ≠ name) :
    (s.declare name symbol).find? other = s.find? other := by
  have hbeq : (other == name) = false := by simpa using h
  simp only [declare, find?, List.lookup_cons, hbeq]
  induction s.names with
  | nil => rfl
  | cons p ps ih =>
    obtain ⟨key, x⟩ := p
    by_cases hkey : key = name
    · subst hkey
      simpa [List.lookup_cons, hbeq] using ih
    · rw [List.filter_cons_of_pos (by simpa using hkey), List.lookup_cons, List.lookup_cons, ih]

/-- The scope gives each name the symbol of the last declaration of that name. -/
def Holds (t : Scope) (symbols : List Symbol) (ds : List Placed) : Prop :=
  ∀ name, Option.Rel (Denotes symbols) (t.find? name) (lastNamed? ds name)

theorem Holds.append {t : Scope} {symbols : List Symbol} {ds : List Placed}
    (h : t.Holds symbols ds) (new : List Symbol) : t.Holds (symbols ++ new) ds := by
  intro name
  have hname := h name
  generalize t.find? name = x, lastNamed? ds name = d at hname ⊢
  cases hname with
  | some hd => exact .some (hd.append new)
  | none => exact .none

theorem Holds.declare {t : Scope} {symbols : List Symbol} {ds : List Placed} {s : Symbol}
    {d : Placed} (h : t.Holds symbols ds) (hd : s.declaration = d.id)
    (hname : d.declaredName? = some s.name) :
    (t.declare s.name symbols.length).Holds (symbols ++ [s]) (ds ++ [d]) := by
  intro name
  rw [lastNamed?_append_singleton, hname]
  by_cases heq : s.name = name
  · subst heq
    rw [if_pos rfl, find?_declare_self]
    exact .some ⟨s, by simp, hd⟩
  · rw [if_neg (by simpa using heq), find?_declare_of_ne t _ (Ne.symm heq)]
    exact h.append [s] name

end Scope

namespace Bindings

/-! ## Tables -/

/-- The scopes of the chain hold the declarations of the lists. -/
structure Tables (b : Bindings) (chain : List Nat) (env : List (List Placed)) : Prop where
  nodup : chain.Nodup
  holds : List.Forall₂ (fun k ds => ∃ t, b.scopes[k]? = some t ∧ t.Holds b.symbols ds) chain env

namespace Tables

variable {b b' : Bindings} {chain : List Nat} {env : List (List Placed)} {ds : List Placed}
  {k : Nat}

theorem nil (b : Bindings) : b.Tables [] [] := ⟨List.nodup_nil, .nil⟩

theorem congr (h : b.Tables chain env) (hscopes : b'.scopes = b.scopes)
    (hsymbols : b'.symbols = b.symbols) : b'.Tables chain env := by
  refine ⟨h.nodup, ?_⟩
  rw [hscopes, hsymbols]
  exact h.holds

theorem tail (h : b.Tables (k :: chain) (ds :: env)) : b.Tables chain env :=
  ⟨(List.nodup_cons.1 h.nodup).2, (List.forall₂_cons.1 h.holds).2⟩

theorem lt (h : b.Tables chain env) : ∀ k ∈ chain, k < b.scopes.length := by
  obtain ⟨-, holds⟩ := h
  induction holds with
  | nil => simp
  | @cons k _ _ _ head _ ih =>
    obtain ⟨t, ht, -⟩ := head
    exact List.forall_mem_cons.2 ⟨(List.getElem?_eq_some_iff.1 ht).1, ih⟩

/-- A scope is opened with an empty table. -/
theorem openScope (h : b.Tables chain env) (kind : ScopeKind) (node : Nat) :
    (b.openScope kind chain node).2.Tables (b.scopes.length :: chain) ([] :: env) := by
  have hnot : b.scopes.length ∉ chain := fun hmem => Nat.lt_irrefl _ (h.lt _ hmem)
  refine ⟨List.nodup_cons.2 ⟨hnot, h.nodup⟩, .cons ?_ ?_⟩
  · exact ⟨⟨kind, chain.head?, node, []⟩, by simp, fun name => .none⟩
  · refine h.holds.imp ?_
    rintro k ds ⟨t, ht, hds⟩
    obtain ⟨hlt, -⟩ := List.getElem?_eq_some_iff.1 ht
    exact ⟨t, by rw [scopes_openScope, List.getElem?_append_left hlt, ht], hds⟩

/-- A declaration goes into the innermost table. -/
theorem declare (h : b.Tables (k :: chain) (ds :: env)) {s : Symbol} {d : Placed}
    (hd : s.declaration = d.id) (hname : d.declaredName? = some s.name) :
    (b.declare (k :: chain) s).Tables (k :: chain) ((ds ++ [d]) :: env) := by
  obtain ⟨hk, -⟩ := List.nodup_cons.1 h.nodup
  obtain ⟨⟨t, ht, hds⟩, hrest⟩ := List.forall₂_cons.1 h.holds
  refine ⟨h.nodup, .cons ⟨t.declare s.name b.symbols.length, ?_, hds.declare hd hname⟩ ?_⟩
  · simp [Bindings.declare, ht]
  · have houter : ∀ j ∈ chain, k ≠ j := by
      rintro j hj rfl
      exact hk hj
    refine ((List.forall₂_and_left _ _).2 ⟨houter, hrest⟩).imp ?_
    rintro j ds ⟨hne, t, ht, hds⟩
    exact ⟨t, by simp [Bindings.declare, ht, hne], hds.append [s]⟩

/-- A name is looked up table by table. -/
theorem resolve (h : b.Tables chain env) (name : String) :
    Option.Rel (Denotes b.symbols) (b.resolve? chain name)
      (env.findSome? fun ds => lastNamed? ds name) := by
  obtain ⟨-, holds⟩ := h
  unfold resolve?
  induction holds with
  | nil => exact .none
  | @cons k ds chain env head tail ih =>
    obtain ⟨t, ht, hds⟩ := head
    have hname := hds name
    rw [List.findSome?_cons, List.findSome?_cons, ht, Option.bind_some]
    generalize t.find? name = x, lastNamed? ds name = d at hname ⊢
    cases hname with
    | some hx => exact .some hx
    | none => exact ih

end Tables

/-! ## Records -/

/-- The entry gives the first node the symbol that the second one declares. -/
def Entry (symbols : List Symbol) (m : Placed × Placed) (e : Nat × Nat) : Prop :=
  e.1 = m.1.id ∧ Denotes symbols e.2 m.2

/-- Declarations with themselves, and the names that have an answer with that answer. -/
def meanings (answer : Placed → Option Placed) (ds names : List Placed) :
    List (Placed × Placed) :=
  ds.map (fun d => (d, d)) ++ names.filterMap fun i => (answer i).map fun d => (i, d)

/-- From `b` to `b'` each of the declarations `ds` has got a symbol, and each of the names has been
looked up once: it has got an entry for the symbol of its answer, or it has been counted. -/
structure Records (answer : Placed → Option Placed) (ds names : List Placed) (b b' : Bindings) :
    Prop where
  symbols : ∃ new, b'.symbols = b.symbols ++ new ∧
    (new.map Symbol.declaration).Perm (ds.map Node.id)
  entries : ∃ es ms, b'.symbolOf = es ++ b.symbolOf ∧ ms.Perm (meanings answer ds names) ∧
    List.Forall₂ (Entry b'.symbols) ms es
  unresolved : b'.unresolved = b.unresolved + names.countP fun i => (answer i).isNone

section Records

variable {answer : Placed → Option Placed} {ds ds' names names' : List Placed}
  {b b₁ b' : Bindings} {chain : List Nat}

theorem Records.refl (b : Bindings) : Records answer [] [] b b where
  symbols := ⟨[], by simp⟩
  entries := ⟨[], [], rfl, .rfl, .nil⟩
  unresolved := rfl

theorem Records.of_openScope {kind : ScopeKind} {node : Nat}
    (h : Records answer ds names (b.openScope kind chain node).2 b') :
    Records answer ds names b b' :=
  ⟨h.symbols, h.entries, h.unresolved⟩

theorem Records.perm (h : Records answer ds names b b') (hds : ds.Perm ds')
    (hnames : names.Perm names') : Records answer ds' names' b b' := by
  obtain ⟨⟨new, hnew, hperm⟩, ⟨es, ms, hes, hms, hentries⟩, hunresolved⟩ := h
  refine ⟨⟨new, hnew, hperm.trans (hds.map _)⟩, ⟨es, ms, hes, hms.trans ?_, hentries⟩, ?_⟩
  · exact (hds.map _).append (hnames.filterMap _)
  · rw [hunresolved, hnames.countP_eq]

theorem meanings_append : (meanings answer ds names ++ meanings answer ds' names').Perm
    (meanings answer (ds ++ ds') (names ++ names')) := by
  simp only [meanings, List.map_append, List.filterMap_append, List.append_assoc]
  refine .append_left _ ?_
  exact List.perm_append_comm_assoc _ _ _

theorem Records.trans (h : Records answer ds names b b₁) (h' : Records answer ds' names' b₁ b') :
    Records answer (ds ++ ds') (names ++ names') b b' := by
  obtain ⟨⟨new, hnew, hperm⟩, ⟨es, ms, hes, hms, hentries⟩, hunresolved⟩ := h
  obtain ⟨⟨new', hnew', hperm'⟩, ⟨es', ms', hes', hms', hentries'⟩, hunresolved'⟩ := h'
  refine ⟨⟨new ++ new', by simp [hnew, hnew'], ?_⟩, ⟨es' ++ es, ms' ++ ms, ?_, ?_, ?_⟩, ?_⟩
  · simpa using hperm.append hperm'
  · simp [hes, hes']
  · exact List.perm_append_comm.trans ((hms.append hms').trans meanings_append)
  · -- symbols stay where they are when more are declared
    refine List.rel_append hentries' (hentries.imp ?_)
    rintro m e ⟨hid, hd⟩
    exact ⟨hid, hnew' ▸ hd.append new'⟩
  · rw [hunresolved', hunresolved, List.countP_append, Nat.add_assoc]

theorem records_declare {s : Symbol} {d : Placed} (hd : s.declaration = d.id) (b : Bindings)
    (chain : List Nat) : Records answer [d] [] b (b.declare chain s) where
  symbols := ⟨[s], rfl, by simp [hd]⟩
  entries := by
    refine ⟨[(s.declaration, b.symbols.length)], [(d, d)], rfl, .rfl, .cons ?_ .nil⟩
    exact ⟨hd, s, by simp [declare], hd⟩
  unresolved := rfl

/-- A name is looked up where it stands. -/
theorem Tables.bindName {env : List (List Placed)} {n : Placed} {name : String}
    (h : b.Tables chain env) (hname : n.identifier? = some name)
    (hanswer : answer n = env.findSome? fun ds => lastNamed? ds name) :
    Records answer [] [n] b (b.bindName chain n) := by
  have hresolve := h.resolve name
  rw [← hanswer] at hresolve
  unfold Bindings.bindName
  simp only [hname]
  generalize hx : b.resolve? chain name = x at hresolve ⊢
  generalize hd : answer n = d at hresolve
  cases hresolve with
  | @some x d hdenotes =>
    refine ⟨⟨[], by simp⟩, ⟨[(n.id, x)], [(n, d)], rfl, ?_, .cons ⟨rfl, hdenotes⟩ .nil⟩, ?_⟩
    · simp [meanings, hd]
    · simp [hd]
  | none =>
    refine ⟨⟨[], by simp⟩, ⟨[], [], rfl, ?_, .nil⟩, ?_⟩
    · simp [meanings, hd]
    · simp [hd]

end Records

/-! ## Declaring several nodes -/

/-- The nodes are declared one after the other in the innermost scope. -/
inductive Declared (chain : List Nat) : List Placed → Bindings → Bindings → Prop where
  | nil (b : Bindings) : Declared chain [] b b
  | cons {d : Placed} {ds : List Placed} {s : Symbol} {b b' : Bindings}
      (declaration : s.declaration = d.id) (name : d.declaredName? = some s.name)
      (rest : Declared chain ds (b.declare chain s) b') : Declared chain (d :: ds) b b'

namespace Declared

variable {chain : List Nat} {ds ds' : List Placed} {b b₁ b' : Bindings}

theorem append (h : Declared chain ds b b₁) (h' : Declared chain ds' b₁ b') :
    Declared chain (ds ++ ds') b b' := by
  induction h with
  | nil b => exact h'
  | cons declaration name rest ih => exact .cons declaration name (ih h')

theorem one {d : Placed} {s : Symbol} (declaration : s.declaration = d.id)
    (name : d.declaredName? = some s.name) (b : Bindings) :
    Declared chain [d] b (b.declare chain s) :=
  .cons declaration name (.nil _)

/-- Each of the nodes is declared in its turn. -/
theorem foldl_each {f : Bindings → Placed → Bindings}
    (h : ∀ d ∈ ds, ∀ b, Declared chain [d] b (f b d)) (b : Bindings) :
    Declared chain ds b (ds.foldl f b) := by
  induction ds generalizing b with
  | nil => exact .nil b
  | cons d ds ih => exact (h d (by simp) b).append (ih (fun e he => h e (by simp [he])) _)

theorem foldl {f : Bindings → Placed → Bindings} {g : Placed → List Placed} {cs : List Placed}
    (h : ∀ c ∈ cs, ∀ b, Declared chain (g c) b (f b c)) (b : Bindings) :
    Declared chain (cs.flatMap g) b (cs.foldl f b) := by
  induction cs generalizing b with
  | nil => exact .nil b
  | cons c cs ih =>
    exact (h c (by simp) b).append (ih (fun d hd => h d (by simp [hd])) _)

theorem tables {k : Nat} {held : List Placed} {env : List (List Placed)}
    (h : Declared (k :: chain) ds b b') (ht : b.Tables (k :: chain) (held :: env)) :
    b'.Tables (k :: chain) ((held ++ ds) :: env) := by
  induction h generalizing held with
  | nil b => simpa using ht
  | cons declaration name rest ih => simpa using ih (ht.declare declaration name)

theorem records {answer : Placed → Option Placed} (h : Declared chain ds b b') :
    Records answer ds [] b b' := by
  induction h with
  | nil b => exact .refl b
  | cons declaration name rest ih => exact (records_declare declaration _ chain).trans ih

end Declared

end Bindings

end NullLint
