import NullLint.Syntax.Token

/-!
# Tree nodes

A node is a token or a branch over child nodes, and carries a tag of any type: nothing while a
tree is built (`Green`), its number and position once the tree is laid out (`Placed`).

A branch may have any kind and any children; what the grammar makes of them is the business of
the views.
-/

namespace NullLint

/-- An ordered tree over tokens. -/
inductive Node (α : Type) where
  | token (tag : α) (token : Token)
  | branch (tag : α) (kind : Kind) (children : List (Node α))
  deriving Repr, Inhabited

/-- A node without a position. -/
abbrev Green := Node Unit

/-- A green token. -/
abbrev Green.leaf (t : Token) : Green := .token () t

/-- A green branch. -/
abbrev Green.group (kind : Kind) (children : List Green) : Green := .branch () kind children

namespace Node

variable {α β : Type}

def tag : Node α → α
  | .token a _ => a
  | .branch a _ _ => a

def kind : Node α → Kind
  | .token _ t => t.kind
  | .branch _ k _ => k

def children : Node α → List (Node α)
  | .token _ _ => []
  | .branch _ _ cs => cs

/-- The token of a leaf. -/
def token? : Node α → Option Token
  | .token _ t => some t
  | .branch _ _ _ => none

/-- The text of a leaf, empty for a branch. -/
def leafText : Node α → String
  | .token _ t => t.text
  | .branch _ _ _ => ""

/-- Whether the node is a token that the source lacks. -/
def isMissing : Node α → Bool
  | .token _ t => t.missing
  | .branch _ _ _ => false

@[simp] theorem kind_token (a : α) (t : Token) : (Node.token a t).kind = t.kind := rfl
@[simp] theorem kind_branch (a : α) (k : Kind) (cs : List (Node α)) :
    (Node.branch a k cs).kind = k := rfl
@[simp] theorem children_token (a : α) (t : Token) : (Node.token a t).children = [] := rfl
@[simp] theorem children_branch (a : α) (k : Kind) (cs : List (Node α)) :
    (Node.branch a k cs).children = cs := rfl

/-! ## Traversal -/

mutual

/-- The tokens under a node, followed by `rest`. -/
def tokensOnto (rest : List Token) : Node α → List Token
  | .token _ t => t :: rest
  | .branch _ _ cs => tokensAllOnto rest cs

/-- The tokens under a list of nodes, followed by `rest`. -/
def tokensAllOnto (rest : List Token) : List (Node α) → List Token
  | [] => rest
  | c :: cs => tokensOnto (tokensAllOnto rest cs) c

end

/-- The tokens under a node, in source order. -/
def tokens (n : Node α) : List Token := n.tokensOnto []

mutual

/-- A node and everything below it, parents first, followed by `rest`. -/
def preorderOnto (rest : List (Node α)) : Node α → List (Node α)
  | .token a t => .token a t :: rest
  | .branch a k cs => .branch a k cs :: preorderAllOnto rest cs

/-- The preorder of a list of nodes, followed by `rest`. -/
def preorderAllOnto (rest : List (Node α)) : List (Node α) → List (Node α)
  | [] => rest
  | c :: cs => preorderOnto (preorderAllOnto rest cs) c

end

/-- A node and everything below it, parents first. -/
def preorder (n : Node α) : List (Node α) := n.preorderOnto []

mutual

/-- Changes every tag. -/
def map (f : α → β) : Node α → Node β
  | .token a t => .token (f a) t
  | .branch a k cs => .branch (f a) k (mapAll f cs)

/-- Changes every tag in a list of nodes. -/
def mapAll (f : α → β) : List (Node α) → List (Node β)
  | [] => []
  | c :: cs => map f c :: mapAll f cs

end

mutual

/-- Decides whether two nodes are equal. -/
def decEq [DecidableEq α] : (m n : Node α) → Decidable (m = n)
  | .token a t, .token b u => decidable_of_iff (a = b ∧ t = u) (by simp)
  | .token .., .branch .. => isFalse (by simp)
  | .branch .., .token .. => isFalse (by simp)
  | .branch a k cs, .branch b l ds =>
    have := decEqAll cs ds
    decidable_of_iff (a = b ∧ k = l ∧ cs = ds) (by simp)

/-- Decides whether two lists of nodes are equal. -/
def decEqAll [DecidableEq α] : (cs ds : List (Node α)) → Decidable (cs = ds)
  | [], [] => isTrue rfl
  | [], _ :: _ => isFalse (by simp)
  | _ :: _, [] => isFalse (by simp)
  | c :: cs, d :: ds =>
    have := decEq c d
    have := decEqAll cs ds
    decidable_of_iff (c = d ∧ cs = ds) (by simp)

end

instance [DecidableEq α] : DecidableEq (Node α) := decEq

/-- The node without its tags. -/
def erase (n : Node α) : Green := n.map fun _ => ()

/-- Number of nodes. -/
def size (n : Node α) : Nat := n.preorder.length

mutual

theorem tokensOnto_eq (rest : List Token) (n : Node α) :
    n.tokensOnto rest = n.tokens ++ rest := by
  cases n with
  | token => simp [tokens, tokensOnto]
  | branch a k cs =>
    simp only [tokens, tokensOnto]
    rw [tokensAllOnto_eq rest cs, tokensAllOnto_eq [] cs]
    simp

theorem tokensAllOnto_eq (rest : List Token) (cs : List (Node α)) :
    tokensAllOnto rest cs = cs.flatMap tokens ++ rest := by
  match cs with
  | [] => rfl
  | c :: cs =>
    simp only [tokensAllOnto, List.flatMap_cons, List.append_assoc]
    rw [tokensOnto_eq _ c, tokensAllOnto_eq rest cs]

end

mutual

theorem preorderOnto_eq (rest : List (Node α)) (n : Node α) :
    n.preorderOnto rest = n.preorder ++ rest := by
  cases n with
  | token => simp [preorder, preorderOnto]
  | branch a k cs =>
    simp only [preorder, preorderOnto]
    rw [preorderAllOnto_eq rest cs, preorderAllOnto_eq [] cs]
    simp

theorem preorderAllOnto_eq (rest : List (Node α)) (cs : List (Node α)) :
    preorderAllOnto rest cs = cs.flatMap preorder ++ rest := by
  match cs with
  | [] => rfl
  | c :: cs =>
    simp only [preorderAllOnto, List.flatMap_cons, List.append_assoc]
    rw [preorderOnto_eq _ c, preorderAllOnto_eq rest cs]

end

@[simp]
theorem tokens_token (a : α) (t : Token) : (Node.token a t).tokens = [t] := rfl

@[simp]
theorem tokens_branch (a : α) (k : Kind) (cs : List (Node α)) :
    (Node.branch a k cs).tokens = cs.flatMap tokens := by
  simp [tokens, tokensOnto, tokensAllOnto_eq]

@[simp]
theorem preorder_token (a : α) (t : Token) : (Node.token a t).preorder = [.token a t] := rfl

@[simp]
theorem preorder_branch (a : α) (k : Kind) (cs : List (Node α)) :
    (Node.branch a k cs).preorder = .branch a k cs :: cs.flatMap preorder := by
  simp [preorder, preorderOnto, preorderAllOnto_eq]

@[simp]
theorem size_token (a : α) (t : Token) : (Node.token a t).size = 1 := rfl

@[simp]
theorem size_branch (a : α) (k : Kind) (cs : List (Node α)) :
    (Node.branch a k cs).size = (cs.flatMap preorder).length + 1 := by
  simp [size]

/-- A child is smaller than its parent. -/
theorem size_lt_of_mem_children {c n : Node α} (h : c ∈ n.children) : c.size < n.size := by
  cases n with
  | token => simp at h
  | branch a k cs =>
    simp only [children_branch, size_branch] at h ⊢
    induction cs with
    | nil => simp at h
    | cons d ds ih =>
      simp only [List.flatMap_cons, List.length_append]
      rcases List.mem_cons.1 h with rfl | h
      · simp only [size]
        omega
      · have := ih h
        omega

theorem mapAll_eq_map (f : α → β) (cs : List (Node α)) : mapAll f cs = cs.map (map f) := by
  induction cs with
  | nil => rfl
  | cons c cs ih => simp [mapAll, ih]

/-- The source text of a node, trivia included. -/
def print (n : Node α) : String := String.join (n.tokens.map Token.fullText)

/-- The token texts alone, as in `List<string?>`. -/
def compact (n : Node α) : String := String.join (n.tokens.map Token.text)

/-- The leaf reached by always taking the first child. -/
def firstLeaf? : Node α → Option (Node α)
  | .token a t => some (.token a t)
  | .branch _ _ [] => none
  | .branch _ _ (c :: _) => firstLeaf? c

mutual

/-- The leaf reached by always taking the last child. -/
def lastLeaf? : Node α → Option (Node α)
  | .token a t => some (.token a t)
  | .branch _ _ cs => lastLeafIn? cs

/-- The last leaf of the last node of a list. -/
def lastLeafIn? : List (Node α) → Option (Node α)
  | [] => none
  | [c] => lastLeaf? c
  | _ :: c :: cs => lastLeafIn? (c :: cs)

end

/-! ## Outline -/

/-- What two nodes have to share to count as the same: kind, number of children, text. -/
def label (n : Node α) : Kind × Nat × String :=
  (n.kind, n.children.length, n.leafText)

/-- The labels of a node and of everything below it. -/
def outline (n : Node α) : List (Kind × Nat × String) := n.preorder.map label

end Node

end NullLint
