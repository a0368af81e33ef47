import TreeLayout.Verify.Expression

/-!
# Forms of expressions

Equations of the expression checker that proofs about all forms share. Parentheses are checked from
the outside in: `parens_cons` gives a level from what is found inside its content (`inside`). Trees
that are not entered, the inert ones, have no findings inside (`operand_of_inert`): leaves, and
constructs that are no expressions.
-/

namespace TreeLayout

/-- The checker does not enter the tree: it is a leaf, or a construct that is no expression. -/
def Tree.Inert (t : Tree) : Prop := t.hasChildren = true → t.kind.isExpression = false

/-- A tree without children is not looked into. -/
theorem Tree.inert_of_hasChildren {t : Tree} (h : t.hasChildren = false) : t.Inert := by
  intro hchildren
  rw [h] at hchildren
  cases hchildren

namespace Expression

variable {cx : Context} {p : ExprPolicies} {base : Nat}

/-- Inert trees have no findings inside. -/
theorem operand_of_inert {t : Tree} (h : t.Inert) : operand cx p base t = [] := by
  cases t with
  | token | empty => rw [operand]
  | node kind first rest =>
    have hkind := h rfl
    cases kind <;> first | rfl | cases hkind

/-- What is found inside the content of parentheses, and the node before their closing mark. Where
the content is parenthesised and lacks its shape, there is no such node. -/
def inside (cx : Context) (p : ExprPolicies) (base : Nat) : Tree → List Finding × Option Tree
  | .node .parenExpr mark rest => parens cx p base mark rest
  | .empty .parenExpr pos => ([cx.missingFirst (.empty .parenExpr pos)], none)
  | content => (operand cx p base content, some content)

/-- A construct that is not parenthesised is content as an operand. -/
theorem inside_of_ne {kind : ConstructKind} (h : kind ≠ .parenExpr) (first : Tree)
    (rest : List Tree) :
    inside cx p base (.node kind first rest) =
      (operand cx p base (.node kind first rest), some (.node kind first rest)) := by
  cases kind <;> first | rfl | exact absurd rfl h

/-- Of content that is not entered only the lack of further parentheses is found. -/
theorem inside_of_inert {t : Tree} (h : t.Inert) :
    inside cx p base t =
      if t.kind = .construct .parenExpr then ([cx.missingFirst t], none) else ([], some t) := by
  have hoperand : operand cx p base t = [] := operand_of_inert h
  cases t with
  | token kind text pos => simp [inside, hoperand, Tree.kind]
  | empty kind pos => cases kind <;> simp [inside, hoperand, Tree.kind]
  | node kind first rest =>
    have hne : kind ≠ .parenExpr := by
      rintro rfl
      cases h rfl
    rw [inside_of_ne hne, hoperand, if_neg (by simpa [Tree.kind] using hne)]

/-- One level of parentheses. -/
theorem parens_cons (mark content : Tree) (rest : List Tree) :
    parens cx p base mark (content :: rest) =
      match shapeFault? cx [.token .lParen, .expression, .token .rParen] mark (content :: rest) with
      | some fault => ([fault], none)
      | none =>
        match rest with
        | [] => ([], none)
        | close :: _ => level cx p base mark content close (inside cx p base content) := by
  unfold parens
  cases shapeFault? cx _ mark (content :: rest) with
  | some fault => rfl
  | none =>
    cases rest with
    | nil => rfl
    | cons close _ =>
      cases content with
      | token => rfl
      | empty kind pos => cases kind <;> rfl
      | node kind first rest => cases kind <;> rfl

/-- Whether a node of a kind, with children or not, is an expression that lacks its children. -/
def lacksChildren : Kind → Bool → Bool
  | .construct kind, hasChildren => !hasChildren && needsChildren kind
  | .token _, _ => false

/-- An expression is checked as an operand, unless it lacks its children. -/
theorem check_eq (t : Tree) (inline : Bool) :
    check cx t base inline =
      if lacksChildren t.kind t.hasChildren then [cx.missingFirst t]
      else operand cx (.ofSettings cx.settings inline) base t := by
  cases t with
  | token | node => simp [check, lacksChildren, Tree.kind, Tree.hasChildren]
  | empty kind pos => simp [check, lacksChildren, Tree.kind, Tree.hasChildren, operand]

end Expression

end TreeLayout
