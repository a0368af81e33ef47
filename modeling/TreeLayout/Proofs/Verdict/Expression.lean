import TreeLayout.Proofs.Expression.Forms
import TreeLayout.Proofs.Tree.Root
import Mathlib.Algebra.Ring.Nat

/-!
# Layout findings in expressions

How many layout findings are reported on the token at one place. A boundary check is about the token
that the second node starts with, so it reports at most one finding there and none elsewhere; what
is wrong with the shape of a tree is no layout finding.

`Tree.judged` counts the children of an expression, and of the expressions among them, that stand
after a first child and start at the place: these are the nodes that a boundary check stands before.
The expression checker reports no more layout findings at the place than that
(`Expression.verdicts_check_le`).
-/

namespace TreeLayout

variable {q : Position} {cx : Context}

/-- Whether a finding is about the layout of the token at a place. -/
def Finding.judges (q : Position) (f : Finding) : Bool :=
  !f.message.isStructural && decide (Position.mk f.line f.rawColumn = q)

/-- The number of findings about the layout of the token at a place. -/
def verdicts (q : Position) (fs : List Finding) : Nat := fs.countP (Finding.judges q)

/-- Where nothing is found there is no verdict. -/
@[simp] theorem verdicts_nil (q : Position) : verdicts q [] = 0 := rfl

/-- The verdicts on what is found in two places add up. -/
@[simp] theorem verdicts_append (q : Position) (fs gs : List Finding) :
    verdicts q (fs ++ gs) = verdicts q fs + verdicts q gs :=
  List.countP_append

/-- Whether a construct is an expression without a program. -/
def ConstructKind.isComposite (kind : ConstructKind) : Bool :=
  (Kind.construct kind).isExpression && kind ≠ .arrayInitializer

namespace Tree

/-- One if a tree starts at a place. -/
def starts (q : Position) (t : Tree) : Nat := if t.pos = q then 1 else 0

mutual
/-- The number of nodes at a place that have a boundary before them in an expression. -/
def judged (q : Position) : Tree → Nat
  | .token _ _ _ | .empty _ _ => 0
  | .node kind first rest =>
    if kind.isComposite then judged q first + ((rest.map (starts q)).sum + judgedAmong q rest)
    else 0

/-- The number of such nodes in several expressions. -/
def judgedAmong (q : Position) : List Tree → Nat
  | [] => 0
  | t :: ts => judged q t + judgedAmong q ts
end

/-- Several trees have as many judged nodes as all of them together. -/
theorem judgedAmong_eq_sum (q : Position) (ts : List Tree) :
    judgedAmong q ts = (ts.map (judged q)).sum := by
  induction ts with
  | nil => rfl
  | cons t ts ih => rw [judgedAmong, ih, List.map_cons, List.sum_cons]

/-- In a composite expression all children but the first have a boundary before them, and the
children may have judged nodes inside. -/
theorem judged_composite {kind : ConstructKind} (h : kind.isComposite = true) (q : Position)
    (first : Tree) (rest : List Tree) :
    judged q (.node kind first rest) =
      judged q first + ((rest.map (starts q)).sum + (rest.map (judged q)).sum) := by
  rw [judged, if_pos h, judgedAmong_eq_sum]

end Tree

open TreeLayout.Tree (starts judged judged_composite)

/-! ## Boundaries -/

namespace Context

variable (cx : Context) (q : Position)

/-- A finding about a tree is a verdict on at most the place where the tree starts. -/
theorem verdicts_finding_le (t : Tree) (message : Message) (indent : Option Nat) :
    verdicts q [cx.finding t message indent] ≤ starts q t := by
  have hpos : Position.mk t.line t.rawColumn = t.pos := rfl
  simp only [verdicts, List.countP_singleton, starts, Finding.judges, finding, hpos]
  by_cases hq : t.pos = q
  · rw [if_pos hq]
    split <;> decide
  · simp [hq]

/-- What is wrong with the shape of a tree is not about its layout. -/
theorem verdicts_structural {message : Message} (h : message.isStructural = true) (t : Tree)
    (indent : Option Nat) : verdicts q [cx.finding t message indent] = 0 := by
  simp [verdicts, Finding.judges, finding, h]

/-- A child of the wrong kind is no verdict on a layout. -/
@[simp] theorem verdicts_unexpected (t : Tree) (expected : String) :
    verdicts q [cx.unexpected t expected] = 0 :=
  cx.verdicts_structural q rfl t none

/-- A surplus child is no verdict on a layout. -/
@[simp] theorem verdicts_extra (t : Tree) : verdicts q [cx.extra t] = 0 :=
  cx.verdicts_structural q rfl t none

/-- A missing first child is no verdict on a layout. -/
@[simp] theorem verdicts_missingFirst (t : Tree) : verdicts q [cx.missingFirst t] = 0 :=
  cx.verdicts_structural q rfl t none

variable (prev next : Tree)

/-- A column that is asked for gives at most one verdict on the node that should stand there. -/
theorem verdicts_expectColumn_le (expected : Nat) :
    verdicts q (cx.expectColumn next expected) ≤ starts q next := by
  simp only [expectColumn]
  split
  · exact Nat.zero_le _
  · exact cx.verdicts_finding_le q next _ _

/-- A line that is to be shared gives at most one verdict on the later node. -/
theorem verdicts_noWrap_le : verdicts q (cx.noWrap prev next) ≤ starts q next := by
  unfold noWrap
  split
  · exact Nat.zero_le _
  · exact cx.verdicts_finding_le q next _ _

/-- A wrap that is allowed gives at most one verdict on the later node. -/
theorem verdicts_mayWrap_le (column : Nat) :
    verdicts q (cx.mayWrap prev next column) ≤ starts q next := by
  unfold mayWrap
  split
  · exact Nat.zero_le _
  · exact cx.verdicts_expectColumn_le q next column

/-- A wrap that is needed gives at most one verdict on the later node. -/
theorem verdicts_mustWrap_le (column : Nat) :
    verdicts q (cx.mustWrap prev next column) ≤ starts q next := by
  unfold mustWrap
  split
  · exact cx.verdicts_finding_le q next _ _
  · exact cx.verdicts_expectColumn_le q next column

/-- A boundary is about the token after it. -/
theorem verdicts_boundary_le (policy : WrapPolicy) (column : Nat) :
    verdicts q (cx.boundary policy prev next column) ≤ starts q next := by
  cases policy with
  | no => exact cx.verdicts_noWrap_le q prev next
  | may => exact cx.verdicts_mayWrap_le q prev next column
  | must => exact cx.verdicts_mustWrap_le q prev next column

end Context

namespace Expression

open Context

/-- A child that is missing is no verdict on a layout. -/
@[simp] theorem verdicts_missingAfter (last : Tree) : verdicts q [missingAfter cx last] = 0 :=
  cx.verdicts_structural q rfl last none

/-- A child that does not fit its slot is no verdict on a layout. -/
theorem verdicts_fault? {last : Tree} {slots : List Slot} {ts : List Tree} {fault : Finding}
    (h : fault? cx last slots ts = some fault) : verdicts q [fault] = 0 := by
  induction slots generalizing last ts with
  | nil =>
    rw [fault?] at h
    cases h
  | cons slot slots ih =>
    cases ts with
    | nil =>
      rw [fault?, Option.some.injEq] at h
      rw [← h, verdicts_missingAfter]
    | cons child ts =>
      rw [fault?] at h
      split at h
      · exact ih h
      · rw [← Option.some.inj h, verdicts_unexpected]

/-- A tree without its shape has no layout finding. -/
theorem verdicts_shapeFault? {slots : List Slot} {first : Tree} {rest : List Tree} {fault : Finding}
    (h : shapeFault? cx slots first rest = some fault) : verdicts q [fault] = 0 := by
  cases slots with
  | nil => cases h
  | cons slot slots =>
    rw [shapeFault?] at h
    split at h
    · exact verdicts_fault? h
    · rw [← Option.some.inj h, verdicts_unexpected]

section Parts

variable (q : Position) (cx : Context) (p : ExprPolicies) (base : Nat)

/-- Nodes that have to share a line get at most one verdict each, but for the first. -/
theorem verdicts_allOnLine_le (prev : Tree) (rest : List Tree) :
    verdicts q (allOnLine cx prev rest) ≤ (rest.map (starts q)).sum := by
  induction rest generalizing prev with
  | nil => exact Nat.zero_le _
  | cons next rest ih =>
    rw [allOnLine, verdicts_append, List.map_cons, List.sum_cons]
    exact Nat.add_le_add (cx.verdicts_noWrap_le q prev next) (ih next)

/-- The boundaries of a conditional give at most one verdict on each node after one. -/
theorem verdicts_ternaryBoundaries_le (column : Nat) (prev : Tree) (rest : List Tree) :
    verdicts q (ternaryBoundaries cx p column prev rest) ≤ (rest.map (starts q)).sum := by
  induction rest generalizing prev with
  | nil => exact Nat.zero_le _
  | cons next rest ih =>
    rw [ternaryBoundaries, verdicts_append, List.map_cons, List.sum_cons]
    exact Nat.add_le_add (cx.verdicts_boundary_le q prev next _ column) (ih next)

/-- The boundaries of a creation give at most one verdict on each node after one. -/
theorem verdicts_creationParts_le (prev : Tree) (parts : List Tree) :
    verdicts q (creationParts cx p base prev parts) ≤ (parts.map (starts q)).sum := by
  induction parts generalizing prev with
  | nil => exact Nat.zero_le _
  | cons child parts ih =>
    rw [creationParts, List.map_cons, List.sum_cons]
    split
    · rw [verdicts_append]
      exact Nat.add_le_add (cx.verdicts_boundary_le q prev child _ base) (ih child)
    · rw [verdicts_append]
      exact Nat.add_le_add (cx.verdicts_noWrap_le q prev child) (ih child)
    · rw [verdicts_append]
      exact Nat.add_le_add (cx.verdicts_noWrap_le q prev child) (ih child)
    · rw [verdicts_append]
      exact Nat.add_le_add (cx.verdicts_noWrap_le q prev child) (ih child)
    · rw [verdicts_unexpected]
      exact Nat.zero_le _

/-- The opening of parentheses gives at most one verdict on the content. -/
theorem verdicts_opening_le (mark content : Tree) :
    verdicts q (opening cx p base mark content) ≤ starts q content := by
  unfold opening
  split
  · exact Nat.zero_le _
  · split
    · exact cx.verdicts_finding_le q content _ _
    · exact cx.verdicts_expectColumn_le q content _

/-- The closing of parentheses gives at most one verdict on the closing mark. -/
theorem verdicts_closing_le (mark content prev close : Tree) :
    verdicts q (closing cx p base mark content prev close) ≤ starts q close := by
  unfold closing
  split
  · exact cx.verdicts_mustWrap_le q prev close base
  · exact cx.verdicts_noWrap_le q prev close

end Parts

/-! ## Forms of expressions -/

variable {p : ExprPolicies} {base : Nat}

/-- Of a tree no more is found than boundaries inside it allow, both as an operand and as the
content of parentheses. -/
structure Judged (q : Position) (cx : Context) (p : ExprPolicies) (t : Tree) : Prop where
  /-- As an operand. -/
  operand : ∀ base, verdicts q (Expression.operand cx p base t) ≤ judged q t
  /-- As the content of parentheses. -/
  inside : ∀ base, verdicts q (Expression.inside cx p base t).1 ≤ judged q t

variable {first : Tree} {rest : List Tree}

/-- Operands give at most one verdict on each judged node in them. -/
theorem verdicts_operands_le (hrest : ∀ t ∈ rest, Judged q cx p t) (base : Nat) :
    verdicts q (operands cx p base rest) ≤ (rest.map (judged q)).sum := by
  induction rest with
  | nil => exact Nat.zero_le _
  | cons t ts ih =>
    obtain ⟨ht, hts⟩ := List.forall_mem_cons.1 hrest
    rw [operands, verdicts_append, List.map_cons, List.sum_cons]
    exact Nat.add_le_add (ht.operand base) (ih hts)

/-- Each operator and each operand of a chain has one boundary before it. -/
theorem verdicts_chain_le (base : Nat) (needed : Bool) (left : Tree) (rest : List Tree)
    (hrest : ∀ t ∈ rest, Judged q cx p t) :
    verdicts q (chain cx p base needed left rest) ≤
      (rest.map (starts q)).sum + (rest.map (judged q)).sum :=
  match rest with
  | [] => by
    rw [chain]
    split
    · rw [verdicts_missingAfter]
      exact Nat.zero_le _
    · exact Nat.zero_le _
  | [op] => by
    rw [chain]
    split
    · rw [verdicts_missingAfter]
      exact Nat.zero_le _
    · rw [verdicts_unexpected]
      exact Nat.zero_le _
  | op :: right :: rest => by
    have hbefore := cx.verdicts_boundary_le q left op p.beforeOperator (cx.stepIn base)
    have hafter := cx.verdicts_boundary_le q op right p.afterOperator (cx.stepIn base)
    have hright := (hrest right (by simp)).operand base
    have hlater := verdicts_chain_le base false right rest fun t ht => hrest t (by simp [ht])
    rw [chain]
    split
    · rw [verdicts_unexpected]
      exact Nat.zero_le _
    · split
      · rw [verdicts_unexpected]
        exact Nat.zero_le _
      · simp only [verdicts_append, List.map_cons, List.sum_cons]
        omega

/-- A binary expression gives at most one verdict on each judged node in it. -/
theorem verdicts_binary_le (hfirst : Judged q cx p first) (hrest : ∀ t ∈ rest, Judged q cx p t)
    (base : Nat) :
    verdicts q (operand cx p base (.node .binaryExpr first rest)) ≤
      judged q (.node .binaryExpr first rest) := by
  have hoperand := hfirst.operand base
  have hchain := verdicts_chain_le base true first rest hrest
  rw [operand, judged_composite rfl]
  split
  · rw [verdicts_append]
    omega
  · simp

/-- A conditional gives at most one verdict on each judged node in it. -/
theorem verdicts_ternary_le (hfirst : Judged q cx p first) (hrest : ∀ t ∈ rest, Judged q cx p t)
    (base : Nat) :
    verdicts q (operand cx p base (.node .ternaryExpr first rest)) ≤
      judged q (.node .ternaryExpr first rest) := by
  have hoperand := hfirst.operand base
  rw [judged_composite rfl]
  unfold operand
  cases hshape : shapeFault? cx
    [.expression, .token .question, .expression, .token .colon, .expression] first rest with
  | some fault => simp only [hshape, verdicts_shapeFault? hshape, Nat.zero_le]
  | none =>
    simp only [hshape]
    rcases rest with _ | ⟨question, _ | ⟨yes, _ | ⟨colon, _ | ⟨no, _ | ⟨surplus, _⟩⟩⟩⟩⟩
    · exact Nat.zero_le _
    · exact Nat.zero_le _
    · exact Nat.zero_le _
    · exact Nat.zero_le _
    · have hbounds := verdicts_ternaryBoundaries_le q cx p (cx.stepIn base) first
        [question, yes, colon, no]
      have hyes := (hrest yes (by simp)).operand base
      have hno := (hrest no (by simp)).operand base
      simp only [verdicts_append, List.map_cons, List.map_nil, List.sum_cons, List.sum_nil]
        at hbounds ⊢
      omega
    · rw [verdicts_extra]
      exact Nat.zero_le _

/-- An index access gives at most one verdict on each judged node in it. -/
theorem verdicts_index_le (hfirst : Judged q cx p first) (hrest : ∀ t ∈ rest, Judged q cx p t)
    (base : Nat) :
    verdicts q (operand cx p base (.node .indexExpr first rest)) ≤
      judged q (.node .indexExpr first rest) := by
  have hoperand := hfirst.operand base
  rw [judged_composite rfl]
  unfold operand
  cases hshape : shapeFault? cx
    [.expression, .token .lBracket, .expression, .token .rBracket] first rest with
  | some fault => simp only [hshape, verdicts_shapeFault? hshape, Nat.zero_le]
  | none =>
    simp only [hshape]
    match rest, hrest with
    | [], _ | [_], _ | [_, _], _ => exact Nat.zero_le _
    | mark :: index :: close :: _, hrest =>
      have hline := verdicts_allOnLine_le q cx first [mark, index, close]
      have hindex := (hrest index (by simp)).operand base
      simp only [verdicts_append, List.map_cons, List.map_nil, List.sum_cons, List.sum_nil]
        at hline ⊢
      omega

/-- A call gives at most one verdict on each judged node in it. -/
theorem verdicts_call_le (hfirst : Judged q cx p first) (base : Nat) :
    verdicts q (operand cx p base (.node .callExpr first rest)) ≤
      judged q (.node .callExpr first rest) := by
  have hoperand := hfirst.operand base
  rw [judged_composite rfl]
  unfold operand
  cases hshape : shapeFault? cx [.expression, .arguments] first rest with
  | some fault => simp only [verdicts_shapeFault? hshape, Nat.zero_le]
  | none =>
    cases rest with
    | nil => exact Nat.zero_le _
    | cons arguments _ =>
      have hno := cx.verdicts_noWrap_le q first arguments
      simp only [verdicts_append, List.map_cons, List.sum_cons]
      omega

/-- A field access gives at most one verdict on each judged node in it. -/
theorem verdicts_fieldAccess_le (hfirst : Judged q cx p first) (base : Nat) :
    verdicts q (operand cx p base (.node .fieldAccess first rest)) ≤
      judged q (.node .fieldAccess first rest) := by
  have hoperand := hfirst.operand (cx.baseOf first)
  rw [judged_composite rfl]
  unfold operand
  cases hshape : shapeFault? cx [.expression, .token .dot, .token .identifier] first rest with
  | some fault => simp only [verdicts_shapeFault? hshape, Nat.zero_le]
  | none =>
    rcases rest with _ | ⟨dot, _ | ⟨name, _⟩⟩
    · exact Nat.zero_le _
    · exact Nat.zero_le _
    · have hdot := cx.verdicts_boundary_le q first dot p.selector (cx.stepIn (cx.baseOf first))
      have hname := cx.verdicts_noWrap_le q dot name
      simp only [verdicts_append, List.map_cons, List.sum_cons]
      omega

/-- A creation gives at most one verdict on each judged node in it. -/
theorem verdicts_creation_le (hrest : ∀ t ∈ rest, Judged q cx p t) (base : Nat) :
    verdicts q (operand cx p base (.node .newExpr first rest)) ≤
      judged q (.node .newExpr first rest) := by
  rw [judged_composite rfl]
  unfold operand
  cases hshape : shapeFault? cx [.token .kwNew, .type] first rest with
  | some fault => simp only [verdicts_shapeFault? hshape, Nat.zero_le]
  | none =>
    cases rest with
    | nil => exact Nat.zero_le _
    | cons type parts =>
      have htype := cx.verdicts_noWrap_le q first type
      have hoperand := (hrest type List.mem_cons_self).operand base
      have hparts := verdicts_creationParts_le q cx p base type parts
      simp only [verdicts_append, List.map_cons, List.sum_cons]
      omega

/-- One level of parentheses has a boundary before its content, and one before its closing mark. -/
theorem verdicts_level_le (q : Position) (cx : Context) (p : ExprPolicies) (base : Nat)
    (mark content close : Tree) (found : List Finding × Option Tree) :
    verdicts q (level cx p base mark content close found).1 ≤
      starts q content + verdicts q found.1 + starts q close := by
  have hopening := verdicts_opening_le q cx p base mark content
  obtain ⟨inside, last⟩ := found
  cases last with
  | none =>
    simp only [level, verdicts_append]
    omega
  | some prev =>
    have hclosing := verdicts_closing_le q cx p base mark content prev close
    simp only [level, verdicts_append]
    omega

/-- Parentheses give at most one verdict on each node after the opening mark and each judged node
inside. -/
theorem verdicts_parens_le (mark : Tree) (hrest : ∀ t ∈ rest, Judged q cx p t) (base : Nat) :
    verdicts q (parens cx p base mark rest).1 ≤
      (rest.map (starts q)).sum + (rest.map (judged q)).sum := by
  cases rest with
  | nil =>
    rw [parens]
    split <;> simp
  | cons content rest =>
    rw [parens_cons]
    cases hshape : shapeFault? cx [.token .lParen, .expression, .token .rParen] mark
      (content :: rest) with
    | some fault => simp only [verdicts_shapeFault? hshape, Nat.zero_le]
    | none =>
      cases rest with
      | nil => exact Nat.zero_le _
      | cons close _ =>
        have hinside := (hrest content List.mem_cons_self).inside base
        have hlevel := verdicts_level_le q cx p base mark content close (inside cx p base content)
        simp only [List.map_cons, List.sum_cons]
        omega

/-- Of a tree that is not entered, at most the lack of parentheses is found. -/
theorem judged_of_inert {t : Tree} (h : t.Inert) : Judged q cx p t where
  operand base := by
    rw [operand_of_inert h]
    exact Nat.zero_le _
  inside base := by
    rw [inside_of_inert h]
    split
    · rw [verdicts_missingFirst]
      exact Nat.zero_le _
    · exact Nat.zero_le _

/-- Of a tree no more is found than boundaries inside it allow. -/
theorem judged_of_tree (q : Position) (cx : Context) (p : ExprPolicies) (t : Tree) :
    Judged q cx p t := by
  induction t using Tree.children_induction with
  | token kind text pos => exact judged_of_inert fun h => nomatch h
  | empty kind pos => exact judged_of_inert fun h => nomatch h
  | node kind first rest hfirst hrest =>
    have hoperand : ∀ base, verdicts q (operand cx p base (.node kind first rest)) ≤
        judged q (.node kind first rest) := by
      intro base
      cases kind with
      | binaryExpr => exact verdicts_binary_le hfirst hrest base
      | unaryExpr =>
        have hone := hfirst.operand base
        have hothers := verdicts_operands_le hrest base
        rw [operand, judged_composite rfl, verdicts_append]
        omega
      | ternaryExpr => exact verdicts_ternary_le hfirst hrest base
      | indexExpr => exact verdicts_index_le hfirst hrest base
      | callExpr => exact verdicts_call_le hfirst base
      | fieldAccess => exact verdicts_fieldAccess_le hfirst base
      | parenExpr =>
        have hparens := verdicts_parens_le first hrest base
        rw [operand, judged_composite rfl]
        omega
      | newExpr => exact verdicts_creation_le hrest base
      | _ => exact Nat.zero_le _
    -- Only parentheses are looked into further than an operand is.
    refine ⟨hoperand, fun base => ?_⟩
    by_cases hkind : kind = .parenExpr
    · subst hkind
      exact hoperand base
    · rw [inside_of_ne hkind]
      exact hoperand base

/-- The expression checker reports no more layout findings at a place than boundaries allow. -/
theorem verdicts_check_le (q : Position) (cx : Context) (t : Tree) (base : Nat) (inline : Bool) :
    verdicts q (check cx t base inline) ≤ judged q t := by
  rw [check_eq]
  split
  · rw [verdicts_missingFirst]
    exact Nat.zero_le _
  · exact (judged_of_tree q cx _ t).operand base

end Expression

end TreeLayout
