import TreeLayout.Proofs.Expression.Conditional
import TreeLayout.Proofs.Tree.Leaves

/-!
# Operator chains

The operands of `a + b - c` can be the children of one construct, or the operands before each
operator can be a construct of their own, as in `(a + b) - c` without the parentheses. The
expression checker finds the same in both trees, in the same order
(`OperatorChain.check_nested_eq_flat`).

A chain is cut into groups of rounds, each an operator with the operand after it, and the operands
up to the end of a group are a construct (`OperatorChain.grouped`). One group gives the flat tree,
and a group for each round the nested one. The checker finds the same for all groupings
(`OperatorChain.operand_grouped`): what it finds in a round depends on the operands before the round
by their last leaf alone (`Expression.foundInRounds_congr`), and that is the last leaf of the
operand right before it.
-/

namespace TreeLayout

/-- An operator and the operand after it. -/
structure Round where
  operator : Tree
  operand : Tree
  operator_kind : operator.kind = .token .operator ∨ operator.kind = .token .assign
  operand_isExpression : operand.kind.isExpression = true

/-- The nodes of a round. -/
def Round.trees (r : Round) : List Tree := [r.operator, r.operand]

/-- An operand and at least one round. -/
structure OperatorChain where
  first : Tree
  rounds : List Round
  first_isExpression : first.kind.isExpression = true
  rounds_ne_nil : rounds ≠ []

namespace OperatorChain

/-- The chain as one construct with all operands. -/
def flat (c : OperatorChain) : Tree :=
  .node .binaryExpr c.first (c.rounds.flatMap Round.trees)

/-- The chain as a construct for each operator, with the operands before it in the construct of the
operator before. -/
def nested (c : OperatorChain) : Tree :=
  c.rounds.foldl (fun left r => .node .binaryExpr left [r.operator, r.operand]) c.first

/-- The chain cut into groups of rounds, with the operands up to the end of each group in a
construct. -/
def grouped (first : Tree) (groups : List (List Round)) : Tree :=
  groups.foldl (fun left group => .node .binaryExpr left (group.flatMap Round.trees)) first

/-- A flat chain has all its rounds in one group. -/
theorem flat_eq_grouped (c : OperatorChain) : c.flat = grouped c.first [c.rounds] := rfl

/-- A nested chain has a group for each round. -/
theorem nested_eq_grouped (c : OperatorChain) :
    c.nested = grouped c.first (c.rounds.map fun r => [r]) := by
  unfold nested grouped
  rw [List.foldl_map]
  rfl

end OperatorChain

/-! ## Rounds -/

namespace Expression

variable (cx : Context) (p : ExprPolicies) (base : Nat)

/-- What is found in a round after the operand `left`: at the boundaries before and after the
operator, and inside the operand. -/
def foundInRound (left : Tree) (r : Round) : List Finding :=
  cx.boundary p.beforeOperator left r.operator (cx.stepIn base)
    ++ cx.boundary p.afterOperator r.operator r.operand (cx.stepIn base)
    ++ operand cx p base r.operand

/-- What is found in the rounds after the operand `left`, each after the operand of the one
before. -/
def foundInRounds (left : Tree) : List Round → List Finding
  | [] => []
  | r :: rs => foundInRound cx p base left r ++ foundInRounds r.operand rs

/-- The operand that stands last when some rounds have followed the operand `left`. -/
def lastOperand (left : Tree) (rounds : List Round) : Tree :=
  rounds.foldl (fun _ r => r.operand) left

variable {cx p base}

/-- What is found in rounds is found in the first ones and then in the others, after their last
operand. -/
theorem foundInRounds_append (left : Tree) (rs rs' : List Round) :
    foundInRounds cx p base left (rs ++ rs') =
      foundInRounds cx p base left rs ++ foundInRounds cx p base (lastOperand left rs) rs' := by
  induction rs generalizing left with
  | nil => rfl
  | cons r rs ih =>
    rw [List.cons_append, foundInRounds, foundInRounds, ih, List.append_assoc]
    rfl

/-- The first round is about the last leaf before it, and the others are about the rounds before
them. -/
theorem foundInRounds_congr {left left' : Tree} (h : left'.rightmost = left.rightmost)
    (rounds : List Round) :
    foundInRounds cx p base left' rounds = foundInRounds cx p base left rounds := by
  cases rounds with
  | nil => rfl
  | cons r rounds =>
    simp only [foundInRounds, foundInRound]
    rw [Context.boundary_congr h rfl]

/-- A chain of well-formed rounds is checked to its end. -/
theorem chain_rounds (needed : Bool) (left : Tree) {rounds : List Round}
    (h : needed = true → rounds ≠ []) :
    chain cx p base needed left (rounds.flatMap Round.trees) =
      foundInRounds cx p base left rounds := by
  induction rounds generalizing needed left with
  | nil =>
    have hneeded : needed = false := by simpa using h
    rw [hneeded]
    rfl
  | cons r rounds ih =>
    have hoperator : Slot.operator.accepts r.operator.kind = true := by
      simpa [Slot.operator] using r.operator_kind
    have hlater := ih false r.operand nofun
    rw [List.flatMap_cons]
    simp only [Round.trees, List.cons_append, List.nil_append]
    rw [chain, foundInRounds, foundInRound, hoperator, r.operand_isExpression]
    simp only [Bool.not_true, Bool.false_eq_true, if_false]
    exact congrArg _ hlater

/-- What is found in a binary expression is found in its left operand and then in its rounds. -/
theorem operand_binary {left : Tree} (hleft : left.kind.isExpression = true) {group : List Round}
    (hne : group ≠ []) :
    operand cx p base (.node .binaryExpr left (group.flatMap Round.trees)) =
      operand cx p base left ++ foundInRounds cx p base left group := by
  rw [operand, if_pos hleft, chain_rounds true left fun _ => hne]

end Expression

/-! ## Groups -/

namespace Tree

/-- The last leaf of a construct is found after its first child has given way to a later one. -/
theorem rightmost_node_cons_cons (kind : ConstructKind) (first second third : Tree)
    (rest : List Tree) :
    (node kind first (second :: third :: rest)).rightmost = (node kind third rest).rightmost := by
  simp only [rightmost, rightmostAmong]
  cases rightmostAmong rest <;> rfl

/-- The last leaf of rounds is that of their last operand. -/
theorem rightmost_rounds (left : Tree) (rounds : List Round) :
    (node .binaryExpr left (rounds.flatMap Round.trees)).rightmost =
      (Expression.lastOperand left rounds).rightmost := by
  induction rounds generalizing left with
  | nil => rfl
  | cons r rounds ih =>
    rw [List.flatMap_cons]
    exact (rightmost_node_cons_cons _ left r.operator r.operand _).trans (ih r.operand)

/-- The leaves of a binary expression are those of the left operand and of the rounds. -/
theorem leaves_rounds (left : Tree) (rounds : List Round) :
    (node .binaryExpr left (rounds.flatMap Round.trees)).leaves =
      left.leaves ++ leavesAmong (rounds.flatMap Round.trees) := rfl

end Tree

namespace OperatorChain

open Expression

variable {cx : Context} {p : ExprPolicies} {base : Nat}

/-- However the rounds are grouped, what is found is what is found in the first operand and in the
rounds. -/
theorem operand_grouped (first : Tree) (hfirst : first.kind.isExpression = true)
    {groups : List (List Round)} (hne : ∀ group ∈ groups, group ≠ []) :
    operand cx p base (grouped first groups) =
      operand cx p base first ++ foundInRounds cx p base first groups.flatten := by
  induction groups generalizing first with
  | nil => simp [grouped, foundInRounds]
  | cons group groups ih =>
    obtain ⟨hgroup, hne⟩ := List.forall_mem_cons.1 hne
    -- The first group becomes the first operand of the others.
    have hlater := ih (.node .binaryExpr first (group.flatMap Round.trees)) rfl hne
    calc operand cx p base (grouped first (group :: groups))
        = operand cx p base (.node .binaryExpr first (group.flatMap Round.trees))
            ++ foundInRounds cx p base (.node .binaryExpr first (group.flatMap Round.trees))
              groups.flatten := hlater
      _ = operand cx p base first ++ foundInRounds cx p base first group
            ++ foundInRounds cx p base (lastOperand first group) groups.flatten := by
          rw [operand_binary hfirst hgroup, foundInRounds_congr (Tree.rightmost_rounds first group)]
      _ = operand cx p base first ++ foundInRounds cx p base first (group :: groups).flatten := by
          rw [List.flatten_cons, foundInRounds_append, List.append_assoc]

/-- However rounds are grouped, the leaves are the same. -/
theorem leaves_grouped (first : Tree) (groups : List (List Round)) :
    (grouped first groups).leaves =
      first.leaves ++ Tree.leavesAmong (groups.flatten.flatMap Round.trees) := by
  induction groups generalizing first with
  | nil => simp [grouped, Tree.leavesAmong]
  | cons group groups ih =>
    have hlater := ih (.node .binaryExpr first (group.flatMap Round.trees))
    rw [grouped, List.foldl_cons, ← grouped, hlater, Tree.leaves_rounds, List.flatten_cons,
      List.flatMap_append, Tree.leavesAmong_eq_flatMap, Tree.leavesAmong_eq_flatMap,
      Tree.leavesAmong_eq_flatMap, List.flatMap_append, List.append_assoc]

/-- However rounds are grouped, there are children if the first operand has some. -/
theorem hasChildren_grouped (first : Tree) (h : first.hasChildren = true)
    (groups : List (List Round)) : (grouped first groups).hasChildren = true := by
  induction groups generalizing first with
  | nil => exact h
  | cons group groups ih =>
    exact ih (.node .binaryExpr first (group.flatMap Round.trees)) rfl

/-- A grouping into at least one group is checked as an operand, since it is a construct with
children. -/
theorem check_grouped {first : Tree} (hfirst : first.kind.isExpression = true)
    {groups : List (List Round)} (hgroups : groups ≠ []) (hne : ∀ group ∈ groups, group ≠ [])
    (inline : Bool) :
    check cx (grouped first groups) base inline =
      operand cx (.ofSettings cx.settings inline) base first
        ++ foundInRounds cx (.ofSettings cx.settings inline) base first groups.flatten := by
  have hchildren : (grouped first groups).hasChildren = true := by
    cases groups with
    | nil => exact absurd rfl hgroups
    | cons group groups =>
      exact hasChildren_grouped (.node .binaryExpr first (group.flatMap Round.trees)) rfl groups
  rw [← operand_grouped first hfirst hne]
  cases hnode : grouped first groups with
  | token | empty =>
    rw [hnode] at hchildren
    cases hchildren
  | node => rfl

/-- A chain with all operands in one construct and a chain with a construct for each operator have
the same leaves, and the same is found in them: what is found in the first operand, and then round
by round at the two boundaries of the operator and in the operand after it. -/
theorem check_nested_eq_flat (c : OperatorChain) (cx : Context) (base : Nat) (inline : Bool) :
    check cx c.nested base inline = check cx c.flat base inline ∧
      check cx c.flat base inline =
        operand cx (.ofSettings cx.settings inline) base c.first
          ++ foundInRounds cx (.ofSettings cx.settings inline) base c.first c.rounds ∧
      c.nested.leaves = c.flat.leaves := by
  have hflat : check cx (grouped c.first [c.rounds]) base inline = _ :=
    check_grouped c.first_isExpression (List.cons_ne_nil _ _)
      (List.forall_mem_singleton.2 c.rounds_ne_nil) inline
  have hnested : check cx (grouped c.first (c.rounds.map fun r => [r])) base inline = _ :=
    check_grouped c.first_isExpression (by simpa using c.rounds_ne_nil) (by simp) inline
  -- Both groupings have the rounds of the chain, in their order.
  have hrounds : (c.rounds.map fun r => [r]).flatten = c.rounds := by
    rw [← List.flatMap_def, List.flatMap_singleton']
  rw [List.flatten_singleton, ← flat_eq_grouped] at hflat
  rw [hrounds, ← nested_eq_grouped] at hnested
  refine ⟨hnested.trans hflat.symm, hflat, ?_⟩
  calc c.nested.leaves
      = c.first.leaves ++ Tree.leavesAmong (c.rounds.flatMap Round.trees) := by
        rw [nested_eq_grouped, leaves_grouped, hrounds]
    _ = c.flat.leaves := rfl

/-- A sum of three names, each on a line of its own. -/
def sumOverLines : OperatorChain where
  first := .token .identifier "a" ⟨1, 0⟩
  rounds :=
    [⟨.token .operator "+" ⟨2, 4⟩, .token .identifier "b" ⟨2, 6⟩, .inl rfl, rfl⟩,
      ⟨.token .operator "+" ⟨3, 3⟩, .token .identifier "c" ⟨3, 5⟩, .inl rfl, rfl⟩]
  first_isExpression := rfl
  rounds_ne_nil := List.cons_ne_nil _ _

/-- The second operator of the sum is one column too far to the left, in the nested tree too. -/
theorem check_nested_eq_flat_sum :
    (check ⟨.ofString "a\n    + b\n   + c" 4, .default⟩ sumOverLines.nested 0 false).map
      Finding.message = [.column "+" 5 4] := by
  rw [(check_nested_eq_flat sumOverLines _ 0 false).1]
  decide +kernel

end OperatorChain

end TreeLayout
