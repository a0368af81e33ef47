import TreeLayout.Proofs.Variation.Walk

/-!
# The boundaries of conditional expressions

A conditional expression `a ? b : c` has four boundaries. Those before the marks go by the policy
for marks. Those after the marks may wrap if a construct follows, and go by the policy for marks if
a token does (`conditional_boundaries`). So what is found there differs from what is found where all
operands after marks may wrap exactly if the policy forbids that a token is where it is, on the line
of its mark or below it (`Conditional.law_eq_iff`). A name as an operand is then reported, and a
construct that starts and ends with it is not (`conditional_reports_token`).

Two lists of findings at the four boundaries are told apart by the findings that are not about a
column: where a line may wrap there are none of these (`Context.wrongWraps_boundary`).
-/

namespace TreeLayout

/-- Whether a policy permits that a line is wrapped, or that it is not. -/
def WrapPolicy.permits : WrapPolicy → (wrapped : Bool) → Bool
  | .no, wrapped => !wrapped
  | .may, _ => true
  | .must, wrapped => wrapped

/-! ## Boundaries -/

/-- The number of findings that a line is wrapped, or is not, against a policy. -/
def wrongWraps (fs : List Finding) : Nat :=
  fs.countP fun f => f.message.rule = .sameLine || f.message.rule = .mustWrap

/-- The wrong wraps that are found in two places add up. -/
@[simp] theorem wrongWraps_append (fs gs : List Finding) :
    wrongWraps (fs ++ gs) = wrongWraps fs + wrongWraps gs :=
  List.countP_append

namespace Context

variable (cx : Context) (policy : WrapPolicy) (prev next : Tree) (column : Nat)

/-- A wrong column is no wrong wrap. -/
theorem wrongWraps_expectColumn : wrongWraps (cx.expectColumn next column) = 0 := by
  simp only [expectColumn]
  split <;> rfl

/-- One such finding is made where the policy does not permit what is there. -/
theorem wrongWraps_boundary :
    wrongWraps (cx.boundary policy prev next column) =
      if policy.permits (!sameLine prev next) then 0 else 1 := by
  have hcolumn := cx.wrongWraps_expectColumn next column
  cases policy with
  | no =>
    simp only [boundary, noWrap, WrapPolicy.permits]
    cases sameLine prev next <;> rfl
  | may =>
    simp only [boundary, mayWrap, WrapPolicy.permits]
    cases sameLine prev next
    · exact hcolumn
    · rfl
  | must =>
    simp only [boundary, mustWrap, WrapPolicy.permits]
    cases sameLine prev next
    · exact hcolumn
    · rfl

/-- What a policy permits is found to be as where the line may wrap. -/
theorem boundary_eq_may (h : policy.permits (!sameLine prev next) = true) :
    cx.boundary policy prev next column = cx.boundary .may prev next column := by
  cases policy with
  | no =>
    have hsame : sameLine prev next = true := by simpa [WrapPolicy.permits] using h
    simp only [boundary, noWrap, mayWrap, hsame, if_true]
  | may => rfl
  | must =>
    have hsame : sameLine prev next = false := by simpa [WrapPolicy.permits] using h
    simp [boundary, mustWrap, mayWrap, hsame]

/-- A boundary is about the last leaf before it and the first one after it. -/
theorem boundary_ends :
    cx.boundary policy prev.rightmost next.leftmost column =
      cx.boundary policy prev next column := by
  have hpos : next.leftmost.line = next.line := by rw [Tree.line, Tree.pos_leftmost, Tree.line]
  have hsame : sameLine prev.rightmost next.leftmost = sameLine prev next := by
    rw [sameLine, sameLine, Tree.rightmost_rightmost, hpos]
  have hline : cx.sameLineViolation prev.rightmost next.leftmost =
      cx.sameLineViolation prev next := by
    rw [sameLineViolation, sameLineViolation, finding_leftmost, Tree.rightmost_rightmost,
      Tree.leftmost_leftmost]
  have hwrap : cx.mustWrapViolation next.leftmost column = cx.mustWrapViolation next column := by
    rw [mustWrapViolation, mustWrapViolation, finding_leftmost, Tree.leftmost_leftmost]
  cases policy with
  | no => rw [boundary, boundary, noWrap, noWrap, hsame, hline]
  | may => rw [boundary, boundary, mayWrap, mayWrap, hsame, expectColumn_leftmost]
  | must => rw [boundary, boundary, mustWrap, mustWrap, hsame, hwrap, expectColumn_leftmost]

variable {cx policy prev next column}

/-- Where the leaves at a boundary are the same, the same is found. -/
theorem boundary_congr {prev' next' : Tree} (hprev : prev'.rightmost = prev.rightmost)
    (hnext : next'.leftmost = next.leftmost) :
    cx.boundary policy prev' next' column = cx.boundary policy prev next column := by
  rw [← boundary_ends, hprev, hnext, boundary_ends]

end Context

/-! ## Four boundaries -/

/-- The parts of a conditional expression. -/
structure Conditional where
  condition : Tree
  question : Tree
  yes : Tree
  colon : Tree
  no : Tree
  condition_isExpression : condition.kind.isExpression = true
  question_kind : question.kind = .token .question
  yes_isExpression : yes.kind.isExpression = true
  colon_kind : colon.kind = .token .colon
  no_isExpression : no.kind.isExpression = true

/-- The policy of the boundary between a mark and an operand. -/
def policyAfterMark (s : LayoutSettings) (operand : Tree) : WrapPolicy :=
  if operand.isToken then s.wrap .ternary else .may

/-- The boundary between a mark and an operand is as if it might wrap: the operand is no token, or
it stands where the policy for marks permits it. -/
def WrapsFreely (s : LayoutSettings) (mark operand : Tree) : Prop :=
  operand.isToken = true → (s.wrap .ternary).permits (!sameLine mark operand) = true

namespace Conditional

variable (c : Conditional) (cx : Context) (base : Nat)

/-- The expression of the parts. -/
def tree : Tree := .node .ternaryExpr c.condition [c.question, c.yes, c.colon, c.no]

/-- What is found at the boundaries of a conditional expression that is not inline. -/
def found : List Finding :=
  Expression.ternaryBoundaries cx (.ofSettings cx.settings false) (cx.stepIn base) c.condition
    [c.question, c.yes, c.colon, c.no]

/-- What is to be found there under the policy for marks before the marks, and under given policies
after them. -/
def law (afterQuestion afterColon : WrapPolicy) : List Finding :=
  cx.boundary (cx.settings.wrap .ternary) c.condition c.question (cx.stepIn base)
    ++ cx.boundary afterQuestion c.question c.yes (cx.stepIn base)
    ++ cx.boundary (cx.settings.wrap .ternary) c.yes c.colon (cx.stepIn base)
    ++ cx.boundary afterColon c.colon c.no (cx.stepIn base)

/-- Two conditional expressions have the same marks, and operands that start and end with the same
leaves. -/
structure SameEnds (c d : Conditional) : Prop where
  condition : c.condition.rightmost = d.condition.rightmost
  question : c.question = d.question
  yes_first : c.yes.leftmost = d.yes.leftmost
  yes_last : c.yes.rightmost = d.yes.rightmost
  colon : c.colon = d.colon
  no : c.no.leftmost = d.no.leftmost

/-- The expression has its shape, so its boundaries and operands are checked. -/
theorem check_tree :
    Expression.check cx c.tree base false =
      c.found cx base
        ++ Expression.operand cx (.ofSettings cx.settings false) base c.condition
        ++ Expression.operand cx (.ofSettings cx.settings false) base c.yes
        ++ Expression.operand cx (.ofSettings cx.settings false) base c.no := by
  have hshape : Expression.shapeFault? cx
      [.expression, .token .question, .expression, .token .colon, .expression] c.condition
      [c.question, c.yes, c.colon, c.no] = none := by
    simp [Expression.shapeFault?, Expression.fault?, Expression.Slot.expression,
      Expression.Slot.token, c.condition_isExpression, c.question_kind, c.yes_isExpression,
      c.colon_kind, c.no_isExpression]
  simp only [Expression.check, tree, Expression.operand, hshape, found]

/-- The marks are tokens, so the policies after them alone depend on the operands. -/
theorem found_eq_law :
    c.found cx base =
      c.law cx base (policyAfterMark cx.settings c.yes) (policyAfterMark cx.settings c.no) := by
  have hquestion : c.question.isToken = true := by
    rw [Tree.isToken_eq_kind, c.question_kind, Kind.isToken]
  have hcolon : c.colon.isToken = true := by
    rw [Tree.isToken_eq_kind, c.colon_kind, Kind.isToken]
  simp [found, law, Expression.ternaryBoundaries, policyAfterMark, hquestion, hcolon,
    ExprPolicies.ofSettings]

variable {c cx base}

/-- The law is about the leaves at the boundaries. -/
theorem SameEnds.law_eq {d : Conditional} (h : c.SameEnds d)
    (afterQuestion afterColon : WrapPolicy) :
    c.law cx base afterQuestion afterColon = d.law cx base afterQuestion afterColon := by
  rw [law, law, h.question, h.colon, Context.boundary_congr h.condition rfl,
    Context.boundary_congr rfl h.yes_first, Context.boundary_congr h.yes_last rfl,
    Context.boundary_congr rfl h.no]

end Conditional

/-! ## After the marks -/

section AfterMarks

variable {cx : Context} {mark operand : Tree} {column : Nat}

/-- Where wraps are free, nothing else is found than if the policy let the operand wrap. -/
theorem boundary_policyAfterMark (h : WrapsFreely cx.settings mark operand) :
    cx.boundary (policyAfterMark cx.settings operand) mark operand column =
      cx.boundary .may mark operand column := by
  unfold policyAfterMark
  split
  · rename_i htoken
    exact cx.boundary_eq_may _ mark operand column (h htoken)
  · rfl

/-- Where no finding is against the line of the operand, the boundary is as if it might wrap. -/
theorem wrapsFreely_of_wrongWraps
    (h : wrongWraps (cx.boundary (policyAfterMark cx.settings operand) mark operand column) = 0) :
    WrapsFreely cx.settings mark operand := by
  intro htoken
  rw [policyAfterMark, if_pos htoken, Context.wrongWraps_boundary] at h
  by_contra hforbidden
  rw [if_neg hforbidden] at h
  cases h

end AfterMarks

/-- What is found is as if both operands after marks might wrap exactly if both do so freely. -/
theorem Conditional.law_eq_iff {c : Conditional} {cx : Context} {base : Nat} :
    c.law cx base (policyAfterMark cx.settings c.yes) (policyAfterMark cx.settings c.no) =
        c.law cx base .may .may ↔
      WrapsFreely cx.settings c.question c.yes ∧ WrapsFreely cx.settings c.colon c.no := by
  constructor
  · intro h
    -- Where a line may wrap there is no finding against it, so there is none on the other side.
    have hmay : ∀ mark operand : Tree,
        wrongWraps (cx.boundary .may mark operand (cx.stepIn base)) = 0 := fun mark operand => by
      rw [Context.wrongWraps_boundary]
      rfl
    have hcount := congrArg wrongWraps h
    simp only [law, wrongWraps_append, hmay] at hcount
    have hyes : wrongWraps (cx.boundary (policyAfterMark cx.settings c.yes) c.question c.yes
        (cx.stepIn base)) = 0 := by omega
    have hno : wrongWraps (cx.boundary (policyAfterMark cx.settings c.no) c.colon c.no
        (cx.stepIn base)) = 0 := by omega
    exact ⟨wrapsFreely_of_wrongWraps hyes, wrapsFreely_of_wrongWraps hno⟩
  · rintro ⟨hyes, hno⟩
    rw [law, law, boundary_policyAfterMark hyes, boundary_policyAfterMark hno]

/-- The boundaries of a conditional expression that is not inline. A line ends before a mark by the
policy for marks; after a mark it does so by the same policy if a token follows, and it may end if a
construct does. This is as if it might end after both marks exactly if each operand there that is a
token stands where the policy for marks permits it. Of the operands only their ends matter, and
whether they are tokens. -/
theorem conditional_boundaries (c : Conditional) (cx : Context) (base : Nat) :
    Expression.check cx c.tree base false =
        c.found cx base
          ++ Expression.operand cx (.ofSettings cx.settings false) base c.condition
          ++ Expression.operand cx (.ofSettings cx.settings false) base c.yes
          ++ Expression.operand cx (.ofSettings cx.settings false) base c.no ∧
      c.found cx base =
        c.law cx base (policyAfterMark cx.settings c.yes) (policyAfterMark cx.settings c.no) ∧
      (c.found cx base = c.law cx base .may .may ↔
        WrapsFreely cx.settings c.question c.yes ∧ WrapsFreely cx.settings c.colon c.no) ∧
      ∀ d : Conditional, d.SameEnds c →
        d.found cx base =
          c.law cx base (policyAfterMark cx.settings d.yes) (policyAfterMark cx.settings d.no) := by
  refine ⟨c.check_tree cx base, c.found_eq_law cx base, ?_, fun d hends => ?_⟩
  · rw [c.found_eq_law]
    exact Conditional.law_eq_iff
  · rw [d.found_eq_law, hends.law_eq]

/-! ## Names and constructs after marks -/

/-- A condition, and a mark and a name on each of two further lines. Lines are to end before marks,
and else as by default. -/
def branchesContext : Context where
  source := .ofString "c\n    ? x\n    : y" 4
  settings :=
    { LayoutSettings.default with
      wrap := fun
        | .ternary => .must
        | b => LayoutSettings.default.wrap b }

/-- The conditional expression with the two names. -/
def namedBranches : Conditional where
  condition := .token .identifier "c" ⟨1, 0⟩
  question := .token .question "?" ⟨2, 4⟩
  yes := .token .identifier "x" ⟨2, 6⟩
  colon := .token .colon ":" ⟨3, 4⟩
  no := .token .identifier "y" ⟨3, 6⟩
  condition_isExpression := rfl
  question_kind := rfl
  yes_isExpression := rfl
  colon_kind := rfl
  no_isExpression := rfl

/-- The same expression with each of the names after marks in a construct. -/
def builtBranches : Conditional :=
  { namedBranches with
    yes := .node .unaryExpr namedBranches.yes []
    no := .node .unaryExpr namedBranches.no []
    yes_isExpression := rfl
    no_isExpression := rfl }

/-- What is found with the constructs is what is to be found with the names where both may wrap. -/
theorem conditional_boundaries_built :
    builtBranches.found branchesContext 0 = namedBranches.law branchesContext 0 .may .may := by
  obtain ⟨-, -, -, hends⟩ := conditional_boundaries namedBranches branchesContext 0
  exact hends builtBranches ⟨rfl, rfl, rfl, rfl, rfl, rfl⟩

/-- Two names after marks are to start lines of their own, and constructs in their places, which
start and end with the same tokens, are not. -/
theorem conditional_reports_token :
    ∃ (cx : Context) (c d : Conditional), d.SameEnds c ∧ c.law cx 0 .may .may = [] ∧
      Expression.check cx d.tree 0 false = [] ∧
      (Expression.check cx c.tree 0 false).map Finding.message =
        [.mustWrap "x", .mustWrap "y"] := by
  refine ⟨branchesContext, namedBranches, builtBranches, ⟨rfl, rfl, rfl, rfl, rfl, rfl⟩, ?_, ?_, ?_⟩
  · decide +kernel
  · decide +kernel
  · decide +kernel

end TreeLayout
