import Mathlib.Tactic.Tauto
import TreeLayout.Proofs.Expression.Forms
import TreeLayout.Proofs.Tree.Leaves

/-!
# What all findings in an expression have in common

A property of findings goes from single boundary checks to all findings of the expression checker
(`Carries.check`). The checker is asked about trees with a property `good` that their children have
too, about boundaries between siblings, the first of which is `near` the second, and about columns
that are `level`: the indentation of a line, or one level more. There is one lemma per form of
expression, and an induction over the tree puts them together (`Carries.settled`).
-/

namespace TreeLayout

/-- The property `P` of findings holds of the checks of good trees, boundaries between near trees
and level columns. -/
structure Carries (cx : Context) (good : Tree → Prop) (near : Tree → Tree → Prop)
    (level : Nat → Prop) (P : Finding → Prop) : Prop where
  /-- Children of good trees are good. -/
  children {t c : Tree} : good t → c ∈ t.children → good c
  /-- A child is near each later one. -/
  siblings {t : Tree} : good t → t.children.Pairwise near
  /-- What stands in a near tree is near. -/
  inner {a b c : Tree} : near a b → c.leaves ⊆ a.leaves → near c b
  /-- The line of a good tree has a level indentation, and so has the level below it. -/
  base {t : Tree} : good t → level (cx.baseOf t) ∧ level (cx.stepIn (cx.baseOf t))
  /-- The property holds of what is wrong with the shape of a good tree. -/
  structural {t : Tree} {message : Message} : good t → message.isStructural = true →
    P (cx.finding t message none)
  /-- The property holds where a good tree does not share a line. -/
  sameLine {prev next : Tree} : good next → P (cx.sameLineViolation prev next)
  /-- The property holds where a good tree does not stand in a level column. -/
  column {next : Tree} {c : Nat} : good next → level c → ∀ f ∈ cx.expectColumn next c, P f
  /-- The property holds where a good tree does not start a line. -/
  wrap {prev next : Tree} {c : Nat} : good next → near prev next → level c →
    ∀ f ∈ cx.mustWrap prev next c, P f

namespace Carries

open Expression

variable {cx : Context} {good : Tree → Prop} {near : Tree → Tree → Prop} {level : Nat → Prop}
  {P : Finding → Prop} {prev next t : Tree} {column : Nat}

/-! ## Boundaries -/

/-- What is found where two nodes have to share a line has the property. -/
theorem noWrap (h : Carries cx good near level P) (hnext : good next) :
    ∀ f ∈ cx.noWrap prev next, P f := by
  unfold Context.noWrap
  split
  · simp
  · simpa using h.sameLine hnext

/-- What is found where a node may wrap to a level has the property. -/
theorem mayWrap (h : Carries cx good near level P) (hnext : good next) (hcolumn : level column) :
    ∀ f ∈ cx.mayWrap prev next column, P f := by
  unfold Context.mayWrap
  split
  · simp
  · exact h.column hnext hcolumn

/-- What is found at a boundary under a policy has the property. -/
theorem boundary (h : Carries cx good near level P) (policy : WrapPolicy) (hnext : good next)
    (hnear : near prev next) (hcolumn : level column) :
    ∀ f ∈ cx.boundary policy prev next column, P f := by
  cases policy with
  | no => exact h.noWrap hnext
  | may => exact h.mayWrap hnext hcolumn
  | must => exact h.wrap hnext hnear hcolumn

/-- The finding that a child has the wrong kind has the property. -/
theorem unexpected (h : Carries cx good near level P) (ht : good t) (expected : String) :
    P (cx.unexpected t expected) :=
  h.structural ht rfl

/-- The finding that a child is surplus has the property. -/
theorem extra (h : Carries cx good near level P) (ht : good t) : P (cx.extra t) :=
  h.structural ht rfl

/-- The finding that the first child is missing has the property. -/
theorem missingFirst (h : Carries cx good near level P) (ht : good t) : P (cx.missingFirst t) :=
  h.structural ht rfl

/-- The finding that a child is missing after another one has the property. -/
theorem missingAfter (h : Carries cx good near level P) (ht : good t) :
    P (missingAfter cx t) :=
  h.structural ht rfl

/-- The first child that does not fit its slot is a finding with the property. -/
theorem fault? (h : Carries cx good near level P) {slots : List Slot} {ts : List Tree}
    {fault : Finding} (ht : good t) (hts : ∀ c ∈ ts, good c)
    (hfault : Expression.fault? cx t slots ts = some fault) : P fault := by
  induction slots generalizing t ts with
  | nil =>
    rw [Expression.fault?] at hfault
    cases hfault
  | cons slot slots ih =>
    cases ts with
    | nil =>
      rw [Expression.fault?, Option.some.injEq] at hfault
      exact hfault ▸ h.missingAfter ht
    | cons child ts =>
      obtain ⟨hchild, hts⟩ := List.forall_mem_cons.1 hts
      rw [Expression.fault?] at hfault
      split at hfault
      · exact ih hchild hts hfault
      · exact Option.some.inj hfault ▸ h.unexpected hchild slot.expected

/-- A node that does not fit its slots is a finding with the property. -/
theorem shapeFault? (h : Carries cx good near level P) {slots : List Slot} {first : Tree}
    {rest : List Tree} {fault : Finding} (hgood : ∀ c ∈ first :: rest, good c)
    (hfault : Expression.shapeFault? cx slots first rest = some fault) : P fault := by
  obtain ⟨hfirst, hrest⟩ := List.forall_mem_cons.1 hgood
  cases slots with
  | nil => cases hfault
  | cons slot slots =>
    rw [Expression.shapeFault?] at hfault
    split at hfault
    · exact h.fault? hfirst hrest hfault
    · exact Option.some.inj hfault ▸ h.unexpected hfirst slot.expected

/-! ## Forms of expressions -/

/-- A base is level if it is a level column, and one level more is one too. -/
def LevelBase (cx : Context) (level : Nat → Prop) (base : Nat) : Prop :=
  level base ∧ level (cx.stepIn base)

/-- The property holds of what is found in a tree, both as an operand and as the content of
parentheses. What stands before the closing mark stands in the tree. -/
structure Settled (cx : Context) (level : Nat → Prop) (P : Finding → Prop) (p : ExprPolicies)
    (t : Tree) : Prop where
  /-- As an operand. -/
  operand {base : Nat} : LevelBase cx level base → ∀ f ∈ Expression.operand cx p base t, P f
  /-- As the content of parentheses. -/
  inside {base : Nat} : LevelBase cx level base → ∀ f ∈ (Expression.inside cx p base t).1, P f
  /-- The node before the closing mark. -/
  last {base : Nat} {last : Tree} : (Expression.inside cx p base t).2 = some last →
    last.leaves ⊆ t.leaves

variable {p : ExprPolicies} {base : Nat} {first : Tree} {rest : List Tree}

/-- What is found in operands has the property. -/
theorem operands (hrest : ∀ t ∈ rest, Settled cx level P p t) (hbase : LevelBase cx level base) :
    ∀ f ∈ Expression.operands cx p base rest, P f := by
  induction rest with
  | nil => simp [Expression.operands]
  | cons t ts ih =>
    obtain ⟨ht, hts⟩ := List.forall_mem_cons.1 hrest
    rw [Expression.operands, List.forall_mem_append]
    exact ⟨ht.operand hbase, ih hts⟩

/-- What is found where tokens have to share a line has the property. -/
theorem allOnLine (h : Carries cx good near level P) (hrest : ∀ t ∈ rest, good t) :
    ∀ f ∈ Expression.allOnLine cx prev rest, P f := by
  induction rest generalizing prev with
  | nil => simp [Expression.allOnLine]
  | cons next rest ih =>
    obtain ⟨hnext, hrest⟩ := List.forall_mem_cons.1 hrest
    rw [Expression.allOnLine, List.forall_mem_append]
    exact ⟨h.noWrap hnext, ih hrest⟩

/-- What is found at the boundaries of a conditional has the property. -/
theorem ternaryBoundaries (h : Carries cx good near level P) (hrest : ∀ t ∈ rest, good t)
    (hnear : (prev :: rest).Pairwise near) (hcolumn : level column) :
    ∀ f ∈ Expression.ternaryBoundaries cx p column prev rest, P f := by
  induction rest generalizing prev with
  | nil => simp [Expression.ternaryBoundaries]
  | cons next rest ih =>
    obtain ⟨hnext, hrest⟩ := List.forall_mem_cons.1 hrest
    obtain ⟨hprev, hlater⟩ := List.pairwise_cons.1 hnear
    rw [Expression.ternaryBoundaries, List.forall_mem_append]
    exact ⟨h.boundary _ hnext (hprev next List.mem_cons_self) hcolumn, ih hrest hlater⟩

/-- What is found at the boundaries of a creation has the property. -/
theorem creationParts (h : Carries cx good near level P) (hrest : ∀ t ∈ rest, good t)
    (hnear : (prev :: rest).Pairwise near) (hbase : level base) :
    ∀ f ∈ Expression.creationParts cx p base prev rest, P f := by
  induction rest generalizing prev with
  | nil => simp [Expression.creationParts]
  | cons child rest ih =>
    obtain ⟨hchild, hrest⟩ := List.forall_mem_cons.1 hrest
    obtain ⟨hprev, hlater⟩ := List.pairwise_cons.1 hnear
    have hline : ∀ f ∈ cx.noWrap prev child ++ Expression.creationParts cx p base child rest, P f :=
      List.forall_mem_append.2 ⟨h.noWrap hchild, ih hrest hlater⟩
    rw [Expression.creationParts]
    split
    · rw [List.forall_mem_append]
      exact ⟨h.boundary _ hchild (hprev child List.mem_cons_self) hbase, ih hrest hlater⟩
    · exact hline
    · exact hline
    · exact hline
    · simpa using h.unexpected hchild "("

/-- What is found in a chain of operators has the property. -/
theorem chain (h : Carries cx good near level P) (hbase : LevelBase cx level base) (needed : Bool)
    (left : Tree) (rest : List Tree) (hgood : ∀ t ∈ left :: rest, good t)
    (hnear : (left :: rest).Pairwise near) (hrest : ∀ t ∈ rest, Settled cx level P p t) :
    ∀ f ∈ Expression.chain cx p base needed left rest, P f :=
  match rest with
  | [] => by
    rw [Expression.chain]
    split
    · simpa using h.missingAfter (hgood left List.mem_cons_self)
    · simp
  | [op] => by
    have hop : good op := hgood op (by simp)
    rw [Expression.chain]
    split
    · simpa using h.missingAfter hop
    · simpa using h.unexpected hop "operator"
  | op :: right :: rest => by
    have hop : good op := hgood op (by simp)
    have hright : good right := hgood right (by simp)
    obtain ⟨hleft, hlater⟩ := List.pairwise_cons.1 hnear
    obtain ⟨hafter, hlater⟩ := List.pairwise_cons.1 hlater
    have hrestOp := h.chain hbase false right rest (fun t ht => hgood t (by simp_all)) hlater
      fun t ht => hrest t (by simp [ht])
    rw [Expression.chain]
    split
    · simpa using h.unexpected hop "operator"
    · split
      · simpa using h.unexpected hright "expression"
      · simp only [List.forall_mem_append]
        exact ⟨⟨⟨h.boundary _ hop (hleft op List.mem_cons_self) hbase.2,
          h.boundary _ hright (hafter right List.mem_cons_self) hbase.2⟩,
          (hrest right (by simp)).operand hbase⟩, hrestOp⟩

/-- What is found in a binary expression has the property. -/
theorem binary (h : Carries cx good near level P) (ht : good (.node .binaryExpr first rest))
    (hfirst : Settled cx level P p first) (hrest : ∀ t ∈ rest, Settled cx level P p t)
    (hbase : LevelBase cx level base) :
    ∀ f ∈ Expression.operand cx p base (.node .binaryExpr first rest), P f := by
  have hgood : ∀ t ∈ first :: rest, good t := fun t => h.children ht
  rw [Expression.operand]
  split
  · rw [List.forall_mem_append]
    exact ⟨hfirst.operand hbase, h.chain hbase true first rest hgood (h.siblings ht) hrest⟩
  · simpa using h.unexpected (hgood first List.mem_cons_self) "expression"

/-- What is found in a conditional has the property. -/
theorem ternary (h : Carries cx good near level P) (ht : good (.node .ternaryExpr first rest))
    (hfirst : Settled cx level P p first) (hrest : ∀ t ∈ rest, Settled cx level P p t)
    (hbase : LevelBase cx level base) :
    ∀ f ∈ Expression.operand cx p base (.node .ternaryExpr first rest), P f := by
  have hgood : ∀ t ∈ first :: rest, good t := fun t => h.children ht
  have hnear : (first :: rest).Pairwise near := h.siblings ht
  unfold Expression.operand
  cases hshape : Expression.shapeFault? cx
    [.expression, .token .question, .expression, .token .colon, .expression] first rest with
  | some fault => simpa only [hshape, List.forall_mem_singleton] using h.shapeFault? hgood hshape
  | none =>
    simp only [hshape]
    rcases rest with _ | ⟨question, _ | ⟨yes, _ | ⟨colon, _ | ⟨no, _ | ⟨surplus, _⟩⟩⟩⟩⟩
    · simp
    · simp
    · simp
    · simp
    · simp only [List.forall_mem_append]
      exact ⟨⟨⟨h.ternaryBoundaries (List.forall_mem_cons.1 hgood).2 hnear hbase.2,
        hfirst.operand hbase⟩, (hrest yes (by simp)).operand hbase⟩,
        (hrest no (by simp)).operand hbase⟩
    · simpa using h.extra (hgood surplus (by simp))

/-- What is found in an index access has the property. -/
theorem index (h : Carries cx good near level P) (ht : good (.node .indexExpr first rest))
    (hfirst : Settled cx level P p first) (hrest : ∀ t ∈ rest, Settled cx level P p t)
    (hbase : LevelBase cx level base) :
    ∀ f ∈ Expression.operand cx p base (.node .indexExpr first rest), P f := by
  have hgood : ∀ t ∈ first :: rest, good t := fun t => h.children ht
  unfold Expression.operand
  cases hshape : Expression.shapeFault? cx
    [.expression, .token .lBracket, .expression, .token .rBracket] first rest with
  | some fault => simpa only [hshape, List.forall_mem_singleton] using h.shapeFault? hgood hshape
  | none =>
    simp only [hshape]
    match rest, hgood, hrest with
    | [], _, _ | [_], _, _ | [_, _], _, _ => simp
    | mark :: index :: close :: _, hgood, hrest =>
      simp only [List.forall_mem_append]
      have hline : ∀ t ∈ [mark, index, close], good t := by
        intro t ht
        exact hgood t (by simp only [List.mem_cons, List.not_mem_nil, or_false] at ht ⊢; tauto)
      exact ⟨⟨h.allOnLine hline, hfirst.operand hbase⟩, (hrest index (by simp)).operand hbase⟩

/-- What is found in a call has the property. -/
theorem call (h : Carries cx good near level P) (ht : good (.node .callExpr first rest))
    (hfirst : Settled cx level P p first) (hbase : LevelBase cx level base) :
    ∀ f ∈ Expression.operand cx p base (.node .callExpr first rest), P f := by
  have hgood : ∀ t ∈ first :: rest, good t := fun t => h.children ht
  unfold Expression.operand
  cases hshape : Expression.shapeFault? cx [.expression, .arguments] first rest with
  | some fault => simpa only [hshape, List.forall_mem_singleton] using h.shapeFault? hgood hshape
  | none =>
    cases rest with
    | nil => simp
    | cons arguments _ =>
      simp only [List.forall_mem_append]
      exact ⟨hfirst.operand hbase, h.noWrap (hgood arguments (by simp))⟩

/-- A selector chain is measured from the line on which it starts. -/
theorem fieldAccess (h : Carries cx good near level P) (ht : good (.node .fieldAccess first rest))
    (hfirst : Settled cx level P p first) :
    ∀ f ∈ Expression.operand cx p base (.node .fieldAccess first rest), P f := by
  have hgood : ∀ t ∈ first :: rest, good t := fun t => h.children ht
  have hnear : (first :: rest).Pairwise near := h.siblings ht
  unfold Expression.operand
  cases hshape : Expression.shapeFault? cx [.expression, .token .dot, .token .identifier] first
    rest with
  | some fault => simpa only [hshape, List.forall_mem_singleton] using h.shapeFault? hgood hshape
  | none =>
    rcases rest with _ | ⟨dot, _ | ⟨name, _⟩⟩
    · simp
    · simp
    · have hbase : LevelBase cx level (cx.baseOf first) := h.base (hgood first List.mem_cons_self)
      have hdot : near first dot := (List.pairwise_cons.1 hnear).1 dot List.mem_cons_self
      simp only [List.forall_mem_append]
      exact ⟨⟨hfirst.operand hbase, h.boundary _ (hgood dot (by simp)) hdot hbase.2⟩,
        h.noWrap (hgood name (by simp))⟩

/-- What is found in a creation has the property. -/
theorem creation (h : Carries cx good near level P) (ht : good (.node .newExpr first rest))
    (hrest : ∀ t ∈ rest, Settled cx level P p t) (hbase : LevelBase cx level base) :
    ∀ f ∈ Expression.operand cx p base (.node .newExpr first rest), P f := by
  have hgood : ∀ t ∈ first :: rest, good t := fun t => h.children ht
  have hnear : (first :: rest).Pairwise near := h.siblings ht
  unfold Expression.operand
  cases hshape : Expression.shapeFault? cx [.token .kwNew, .type] first rest with
  | some fault => simpa only [hshape, List.forall_mem_singleton] using h.shapeFault? hgood hshape
  | none =>
    cases rest with
    | nil => simp
    | cons type parts =>
      have hparts : ∀ t ∈ parts, good t := fun t ht => hgood t (by simp [ht])
      simp only [List.forall_mem_append]
      exact ⟨⟨h.noWrap (hgood type (by simp)), (hrest type List.mem_cons_self).operand hbase⟩,
        h.creationParts hparts (List.pairwise_cons.1 hnear).2 hbase.1⟩

/-- What is found where parentheses open has the property. -/
theorem opening (h : Carries cx good near level P) {mark content : Tree} (hcontent : good content)
    (hbase : LevelBase cx level base) :
    ∀ f ∈ Expression.opening cx p base mark content, P f := by
  unfold Expression.opening
  split
  · simp
  · split
    · simpa using h.sameLine hcontent
    · exact h.column hcontent hbase.2

/-- What is found where parentheses close has the property. -/
theorem closing (h : Carries cx good near level P) {mark content close : Tree} (hclose : good close)
    (hnear : near prev close) (hbase : LevelBase cx level base) :
    ∀ f ∈ Expression.closing cx p base mark content prev close, P f := by
  unfold Expression.closing
  split
  · exact h.wrap hclose hnear hbase.1
  · exact h.noWrap hclose

/-- Nested parentheses are checked level by level. -/
theorem parens (h : Carries cx good near level P) (ht : good (.node .parenExpr first rest))
    (hrest : ∀ t ∈ rest, Settled cx level P p t) :
    (∀ base, LevelBase cx level base → ∀ f ∈ (Expression.parens cx p base first rest).1, P f) ∧
      ∀ base last, (Expression.parens cx p base first rest).2 = some last →
        last.leaves ⊆ (Tree.node .parenExpr first rest).leaves := by
  have hgood : ∀ t ∈ first :: rest, good t := fun t => h.children ht
  have hnear : (first :: rest).Pairwise near := h.siblings ht
  cases rest with
  | nil =>
    constructor
    · intro base hbase
      rw [Expression.parens]
      split
      · simpa using h.missingAfter (hgood first List.mem_cons_self)
      · simpa using h.unexpected (hgood first List.mem_cons_self) "("
    · intro base last hlast
      rw [Expression.parens] at hlast
      split at hlast <;> cases hlast
  | cons content rest =>
    have hcontent : good content := hgood content (by simp)
    have hsettled := hrest content List.mem_cons_self
    simp only [parens_cons]
    cases hshape : Expression.shapeFault? cx [.token .lParen, .expression, .token .rParen] first
      (content :: rest) with
    | some fault =>
      have hfault := h.shapeFault? hgood hshape
      exact ⟨fun base _ => by simpa using hfault, fun base last hlast => by simp at hlast⟩
    | none =>
      cases rest with
      | nil => exact ⟨fun base _ => by simp, fun base last hlast => by simp at hlast⟩
      | cons close surplus =>
        have hclose : good close := hgood close (by simp)
        have hbefore : near content close := by
          have hlater := (List.pairwise_cons.1 hnear).2
          exact (List.pairwise_cons.1 hlater).1 close List.mem_cons_self
        constructor
        · intro base hbase
          have hinside := hsettled.inside hbase
          cases hin : Expression.inside cx p base content with
          | mk found last =>
            rw [hin] at hinside
            cases last with
            | none =>
              simp only [Expression.level, List.forall_mem_append]
              exact ⟨h.opening hcontent hbase, hinside⟩
            | some last =>
              have hlast : last.leaves ⊆ content.leaves := hsettled.last (by rw [hin])
              simp only [Expression.level, List.forall_mem_append]
              exact ⟨⟨h.opening hcontent hbase, hinside⟩,
                h.closing hclose (h.inner hbefore hlast) hbase⟩
        · intro base last hlast
          cases hin : Expression.inside cx p base content with
          | mk found before =>
            rw [hin] at hlast
            cases before with
            | none => simp [Expression.level] at hlast
            | some before =>
              obtain rfl : close = last := by simpa [Expression.level] using hlast
              intro leaf hleaf
              simp only [Tree.leaves_node, Tree.leavesAmong, List.mem_append]
              exact .inr (.inr (.inl hleaf))

/-- Trees that the checker does not enter. -/
theorem settled_of_inert (h : Carries cx good near level P) (ht : good t) (hinert : t.Inert) :
    Settled cx level P p t where
  operand _ := by simp [operand_of_inert hinert]
  inside _ := by
    rw [inside_of_inert hinert]
    split
    · simpa using h.missingFirst ht
    · simp
  last hlast := by
    rw [inside_of_inert hinert] at hlast
    split at hlast
    · cases hlast
    · cases hlast
      exact List.Subset.refl _

/-- The property holds of what is found in a good tree. -/
theorem settled (h : Carries cx good near level P) (p : ExprPolicies) (ht : good t) :
    Settled cx level P p t := by
  induction t using Tree.children_induction with
  | token kind text pos => exact h.settled_of_inert ht fun hchildren => nomatch hchildren
  | empty kind pos => exact h.settled_of_inert ht fun hchildren => nomatch hchildren
  | node kind first rest hfirst hrest =>
    have hfirst := hfirst (h.children ht List.mem_cons_self)
    have hrest : ∀ t ∈ rest, Settled cx level P p t := fun t hmem =>
      hrest t hmem (h.children ht (List.mem_cons_of_mem first hmem))
    by_cases hparen : kind = .parenExpr
    · subst hparen
      obtain ⟨hfound, hlast⟩ := h.parens ht hrest
      exact ⟨fun hbase => hfound _ hbase, fun hbase => hfound _ hbase,
        fun hbefore => hlast _ _ hbefore⟩
    · have hoperand : ∀ {base}, LevelBase cx level base →
          ∀ f ∈ Expression.operand cx p base (.node kind first rest), P f := by
        intro base hbase
        cases kind with
        | binaryExpr => exact h.binary ht hfirst hrest hbase
        | unaryExpr =>
          rw [Expression.operand, List.forall_mem_append]
          exact ⟨hfirst.operand hbase, operands hrest hbase⟩
        | ternaryExpr => exact h.ternary ht hfirst hrest hbase
        | indexExpr => exact h.index ht hfirst hrest hbase
        | callExpr => exact h.call ht hfirst hbase
        | fieldAccess => exact h.fieldAccess ht hfirst
        | parenExpr => exact absurd rfl hparen
        | newExpr => exact h.creation ht hrest hbase
        | _ => simp [Expression.operand]
      refine ⟨hoperand, fun hbase => ?_, fun hlast => ?_⟩
      · rw [inside_of_ne hparen]
        exact hoperand hbase
      · rw [inside_of_ne hparen] at hlast
        cases hlast
        exact List.Subset.refl _

/-- The property holds of what is found in a whole expression. -/
theorem check (h : Carries cx good near level P) (ht : good t) (inline : Bool) :
    ∀ f ∈ Expression.check cx t (cx.baseOf t) inline, P f := by
  rw [check_eq]
  split
  · simpa using h.missingFirst ht
  · exact (h.settled _ ht).operand (h.base ht)

end Carries

end TreeLayout
