import TreeLayout.Proofs.Relocation.Context
import TreeLayout.Verify.Expression

/-!
# Expressions that are moved

The expression checker measures further lines from a baseline and selector chains from the line on
which they start. If trees and baseline move together, so does all that the checker finds
(`check_relocate`). There is one lemma per form of expression, which takes for granted that what is
found in its parts moves (`Moves`); an induction over the tree puts them together (`moves`).
-/

namespace TreeLayout.Expression

open Context (Shifted Baseline Reached)

variable {ρ : Nat → Nat → Nat} {σ : Nat → Nat} {S : Position → Prop} {cx cx' : Context}
  {prev last first : Tree} {rest : List Tree}

/-! ## Shapes and boundaries -/

/-- What is said about a missing child moves with the child before it. -/
theorem missingAfter_relocate (h : Shifted ρ σ S cx cx') (hlast : last.Within S) :
    missingAfter cx' (last.relocate ρ) = (missingAfter cx last).relocate ρ σ := by
  rw [missingAfter, missingAfter, Tree.describeLast_relocate]
  exact h.finding_relocate hlast (.missingToken _) none

/-- Moved children fit slots as they did before, or fail to at the same child. -/
theorem fault?_relocate (h : Shifted ρ σ S cx cx') (hlast : last.Within S) (slots : List Slot)
    (hrest : ∀ t ∈ rest, t.Within S) :
    fault? cx' (last.relocate ρ) slots (rest.map (Tree.relocate ρ)) =
      (fault? cx last slots rest).map (Finding.relocate ρ σ) := by
  induction slots generalizing last rest with
  | nil => rw [fault?, fault?, Option.map_none]
  | cons slot slots ih =>
    cases rest with
    | nil => exact congrArg some (missingAfter_relocate h hlast)
    | cons child rest =>
      obtain ⟨hchild, hrest⟩ := List.forall_mem_cons.1 hrest
      rw [List.map_cons, fault?, fault?, Tree.kind_relocate, ih hchild hrest,
        h.unexpected_relocate hchild]
      split <;> rfl

/-- Moved children have the shape that they had before, or lack it at the same child. -/
theorem shapeFault?_relocate (h : Shifted ρ σ S cx cx') (slots : List Slot)
    (hfirst : first.Within S) (hrest : ∀ t ∈ rest, t.Within S) :
    shapeFault? cx' slots (first.relocate ρ) (rest.map (Tree.relocate ρ)) =
      (shapeFault? cx slots first rest).map (Finding.relocate ρ σ) := by
  cases slots with
  | nil => rfl
  | cons slot slots =>
    simp only [shapeFault?, Tree.kind_relocate, fault?_relocate h hfirst slots hrest,
      h.unexpected_relocate hfirst]
    split <;> rfl

/-- Neighbours share a line after they moved if they did before. -/
theorem allOnLine_relocate (h : Shifted ρ σ S cx cx') (prev : Tree)
    (hrest : ∀ t ∈ rest, t.Within S) :
    allOnLine cx' (prev.relocate ρ) (rest.map (Tree.relocate ρ)) =
      (allOnLine cx prev rest).map (Finding.relocate ρ σ) := by
  induction rest generalizing prev with
  | nil => rfl
  | cons next rest ih =>
    obtain ⟨hnext, hrest⟩ := List.forall_mem_cons.1 hrest
    rw [List.map_cons, allOnLine, allOnLine, h.noWrap_relocate prev hnext, ih next hrest,
      List.map_append]

/-- The boundaries of a conditional expression move with its parts. -/
theorem ternaryBoundaries_relocate (h : Shifted ρ σ S cx cx') (p : ExprPolicies) {column : Nat}
    (hcolumn : cx.Reached S column) (prev : Tree) (hrest : ∀ t ∈ rest, t.Within S) :
    ternaryBoundaries cx' p (σ column) (prev.relocate ρ) (rest.map (Tree.relocate ρ)) =
      (ternaryBoundaries cx p column prev rest).map (Finding.relocate ρ σ) := by
  induction rest generalizing prev with
  | nil => rfl
  | cons next rest ih =>
    obtain ⟨hnext, hrest⟩ := List.forall_mem_cons.1 hrest
    rw [List.map_cons, ternaryBoundaries, ternaryBoundaries, Tree.isToken_relocate,
      h.boundary_relocate _ prev hnext hcolumn, ih next hrest, List.map_append]

section Based

variable {base : Nat} (hbase : cx.Baseline S base)
include hbase

/-- What follows the type of a created object moves with it. -/
theorem creationParts_relocate (h : Shifted ρ σ S cx cx') (p : ExprPolicies) (prev : Tree)
    (hrest : ∀ t ∈ rest, t.Within S) :
    creationParts cx' p (σ base) (prev.relocate ρ) (rest.map (Tree.relocate ρ)) =
      (creationParts cx p base prev rest).map (Finding.relocate ρ σ) := by
  induction rest generalizing prev with
  | nil => rfl
  | cons child rest ih =>
    obtain ⟨hchild, hrest⟩ := List.forall_mem_cons.1 hrest
    rw [List.map_cons, creationParts, creationParts, Tree.kind_relocate,
      h.boundary_relocate _ prev hchild (.base hbase), h.noWrap_relocate prev hchild,
      h.unexpected_relocate hchild, ih child hrest]
    split <;> simp

/-- The check behind an opening parenthesis moves with the content. -/
theorem opening_relocate (h : Shifted ρ σ S cx cx') (p : ExprPolicies) (mark : Tree)
    {content : Tree} (hcontent : content.Within S) :
    opening cx' p (σ base) (mark.relocate ρ) (content.relocate ρ) =
      (opening cx p base mark content).map (Finding.relocate ρ σ) := by
  rw [opening, opening, sameLine_relocate, h.sameLineViolation_relocate mark hcontent,
    h.stepIn hbase, h.expectColumn_relocate hcontent (.stepIn hbase)]
  split
  · rfl
  · split <;> rfl

/-- The check before a closing parenthesis moves with the parenthesis. -/
theorem closing_relocate (h : Shifted ρ σ S cx cx') (p : ExprPolicies)
    (mark content prev : Tree) {close : Tree} (hclose : close.Within S) :
    closing cx' p (σ base) (mark.relocate ρ) (content.relocate ρ) (prev.relocate ρ)
        (close.relocate ρ) =
      (closing cx p base mark content prev close).map (Finding.relocate ρ σ) := by
  rw [closing, closing, sameLine_relocate, h.mustWrap_relocate prev hclose (.base hbase),
    h.noWrap_relocate prev hclose]
  split <;> rfl

/-- One level of parentheses moves with what is found inside of it. -/
theorem level_relocate (h : Shifted ρ σ S cx cx') (p : ExprPolicies) (mark : Tree)
    {content close : Tree} (hcontent : content.Within S) (hclose : close.Within S)
    (found : List Finding × Option Tree) :
    level cx' p (σ base) (mark.relocate ρ) (content.relocate ρ) (close.relocate ρ)
        (found.map (List.map (Finding.relocate ρ σ)) (Option.map (Tree.relocate ρ))) =
      (level cx p base mark content close found).map (List.map (Finding.relocate ρ σ))
        (Option.map (Tree.relocate ρ)) := by
  obtain ⟨inside, last⟩ := found
  have hopening := opening_relocate hbase h p mark hcontent
  cases last with
  | none => simp [level, hopening]
  | some prev => simp [level, hopening, closing_relocate hbase h p mark content prev hclose]

end Based

/-! ## Forms of expressions -/

/-- What is found in a tree moves with it, both as an operand and as a parenthesised expression. -/
structure Moves (ρ : Nat → Nat → Nat) (σ : Nat → Nat) (S : Position → Prop) (cx cx' : Context)
    (p : ExprPolicies) (t : Tree) : Prop where
  /-- The tree stands where columns move. -/
  within : t.Within S
  /-- As an operand. -/
  operand {base : Nat} : cx.Baseline S base →
    operand cx' p (σ base) (t.relocate ρ) = (operand cx p base t).map (Finding.relocate ρ σ)
  /-- As a parenthesised expression; the closing mark moves too. -/
  parens {base : Nat} : cx.Baseline S base → ∀ kind first rest, t = .node kind first rest →
    parens cx' p (σ base) (first.relocate ρ) (rest.map (Tree.relocate ρ)) =
      (parens cx p base first rest).map (List.map (Finding.relocate ρ σ))
        (Option.map (Tree.relocate ρ))

section Forms

variable {p : ExprPolicies} {base : Nat} (h : Shifted ρ σ S cx cx') (hbase : cx.Baseline S base)
  (hfirst : Moves ρ σ S cx cx' p first) (hrest : ∀ t ∈ rest, Moves ρ σ S cx cx' p t)

include hbase hrest in
/-- What is found in moved operands is moved. -/
theorem operands_relocate :
    operands cx' p (σ base) (rest.map (Tree.relocate ρ)) =
      (operands cx p base rest).map (Finding.relocate ρ σ) := by
  induction rest with
  | nil => rfl
  | cons t ts ih =>
    obtain ⟨ht, hts⟩ := List.forall_mem_cons.1 hrest
    rw [List.map_cons, operands, operands, ht.operand hbase, ih hts, List.map_append]

include h hbase in
/-- A chain of operators and operands moves operand by operand. -/
theorem chain_relocate (needed : Bool) {left : Tree} (hleft : left.Within S) (rest : List Tree)
    (hrest : ∀ t ∈ rest, Moves ρ σ S cx cx' p t) :
    chain cx' p (σ base) needed (left.relocate ρ) (rest.map (Tree.relocate ρ)) =
      (chain cx p base needed left rest).map (Finding.relocate ρ σ) :=
  match rest with
  | [] => by
    rw [List.map_nil, chain, chain, missingAfter_relocate h hleft]
    split <;> rfl
  | [op] => by
    have hop := (hrest op (by simp)).within
    rw [List.map_singleton, chain, chain, Tree.kind_relocate, missingAfter_relocate h hop,
      h.unexpected_relocate hop]
    split <;> rfl
  | op :: right :: rest => by
    have hop := (hrest op (by simp)).within
    have hright := hrest right (by simp)
    have hlater := chain_relocate false hright.within rest fun t ht => hrest t (by simp [ht])
    have hstep := Reached.stepIn hbase
    rw [List.map_cons, List.map_cons, chain, chain, Tree.kind_relocate, Tree.kind_relocate,
      h.unexpected_relocate hop, h.unexpected_relocate hright.within, h.stepIn hbase,
      h.boundary_relocate _ left hop hstep, h.boundary_relocate _ op hright.within hstep,
      hright.operand hbase, hlater]
    split
    · rfl
    · split <;> simp

include h hbase hfirst hrest

/-- What is found in a moved binary expression is moved. -/
theorem binary_relocate :
    operand cx' p (σ base) ((Tree.node .binaryExpr first rest).relocate ρ) =
      (operand cx p base (.node .binaryExpr first rest)).map (Finding.relocate ρ σ) := by
  rw [Tree.relocate_node, operand, operand, Tree.kind_relocate, hfirst.operand hbase,
    chain_relocate h hbase true hfirst.within rest hrest, h.unexpected_relocate hfirst.within]
  split <;> simp

/-- What is found in a moved conditional is moved. -/
theorem ternary_relocate :
    operand cx' p (σ base) ((Tree.node .ternaryExpr first rest).relocate ρ) =
      (operand cx p base (.node .ternaryExpr first rest)).map (Finding.relocate ρ σ) := by
  have hwithin := fun t ht => (hrest t ht).within
  unfold operand
  simp only [Tree.relocate_node, shapeFault?_relocate h _ hfirst.within hwithin]
  cases shapeFault? cx _ first rest with
  | some fault => rfl
  | none =>
    match rest, hrest, hwithin with
    | [], _, _ | [_], _, _ | [_, _], _, _ | [_, _, _], _, _ => rfl
    | question :: yes :: colon :: no :: surplus :: _, _, hwithin =>
      exact congrArg (fun f => [f]) (h.extra_relocate (hwithin surplus (by simp)))
    | [question, yes, colon, no], hrest, hwithin =>
      have hyes := (hrest yes (by simp)).operand hbase
      have hno := (hrest no (by simp)).operand hbase
      have hbounds := ternaryBoundaries_relocate h p (.stepIn hbase) first hwithin
      simp only [List.map_cons, List.map_nil] at hbounds
      simp only [Option.map_none, List.map_cons, List.map_nil, h.stepIn hbase, hbounds,
        hfirst.operand hbase, hyes, hno, List.map_append]

/-- What is found in a moved index access is moved. -/
theorem index_relocate :
    operand cx' p (σ base) ((Tree.node .indexExpr first rest).relocate ρ) =
      (operand cx p base (.node .indexExpr first rest)).map (Finding.relocate ρ σ) := by
  have hwithin := fun t ht => (hrest t ht).within
  unfold operand
  simp only [Tree.relocate_node, shapeFault?_relocate h _ hfirst.within hwithin]
  cases shapeFault? cx _ first rest with
  | some fault => rfl
  | none =>
    match rest, hrest, hwithin with
    | [], _, _ | [_], _, _ | [_, _], _, _ => rfl
    | opening :: index :: closing :: _, hrest, hwithin =>
      have hindex := (hrest index (by simp)).operand hbase
      have hbracket : ∀ t ∈ [opening, index, closing], t.Within S := by simp [hwithin]
      have hline := allOnLine_relocate h first hbracket
      simp only [List.map_cons, List.map_nil] at hline
      simp only [Option.map_none, List.map_cons, hline, hfirst.operand hbase, hindex,
        List.map_append]

/-- What is found in a moved call is moved. -/
theorem call_relocate :
    operand cx' p (σ base) ((Tree.node .callExpr first rest).relocate ρ) =
      (operand cx p base (.node .callExpr first rest)).map (Finding.relocate ρ σ) := by
  have hwithin := fun t ht => (hrest t ht).within
  unfold operand
  simp only [Tree.relocate_node, shapeFault?_relocate h _ hfirst.within hwithin]
  cases shapeFault? cx _ first rest with
  | some fault => rfl
  | none =>
    cases rest with
    | nil => rfl
    | cons arguments _ =>
      simp only [Option.map_none, List.map_cons, hfirst.operand hbase,
        h.noWrap_relocate first (hwithin arguments List.mem_cons_self), List.map_append]

omit hbase in
/-- A selector chain is measured from the line on which it starts. -/
theorem fieldAccess_relocate :
    operand cx' p (σ base) ((Tree.node .fieldAccess first rest).relocate ρ) =
      (operand cx p base (.node .fieldAccess first rest)).map (Finding.relocate ρ σ) := by
  have hwithin := fun t ht => (hrest t ht).within
  have hchain := cx.baseline_baseOf hfirst.within
  unfold operand
  simp only [Tree.relocate_node, shapeFault?_relocate h _ hfirst.within hwithin]
  cases shapeFault? cx _ first rest with
  | some fault => rfl
  | none =>
    match rest, hwithin with
    | [], _ | [_], _ => rfl
    | dot :: name :: _, hwithin =>
      have hdot := hwithin dot (by simp)
      have hname := hwithin name (by simp)
      simp only [Option.map_none, List.map_cons, h.baseOf_relocate hfirst.within,
        hfirst.operand hchain, h.stepIn hchain, h.boundary_relocate _ first hdot (.stepIn hchain),
        h.noWrap_relocate dot hname, List.map_append]

/-- What is found in a moved creation is moved. -/
theorem new_relocate :
    operand cx' p (σ base) ((Tree.node .newExpr first rest).relocate ρ) =
      (operand cx p base (.node .newExpr first rest)).map (Finding.relocate ρ σ) := by
  have hwithin := fun t ht => (hrest t ht).within
  unfold operand
  simp only [Tree.relocate_node, shapeFault?_relocate h _ hfirst.within hwithin]
  cases shapeFault? cx _ first rest with
  | some fault => rfl
  | none =>
    match rest, hrest, hwithin with
    | [], _, _ => rfl
    | type :: parts, hrest, hwithin =>
      obtain ⟨htype, hparts⟩ := List.forall_mem_cons.1 hwithin
      have hoperand := (hrest type (by simp)).operand hbase
      simp only [Option.map_none, List.map_cons, h.noWrap_relocate first htype, hoperand,
        creationParts_relocate hbase h p type hparts, List.map_append]

omit hfirst in
/-- Nested parentheses move level by level. -/
theorem parens_relocate {mark : Tree} (hmark : mark.Within S) :
    parens cx' p (σ base) (mark.relocate ρ) (rest.map (Tree.relocate ρ)) =
      (parens cx p base mark rest).map (List.map (Finding.relocate ρ σ))
        (Option.map (Tree.relocate ρ)) := by
  unfold parens
  match rest, hrest with
  | [], _ =>
    simp only [List.map_nil, Tree.kind_relocate, missingAfter_relocate h hmark,
      h.unexpected_relocate hmark]
    split <;> rfl
  | content :: rest, hrest =>
    have hcontent := hrest content List.mem_cons_self
    have hoperand := hcontent.operand hbase
    have hshape := shapeFault?_relocate h [.token .lParen, .expression, .token .rParen] hmark
      fun t ht => (hrest t ht).within
    rw [List.map_cons] at hshape ⊢
    simp only [hshape]
    cases shapeFault? cx _ mark (content :: rest) with
    | some fault => rfl
    | none =>
      match rest, hrest with
      | [], _ => rfl
      | close :: _, hrest =>
        have hclose := (hrest close (by simp)).within
        have hlevel := level_relocate hbase h p mark hcontent.within hclose
        -- An operand inside, unless it is a parenthesised expression itself.
        have hplain := hlevel (operand cx p base content, some content)
        rw [Prod.map_apply, ← hoperand, Option.map_some] at hplain
        cases content with
        | token kind text pos => simpa using hplain
        | empty kind pos =>
          by_cases hkind : kind = .parenExpr
          · subst hkind
            have hmissing := hlevel ([cx.missingFirst (.empty .parenExpr pos)], none)
            simpa [← h.missingFirst_relocate hcontent.within] using hmissing
          · simpa [hkind] using hplain
        | node kind inner innerRest =>
          by_cases hkind : kind = .parenExpr
          · subst hkind
            have hinner := hcontent.parens hbase _ inner innerRest rfl
            have hnested := hlevel (parens cx p base inner innerRest)
            simpa [← hinner] using hnested
          · simpa [hkind] using hplain

end Forms

/-- What is found in a tree moves with it, if its leaves stand where columns move. -/
theorem moves (h : Shifted ρ σ S cx cx') (p : ExprPolicies) {t : Tree} (ht : t.Within S) :
    Moves ρ σ S cx cx' p t := by
  induction t using Tree.children_induction with
  | token kind text pos =>
    refine ⟨ht, fun _ => ?_, fun _ _ _ _ hnode => nomatch hnode⟩
    rw [Tree.relocate_token, operand, operand, List.map_nil]
  | empty kind pos =>
    refine ⟨ht, fun _ => ?_, fun _ _ _ _ hnode => nomatch hnode⟩
    rw [Tree.relocate_empty, operand, operand, List.map_nil]
  | node kind first rest hfirst hrest =>
    obtain ⟨hwithin, hrestWithin⟩ := Tree.within_node.1 ht
    replace hfirst := hfirst hwithin
    replace hrest := fun t ht => hrest t ht (hrestWithin t ht)
    refine ⟨ht, fun {base} hbase => ?_, ?_⟩
    · cases kind with
      | binaryExpr => exact binary_relocate h hbase hfirst hrest
      | unaryExpr =>
        rw [Tree.relocate_node, operand, operand, hfirst.operand hbase,
          operands_relocate hbase hrest, List.map_append]
      | ternaryExpr => exact ternary_relocate h hbase hfirst hrest
      | indexExpr => exact index_relocate h hbase hfirst hrest
      | callExpr => exact call_relocate h hbase hfirst hrest
      | fieldAccess => exact fieldAccess_relocate h hfirst hrest
      | parenExpr =>
        rw [Tree.relocate_node, operand, operand, parens_relocate h hbase hrest hwithin,
          Prod.map_fst]
      | newExpr => exact new_relocate h hbase hfirst hrest
      | _ => rfl
    · rintro base hbase _ _ _ ⟨rfl, rfl, rfl⟩
      exact parens_relocate h hbase hrest hwithin

/-- What is found in a moved expression, measured from the moved baseline. -/
theorem check_relocate (h : Shifted ρ σ S cx cx') {t : Tree} (ht : t.Within S) {base : Nat}
    (hbase : cx.Baseline S base) (inline : Bool) :
    check cx' (t.relocate ρ) (σ base) inline =
      (check cx t base inline).map (Finding.relocate ρ σ) := by
  have hoperand := (moves h (.ofSettings cx.settings inline) ht).operand hbase
  unfold check
  rw [h.settings]
  cases t with
  | empty kind pos =>
    have hmissing := h.missingFirst_relocate ht
    rw [Tree.relocate_empty] at hmissing ⊢
    simp only [hmissing]
    split <;> rfl
  | token | node => simpa using hoperand

end TreeLayout.Expression
