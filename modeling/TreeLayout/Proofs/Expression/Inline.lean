import TreeLayout.Proofs.Expression.Shapes
import TreeLayout.Proofs.Machine.Layout

/-!
# Inline expressions

In an inline expression no boundary wraps. What is found is a list of remarks, that two neighbours
are not on one line or that a tree lacks its shape, and the list is the same for all settings and
all bases (`Expression.inlined`): a context only adds the columns of the anchors.

Where all nodes have their shapes, nothing is found exactly if the neighbours among the children of
each node share lines (`Expression.operand_eq_nil_iff`). This is about the nodes that the checker
comes to, without unary expressions, whose children have no boundaries, and without array
initializers, which count as expressions and have programs of their own
(`Expression.initializer_wraps_inline`).
-/

namespace TreeLayout

open Grammar
open scoped Computability

/-- The policies of an inline expression, whatever the settings. -/
def ExprPolicies.unwrapped : ExprPolicies where
  beforeOperator := .no
  afterOperator := .no
  ternary := .no
  afterSeparator := .no
  selector := .no
  leftBrace := .no
  inline := true

/-- For an inline expression all settings give these policies. -/
theorem ExprPolicies.ofSettings_inline (s : LayoutSettings) : ofSettings s true = unwrapped := rfl

namespace Expression

/-! ## Remarks -/

/-- What can be found in an inline expression, without the place. -/
inductive Remark where
  /-- Two nodes do not share a line. -/
  | apart (prev next : Tree)
  /-- A node lacks its shape. -/
  | fault (anchor : Tree) (message : Message) (isStructural : message.isStructural = true)

/-- A remark with its place. -/
def Remark.finding (cx : Context) : Remark → Finding
  | .apart prev next => cx.sameLineViolation prev next
  | .fault anchor message _ => cx.finding anchor message none

/-- No remark asks for a new line or for another column. -/
theorem Remark.rule_finding (cx : Context) (r : Remark) :
    (r.finding cx).message.rule ≠ .mustWrap ∧ (r.finding cx).message.rule ≠ .column := by
  cases r with
  | apart prev next => exact ⟨nofun, nofun⟩
  | fault anchor message hstructural =>
    have hrule : message.rule.isStructural = true := hstructural
    constructor
    · intro h
      rw [show message.rule = .mustWrap from h] at hrule
      cases hrule
    · intro h
      rw [show message.rule = .column from h] at hrule
      cases hrule

/-- What is found is a list of remarks that neither the settings nor the base change. -/
def Remarked (found : Context → Nat → List Finding) : Prop :=
  ∃ remarks : List Remark, ∀ cx base, found cx base = remarks.map (Remark.finding cx)

namespace Remarked

variable {found found' : Context → Nat → List Finding}

/-- Finding nothing is the empty list of remarks. -/
theorem nil : Remarked fun _ _ => [] := ⟨[], fun _ _ => rfl⟩

/-- What is found in two places one after the other is remarked if both parts are. -/
theorem append (h : Remarked found) (h' : Remarked found') :
    Remarked fun cx base => found cx base ++ found' cx base := by
  obtain ⟨remarks, hfound⟩ := h
  obtain ⟨remarks', hfound'⟩ := h'
  refine ⟨remarks ++ remarks', fun cx base => ?_⟩
  show found cx base ++ found' cx base = _
  rw [hfound, hfound', List.map_append]

/-- The base can be chosen anew. -/
theorem measured (h : Remarked found) (level : Context → Nat) :
    Remarked fun cx _ => found cx (level cx) := by
  obtain ⟨remarks, hfound⟩ := h
  exact ⟨remarks, fun cx _ => hfound cx (level cx)⟩

/-- Whether two nodes share a line is one remark or none. -/
theorem noWrap (prev next : Tree) : Remarked fun cx _ => cx.noWrap prev next := by
  by_cases h : sameLine prev next = true
  · exact ⟨[], fun _ _ => if_pos h⟩
  · exact ⟨[.apart prev next], fun _ _ => if_neg h⟩

/-- A structural fault is one remark. -/
theorem structural (anchor : Tree) {message : Message} (h : message.isStructural = true) :
    Remarked fun cx _ => [cx.finding anchor message none] :=
  ⟨[.fault anchor message h], fun _ _ => rfl⟩

/-- A child of the wrong kind is one remark. -/
theorem unexpected (child : Tree) (expected : String) :
    Remarked fun cx _ => [cx.unexpected child expected] :=
  structural child rfl

/-- A child that is missing is one remark. -/
theorem missingAfter (last : Tree) : Remarked fun cx _ => [missingAfter cx last] :=
  structural last rfl

/-- The first child that does not fit its slot is the same in all contexts. -/
theorem exists_fault? (last : Tree) (slots : List Slot) (ts : List Tree) :
    ∃ fault : Option Remark, ∀ cx, fault? cx last slots ts = fault.map (Remark.finding cx) := by
  induction slots generalizing last ts with
  | nil => exact ⟨none, fun cx => by rw [fault?]; rfl⟩
  | cons slot slots ih =>
    cases ts with
    | nil => exact ⟨some (.fault last _ rfl), fun cx => rfl⟩
    | cons t ts =>
      by_cases haccepts : slot.accepts t.kind = true
      · obtain ⟨fault, hfault⟩ := ih t ts
        exact ⟨fault, fun cx => by rw [fault?, if_pos haccepts, hfault]⟩
      · exact ⟨some (.fault t _ rfl), fun cx => by rw [fault?, if_neg haccepts]; rfl⟩

/-- A form that begins with slots: a fault of these is a remark, and if there is none, what is found
after them counts. -/
theorem slots {first : Tree} {slots : List Slot} {rest : List Tree} (h : Remarked found) :
    Remarked fun cx base =>
      match shapeFault? cx slots first rest with
      | some fault => [fault]
      | none => found cx base := by
  obtain ⟨fault, hfault⟩ := exists_fault? first slots (first :: rest)
  obtain ⟨remarks, hfound⟩ := h
  cases fault with
  | none => exact ⟨remarks, fun cx base => by simp only [shapeFault?_eq, hfault, hfound]; rfl⟩
  | some remark => exact ⟨[remark], fun cx base => by simp only [shapeFault?_eq, hfault]; rfl⟩

end Remarked

/-! ## Forms -/

/-- What is found in a tree that belongs to an inline expression is a list of remarks, both as an
operand and as the content of parentheses. The node before the closing mark is the same too. -/
structure Inlined (t : Tree) : Prop where
  operand : Remarked fun cx base => operand cx .unwrapped base t
  inside : Remarked fun cx base => (inside cx .unwrapped base t).1
  last : ∃ last, ∀ cx base, (Expression.inside cx .unwrapped base t).2 = last

section Remarks

variable {prev first : Tree} {rest : List Tree}

/-- Tokens that have to share a line are remarked. -/
theorem remarked_allOnLine : Remarked fun cx _ => allOnLine cx prev rest := by
  induction rest generalizing prev with
  | nil => exact .nil
  | cons next rest ih => exact (Remarked.noWrap prev next).append ih

/-- Without wrapping, the boundaries of a conditional are remarked. -/
theorem remarked_ternaryBoundaries : Remarked fun cx base =>
    ternaryBoundaries cx .unwrapped (cx.stepIn base) prev rest := by
  induction rest generalizing prev with
  | nil => exact .nil
  | cons next rest ih =>
    simp only [ternaryBoundaries, ExprPolicies.unwrapped, ite_self]
    exact (Remarked.noWrap prev next).append ih

/-- Without wrapping, the boundaries of a creation are remarked. -/
theorem remarked_creationParts : Remarked fun cx base =>
    creationParts cx .unwrapped base prev rest := by
  induction rest generalizing prev with
  | nil => exact .nil
  | cons child rest ih =>
    have hlater : Remarked fun cx base => creationParts cx .unwrapped base child rest := ih
    have hline := (Remarked.noWrap prev child).append hlater
    unfold creationParts
    split
    · exact hline
    · exact hline
    · exact hline
    · exact hline
    · exact .unexpected child "("

/-- The insides of several operands are remarked if that of each one is. -/
theorem remarked_operands (h : ∀ t ∈ rest, Inlined t) :
    Remarked fun cx base => operands cx .unwrapped base rest := by
  induction rest with
  | nil => exact .nil
  | cons t ts ih =>
    obtain ⟨ht, hts⟩ := List.forall_mem_cons.1 h
    exact ht.operand.append (ih hts)

/-- A chain of operators is remarked if its operands are. -/
theorem remarked_chain (needed : Bool) (left : Tree) (rest : List Tree)
    (h : ∀ t ∈ rest, Inlined t) :
    Remarked fun cx base => chain cx .unwrapped base needed left rest :=
  match rest with
  | [] => by
    cases needed
    · exact .nil
    · exact .missingAfter left
  | [op] => by
    by_cases hop : Slot.operator.accepts op.kind = true
    · simp only [chain, hop, if_true]
      exact .missingAfter op
    · simp only [chain, hop]
      exact .unexpected op "operator"
  | op :: right :: rest => by
    have hright := h right (by simp)
    have hlater := remarked_chain false right rest fun t ht => h t (by simp [ht])
    by_cases hop : Slot.operator.accepts op.kind = true
    · by_cases hexpression : right.kind.isExpression = true
      · simp only [chain, hop, hexpression]
        exact (((Remarked.noWrap left op).append (.noWrap op right)).append hright.operand).append
          hlater
      · simp only [chain, hop, hexpression]
        exact .unexpected right "expression"
    · simp only [chain, hop]
      exact .unexpected op "operator"

/-- A binary expression is remarked if its children are. -/
theorem remarked_binary (hfirst : Inlined first) (hrest : ∀ t ∈ rest, Inlined t) :
    Remarked fun cx base => operand cx .unwrapped base (.node .binaryExpr first rest) := by
  simp only [operand]
  split
  · exact hfirst.operand.append (remarked_chain true first rest hrest)
  · exact .unexpected first "expression"

/-- A conditional is remarked if its children are. -/
theorem remarked_ternary (hfirst : Inlined first) (hrest : ∀ t ∈ rest, Inlined t) :
    Remarked fun cx base => operand cx .unwrapped base (.node .ternaryExpr first rest) := by
  unfold operand
  refine .slots ?_
  rcases rest with _ | ⟨question, _ | ⟨yes, _ | ⟨colon, _ | ⟨no, _ | ⟨surplus, more⟩⟩⟩⟩⟩
  · exact .nil
  · exact .nil
  · exact .nil
  · exact .nil
  · have hyes := hrest yes (by simp)
    have hno := hrest no (by simp)
    exact ((remarked_ternaryBoundaries.append hfirst.operand).append hyes.operand).append
      hno.operand
  · exact .structural surplus rfl

/-- An index access is remarked if its children are. -/
theorem remarked_index (hfirst : Inlined first) (hrest : ∀ t ∈ rest, Inlined t) :
    Remarked fun cx base => operand cx .unwrapped base (.node .indexExpr first rest) := by
  unfold operand
  refine .slots ?_
  rcases rest with _ | ⟨mark, _ | ⟨index, _ | ⟨close, surplus⟩⟩⟩
  · exact .nil
  · exact .nil
  · exact .nil
  · have hindex := hrest index (by simp)
    exact (remarked_allOnLine.append hfirst.operand).append hindex.operand

/-- A call is remarked if what is called is; its arguments are judged by their own program. -/
theorem remarked_call (hfirst : Inlined first) :
    Remarked fun cx base => operand cx .unwrapped base (.node .callExpr first rest) := by
  unfold operand
  refine .slots ?_
  cases rest with
  | nil => exact .nil
  | cons arguments surplus => exact hfirst.operand.append (.noWrap first arguments)

/-- The line on which a selector chain starts does not matter, since no further line is measured
from it. -/
theorem remarked_fieldAccess (hfirst : Inlined first) :
    Remarked fun cx base => operand cx .unwrapped base (.node .fieldAccess first rest) := by
  unfold operand
  refine .slots ?_
  rcases rest with _ | ⟨dot, _ | ⟨name, surplus⟩⟩
  · exact .nil
  · exact .nil
  · have hmeasured := hfirst.operand.measured fun cx => cx.baseOf first
    exact (hmeasured.append (.noWrap first dot)).append (.noWrap dot name)

/-- A creation is remarked if its parts are. -/
theorem remarked_creation (hrest : ∀ t ∈ rest, Inlined t) :
    Remarked fun cx base => operand cx .unwrapped base (.node .newExpr first rest) := by
  unfold operand
  refine .slots ?_
  cases rest with
  | nil => exact .nil
  | cons type parts =>
    have htype := hrest type List.mem_cons_self
    exact ((Remarked.noWrap first type).append htype.operand).append remarked_creationParts

/-- A line that is wrapped after the opening mark is a line that is not shared. -/
theorem opening_unwrapped (cx : Context) (base : Nat) (mark content : Tree) :
    opening cx .unwrapped base mark content = cx.noWrap mark content := by
  unfold opening Context.noWrap
  split <;> rfl

/-- Without wrapping, a closing parenthesis only has to share the line of its content. -/
theorem closing_unwrapped (cx : Context) (base : Nat) (mark content prev close : Tree) :
    closing cx .unwrapped base mark content prev close = cx.noWrap prev close := by
  simp [closing, ExprPolicies.unwrapped]

/-- Without wrapping, a level of parentheses asks for shared lines at both of its ends. -/
theorem level_unwrapped (cx : Context) (base : Nat) (mark content close : Tree)
    (found : List Finding × Option Tree) :
    level cx .unwrapped base mark content close found =
      (cx.noWrap mark content ++ found.1 ++ found.2.elim [] fun prev => cx.noWrap prev close,
        found.2.map fun _ => close) := by
  obtain ⟨found, _ | prev⟩ := found
  · simp [level, opening_unwrapped]
  · simp [level, opening_unwrapped, closing_unwrapped]

/-- Whether the content of parentheses has its shape, so that there is a node before the closing
mark, does not depend on the context either. -/
theorem remarked_parens (hrest : ∀ t ∈ rest, Inlined t) :
    Remarked (fun cx base => (parens cx .unwrapped base first rest).1) ∧
      ∃ last, ∀ cx base, (parens cx .unwrapped base first rest).2 = last := by
  constructor
  · simp only [parens_fst]
    refine .slots ?_
    rcases rest with _ | ⟨content, _ | ⟨close, surplus⟩⟩
    · exact .nil
    · exact .nil
    · have hcontent := hrest content List.mem_cons_self
      obtain ⟨last, hlast⟩ := hcontent.last
      simp only [level_unwrapped, hlast]
      refine ((Remarked.noWrap first content).append hcontent.inside).append ?_
      cases last with
      | none => exact .nil
      | some prev => exact .noWrap prev close
  · cases rest with
    | nil =>
      refine ⟨none, fun cx base => ?_⟩
      rw [parens]
      split <;> rfl
    | cons content rest =>
      obtain ⟨fault, hfault⟩ := Remarked.exists_fault? first
        [.token .lParen, .expression, .token .rParen] (first :: content :: rest)
      simp only [parens_cons, shapeFault?_eq, hfault]
      cases fault with
      | some remark => exact ⟨none, fun _ _ => rfl⟩
      | none =>
        cases rest with
        | nil => exact ⟨none, fun _ _ => rfl⟩
        | cons close surplus =>
          obtain ⟨last, hlast⟩ := (hrest content List.mem_cons_self).last
          exact ⟨last.map fun _ => close, fun cx base => by
            simp only [Option.map_none, level_unwrapped, hlast]⟩

end Remarks

/-- A tree in which nothing is checked is inlined. -/
theorem inlined_of_inert {t : Tree} (h : t.Inert) : Inlined t where
  operand := by
    simp only [operand_of_inert h]
    exact .nil
  inside := by
    simp only [inside_of_inert h]
    split
    · exact .structural t rfl
    · exact .nil
  last := by
    simp only [inside_of_inert h]
    split
    · exact ⟨none, fun _ _ => rfl⟩
    · exact ⟨some t, fun _ _ => rfl⟩

/-- What is found in a tree that belongs to an inline expression is a list of remarks. -/
theorem inlined (t : Tree) : Inlined t := by
  induction t using Tree.children_induction with
  | token kind text pos => exact inlined_of_inert (Tree.inert_of_hasChildren rfl)
  | empty kind pos => exact inlined_of_inert (Tree.inert_of_hasChildren rfl)
  | node kind first rest hfirst hrest =>
    by_cases hparen : kind = .parenExpr
    · subst hparen
      obtain ⟨hfound, hlast⟩ :
          Remarked (fun cx base => (parens cx .unwrapped base first rest).1) ∧ _ :=
        remarked_parens hrest
      exact ⟨by simpa only [operand] using hfound, hfound, hlast⟩
    · have hoperand : Remarked fun cx base =>
          operand cx .unwrapped base (.node kind first rest) := by
        cases kind with
        | binaryExpr => exact remarked_binary hfirst hrest
        | unaryExpr =>
          simp only [operand]
          exact hfirst.operand.append (remarked_operands hrest)
        | ternaryExpr => exact remarked_ternary hfirst hrest
        | indexExpr => exact remarked_index hfirst hrest
        | callExpr => exact remarked_call hfirst
        | fieldAccess => exact remarked_fieldAccess hfirst
        | parenExpr => exact absurd rfl hparen
        | newExpr => exact remarked_creation hrest
        | _ => exact .nil
      refine ⟨hoperand, ?_, ?_⟩
      · simpa only [inside_of_ne hparen] using hoperand
      · exact ⟨some (.node kind first rest), fun cx base => by rw [inside_of_ne hparen]⟩

/-- What is found in an inline expression is one list of remarks, for all contexts and bases. -/
theorem exists_check_eq (t : Tree) : ∃ remarks : List Remark, ∀ cx base,
    check cx t base true = remarks.map (Remark.finding cx) := by
  simp only [check_eq, ExprPolicies.ofSettings_inline]
  split
  · exact Remarked.structural t rfl
  · exact (inlined t).operand

/-! ## Shared lines -/

/-- Each two neighbours among some nodes share a line. -/
def OnLine (ts : List Tree) : Prop := ts.IsChain fun prev next => sameLine prev next = true

/-- The children of a node share lines, and nothing is found inside them. -/
def Joined (cx : Context) (base : Nat) (ts : List Tree) : Prop :=
  OnLine ts ∧ ∀ t ∈ ts, operand cx .unwrapped base t = []

section Lines

variable {cx : Context} {base : Nat} {prev first : Tree} {rest : List Tree}

/-- Nothing is found inside a token. -/
theorem operand_of_accepts_token {t : Tree} {kind : TokenKind}
    (h : (Slot.token kind).accepts t.kind = true) : operand cx .unwrapped base t = [] :=
  operand_of_inert (Tree.inert_of_kind_token (of_decide_eq_true h))

/-- Nothing is found inside an operator. -/
theorem operand_of_accepts_operator {t : Tree} (h : Slot.operator.accepts t.kind = true) :
    operand cx .unwrapped base t = [] := by
  have hkind : t.kind = .token .operator ∨ t.kind = .token .assign := by
    simpa [Slot.operator] using h
  rcases hkind with hkind | hkind
  · exact operand_of_inert (Tree.inert_of_kind_token hkind)
  · exact operand_of_inert (Tree.inert_of_kind_token hkind)

/-- No two tokens are apart exactly if they are all on line. -/
theorem allOnLine_eq_nil_iff : allOnLine cx prev rest = [] ↔ OnLine (prev :: rest) := by
  induction rest generalizing prev with
  | nil => simp [allOnLine, OnLine]
  | cons next rest ih =>
    rw [allOnLine, List.append_eq_nil_iff, Context.noWrap_eq_nil_iff, ih, OnLine, OnLine,
      List.isChain_cons_cons]

/-- The boundaries of a conditional are quiet exactly if its children are on line. -/
theorem ternaryBoundaries_eq_nil_iff {column : Nat} :
    ternaryBoundaries cx .unwrapped column prev rest = [] ↔ OnLine (prev :: rest) := by
  have hboundaries : ternaryBoundaries cx .unwrapped column prev rest = allOnLine cx prev rest := by
    induction rest generalizing prev with
    | nil => rfl
    | cons next rest ih =>
      rw [ternaryBoundaries, allOnLine, ih]
      simp only [ExprPolicies.unwrapped, ite_self]
      rfl
  rw [hboundaries, allOnLine_eq_nil_iff]

/-- The boundaries of a creation are quiet exactly if its children are on line. -/
theorem creationParts_eq_nil_iff (h : rest.map Tree.kind ∈ creationPart∗) :
    creationParts cx .unwrapped base prev rest = [] ↔ OnLine (prev :: rest) := by
  rw [creationPart, mem_star_one] at h
  induction rest generalizing prev with
  | nil => simp [creationParts, OnLine]
  | cons child rest ih =>
    obtain ⟨hchild, hrest⟩ := List.forall_mem_cons.1 h
    have hline : cx.noWrap prev child ++ creationParts cx .unwrapped base child rest = [] ↔
        OnLine (prev :: child :: rest) := by
      rw [List.append_eq_nil_iff, Context.noWrap_eq_nil_iff, ih hrest, OnLine, OnLine,
        List.isChain_cons_cons]
    rw [creationParts]
    rcases hchild with hkind | hkind | hkind | hkind
    · rw [hkind]
      exact hline
    · rw [hkind]
      exact hline
    · rw [hkind]
      exact hline
    · rw [hkind]
      exact hline

/-- A chain of operators is quiet exactly if its children are on line and quiet inside. -/
theorem chain_eq_nil_iff (needed : Bool) (left : Tree) (rest : List Tree)
    (h : rest.map Tree.kind ∈ rounds needed) :
    chain cx .unwrapped base needed left rest = [] ↔
      OnLine (left :: rest) ∧ ∀ t ∈ rest, operand cx .unwrapped base t = [] :=
  match rest with
  | [] => by
    have hneeded : needed = false := nil_mem_rounds.1 h
    simp [chain, hneeded, OnLine]
  | [op] => absurd (cons_mem_one_mul.1 (cons_mem_rounds.1 h)).2 nil_notMem_one_mul
  | op :: right :: rest => by
    obtain ⟨hop, hright, hrest⟩ : Slot.operator.accepts op.kind = true ∧
        right.kind.isExpression = true ∧ rest.map Tree.kind ∈ rounds false := by
      simpa [cons_mem_rounds, operator, Grammar.expression, cons_mem_one_mul, Slot.operator] using h
    have hmark : operand cx .unwrapped base op = [] := operand_of_accepts_operator hop
    have hlater := chain_eq_nil_iff false right rest hrest
    have hround : chain cx .unwrapped base needed left (op :: right :: rest) =
        cx.noWrap left op ++ cx.noWrap op right ++ operand cx .unwrapped base right
          ++ chain cx .unwrapped base false right rest := by
      rw [chain, hop, hright]
      rfl
    have hline : OnLine (left :: op :: right :: rest) ↔
        sameLine left op = true ∧ sameLine op right = true ∧ OnLine (right :: rest) := by
      rw [OnLine, OnLine, List.isChain_cons_cons, List.isChain_cons_cons]
    rw [hround, hline, List.forall_mem_cons, List.forall_mem_cons, and_iff_right hmark]
    simp only [List.append_eq_nil_iff, Context.noWrap_eq_nil_iff, hlater]
    tauto

/-- A form that is given by slots and has its shape: there is no fault, and as many children as
slots. -/
theorem slots_of_fitsExactly {kind : ConstructKind} {slots : List Slot} (cx : Context)
    (hshape : shape? (.construct kind) = some (slotWords slots))
    (h : (Tree.node kind first rest).FitsExactly) :
    shapeFault? cx slots first rest = none ∧ rest.length + 1 = slots.length := by
  have hwords : (first :: rest).map Tree.kind ∈ slotWords slots := h _ hshape
  have hlength := length_of_mem_slotWords hwords
  rw [List.length_map, List.length_cons] at hlength
  exact ⟨shapeFault?_of_mem hwords, hlength⟩

/-- A binary expression is quiet exactly if its children are joined. -/
theorem binary_eq_nil_iff (h : (Tree.node .binaryExpr first rest).FitsExactly) :
    operand cx .unwrapped base (.node .binaryExpr first rest) = [] ↔
      Joined cx base (first :: rest) := by
  have hshape : shape? (.construct .binaryExpr) = some (Grammar.expression * rounds true) := by
    simp [shape?, rounds, mul_assoc]
  obtain ⟨hfirst, hrounds⟩ : first.kind.isExpression = true ∧ rest.map Tree.kind ∈ rounds true :=
    cons_mem_one_mul.1 (h _ hshape)
  rw [operand, if_pos hfirst, List.append_eq_nil_iff, chain_eq_nil_iff true first rest hrounds,
    Joined, List.forall_mem_cons]
  tauto

/-- A conditional is quiet exactly if its children are joined. -/
theorem ternary_eq_nil_iff (h : (Tree.node .ternaryExpr first rest).FitsExactly) :
    operand cx .unwrapped base (.node .ternaryExpr first rest) = [] ↔
      Joined cx base (first :: rest) := by
  obtain ⟨hfault, hlength⟩ := slots_of_fitsExactly cx shape?_ternaryExpr h
  match rest, hlength with
  | [question, yes, colon, no], _ =>
    simp only [operand, hfault]
    simp only [shapeFault?_eq, fault?_cons] at hfault
    obtain ⟨-, hquestion, -, hcolon, -⟩ := hfault
    simp [Joined, ternaryBoundaries_eq_nil_iff, operand_of_accepts_token hquestion,
      operand_of_accepts_token hcolon]

/-- An index access is quiet exactly if its children are joined. -/
theorem index_eq_nil_iff (h : (Tree.node .indexExpr first rest).FitsExactly) :
    operand cx .unwrapped base (.node .indexExpr first rest) = [] ↔
      Joined cx base (first :: rest) := by
  obtain ⟨hfault, hlength⟩ := slots_of_fitsExactly cx shape?_indexExpr h
  match rest, hlength with
  | [mark, index, close], _ =>
    simp only [operand, hfault]
    simp only [shapeFault?_eq, fault?_cons] at hfault
    obtain ⟨-, hmark, -, hclose, -⟩ := hfault
    simp [Joined, allOnLine_eq_nil_iff, operand_of_accepts_token hmark,
      operand_of_accepts_token hclose]

/-- A call is quiet exactly if its children are joined. -/
theorem call_eq_nil_iff (h : (Tree.node .callExpr first rest).FitsExactly) :
    operand cx .unwrapped base (.node .callExpr first rest) = [] ↔
      Joined cx base (first :: rest) := by
  obtain ⟨hfault, hlength⟩ := slots_of_fitsExactly cx shape?_callExpr h
  match rest, hlength with
  | [arguments], _ =>
    simp only [operand, hfault]
    simp only [shapeFault?_eq, fault?_cons] at hfault
    have hkind : arguments.kind = .construct .arguments := of_decide_eq_true hfault.2.1
    have harguments : arguments.Inert := fun _ => hkind ▸ rfl
    simp [Joined, OnLine, Context.noWrap_eq_nil_iff, operand_of_inert harguments, and_comm]

/-- A field access is quiet exactly if its children are joined. -/
theorem fieldAccess_eq_nil_iff (h : (Tree.node .fieldAccess first rest).FitsExactly) :
    operand cx .unwrapped base (.node .fieldAccess first rest) = [] ↔
      Joined cx base (first :: rest) := by
  obtain ⟨hfault, hlength⟩ := slots_of_fitsExactly cx shape?_fieldAccess h
  match rest, hlength with
  | [dot, name], _ =>
    simp only [operand, hfault]
    simp only [shapeFault?_eq, fault?_cons] at hfault
    obtain ⟨-, hdot, hname, -⟩ := hfault
    have hboundary : cx.boundary ExprPolicies.unwrapped.selector first dot
        (cx.stepIn (cx.baseOf first)) = cx.noWrap first dot := rfl
    have hmeasured : operand cx .unwrapped (cx.baseOf first) first =
        operand cx .unwrapped base first := by
      obtain ⟨remarks, hfound⟩ := (inlined first).operand
      exact (hfound cx _).trans (hfound cx base).symm
    simp [Joined, OnLine, hboundary, hmeasured, Context.noWrap_eq_nil_iff,
      operand_of_accepts_token hdot, operand_of_accepts_token hname]
    tauto

/-- The parts of a creation are not looked into: they are no expressions or have programs. -/
theorem operand_of_mem_creationPart (h : rest.map Tree.kind ∈ creationPart∗) :
    ∀ part ∈ rest, operand cx .unwrapped base part = [] := by
  intro part hpart
  rw [creationPart, mem_star_one] at h
  rcases h part.kind (List.mem_map_of_mem hpart) with hkind | hkind | hkind | hkind
  · exact operand_of_inert fun _ => hkind ▸ rfl
  · cases part with
    | token => cases hkind
    | empty => exact operand_of_inert (Tree.inert_of_hasChildren rfl)
    | node kind first rest =>
      cases hkind
      simp only [operand]
  · exact operand_of_inert fun _ => hkind ▸ rfl
  · exact operand_of_inert fun _ => hkind ▸ rfl

/-- A creation is quiet exactly if its children are joined. -/
theorem creation_eq_nil_iff (h : (Tree.node .newExpr first rest).FitsExactly) :
    operand cx .unwrapped base (.node .newExpr first rest) = [] ↔
      Joined cx base (first :: rest) := by
  have hshape : shape? (.construct .newExpr) =
      some (Grammar.token .kwNew * (createdType * creationPart∗)) := by
    simp [shape?, mul_assoc]
  obtain ⟨hkeyword, hwords⟩ := cons_mem_one_mul.1 (h _ hshape)
  cases rest with
  | nil => exact absurd hwords nil_notMem_one_mul
  | cons type parts =>
    obtain ⟨htype, hparts⟩ := cons_mem_one_mul.1 hwords
    have hfault : shapeFault? cx [.token .kwNew, .type] first (type :: parts) = none := by
      simpa [Slot.token, Slot.type] using ⟨hkeyword, htype⟩
    have hmark : operand cx .unwrapped base first = [] :=
      operand_of_inert (Tree.inert_of_kind_token hkeyword)
    have hline : OnLine (first :: type :: parts) ↔
        sameLine first type = true ∧ OnLine (type :: parts) := by
      rw [OnLine, OnLine, List.isChain_cons_cons]
    have hquiet : ∀ part ∈ parts, operand cx .unwrapped base part = [] :=
      operand_of_mem_creationPart hparts
    simp only [operand, hfault, List.append_eq_nil_iff, Context.noWrap_eq_nil_iff,
      creationParts_eq_nil_iff hparts]
    rw [Joined, hline, List.forall_mem_cons, List.forall_mem_cons, and_iff_right hmark,
      and_iff_left hquiet]
    tauto

/-- Content that has its shape as far as it is entered: what is found in it is what is found in it
as an operand, and there is a node before the closing mark, which ends where the content ends. -/
theorem exists_inside_eq (cx : Context) (base : Nat) (t : Tree)
    (h : ¬t.Inert ∨ t.kind = .construct .parenExpr → ∀ n, t.Reaches n → n.FitsExactly) :
    ∃ prev, inside cx .unwrapped base t = (operand cx .unwrapped base t, some prev) ∧
      prev.rightmost = t.rightmost := by
  induction t using Tree.children_induction with
  | token kind text pos => exact ⟨_, rfl, rfl⟩
  | empty kind pos =>
    by_cases hparen : kind = .parenExpr
    · subst hparen
      have hfits := (fitsExactly_iff.1 (h (.inr rfl) _ (.self _))).1
      have hnil : [] ∈ _ := hfits _ shape?_parenExpr
      exact absurd hnil nil_notMem_one_mul
    · have hinert : (Tree.empty kind pos).Inert := Tree.inert_of_hasChildren rfl
      refine ⟨.empty kind pos, ?_, rfl⟩
      rw [inside_of_inert hinert, operand_of_inert hinert,
        if_neg (by simpa [Tree.kind] using hparen)]
  | node kind first rest _ hrest =>
    by_cases hparen : kind = .parenExpr
    · subst hparen
      have hexact := h (.inr rfl)
      obtain ⟨hfault, hlength⟩ := slots_of_fitsExactly cx shape?_parenExpr (hexact _ (.self _))
      obtain ⟨content, close, rfl⟩ := List.length_eq_two.1 (Nat.succ.inj hlength)
      obtain ⟨prev, hinside, -⟩ := hrest content List.mem_cons_self fun hentered n hn =>
        hexact n (.operand (List.mem_cons_of_mem _ List.mem_cons_self)
          (hentered.imp id fun hkind => ⟨rfl, hkind⟩) hn)
      refine ⟨close, ?_, rfl⟩
      rw [inside, operand]
      refine Prod.ext rfl ?_
      rw [parens_cons, hfault]
      simp only [level_unwrapped, hinside, Option.map_some]
    · rw [inside_of_ne hparen]
      exact ⟨_, rfl, rfl⟩

/-- Parentheses are quiet exactly if their children are joined; here the levels of nested
parentheses are checked at once, so all of them must have their shapes. -/
theorem parens_eq_nil_iff (h : ∀ n, (Tree.node .parenExpr first rest).Reaches n → n.FitsExactly) :
    operand cx .unwrapped base (.node .parenExpr first rest) = [] ↔
      Joined cx base (first :: rest) := by
  obtain ⟨hfault, hlength⟩ := slots_of_fitsExactly cx shape?_parenExpr (h _ (.self _))
  obtain ⟨content, close, rfl⟩ := List.length_eq_two.1 (Nat.succ.inj hlength)
  obtain ⟨prev, hinside, hlast⟩ := exists_inside_eq cx base content fun hentered n hn =>
    h n (.operand (List.mem_cons_of_mem _ List.mem_cons_self)
      (hentered.imp id fun hkind => ⟨rfl, hkind⟩) hn)
  -- The closing mark is compared with the end of the content, whatever stands there.
  have hclosing : sameLine prev close = sameLine content close := by
    unfold sameLine
    rw [hlast]
  have hfound : operand cx .unwrapped base (.node .parenExpr first [content, close]) =
      cx.noWrap first content ++ operand cx .unwrapped base content ++ cx.noWrap prev close := by
    rw [operand, parens_fst, hfault]
    simp only [level_unwrapped, hinside, Option.elim_some]
  simp only [shapeFault?_eq, fault?_cons] at hfault
  obtain ⟨hopen, -, hclose, -⟩ := hfault
  simp [hfound, Joined, OnLine, Context.noWrap_eq_nil_iff, hclosing,
    operand_of_accepts_token hopen, operand_of_accepts_token hclose]
  tauto

end Lines

/-! ## Whole expressions -/

/-- The children of a node share lines, if the node has a shape of its own. -/
def SharesLines (t : Tree) : Prop := (shape? t.kind).isSome = true → OnLine t.children

/-- A node whose kind has no shape has no boundaries that could wrap. -/
theorem sharesLines_of_shape? {t : Tree} (h : shape? t.kind = none) : SharesLines t := by
  intro hshape
  rw [h] at hshape
  cases hshape

/-- A node without surplus children has all of them read, if it has a shape. -/
theorem read_eq_children {t : Tree} (h : t.FitsExactly) (hshape : (shape? t.kind).isSome = true) :
    t.read = t.children := by
  have hsurplus := (fitsExactly_iff.1 h).2
  unfold Tree.surplus at hsurplus
  unfold Tree.read
  cases hlength : Tree.readLength? t.kind with
  | some n =>
    rw [hlength] at hsurplus
    exact List.take_of_length_le (List.drop_eq_nil_iff.1 hsurplus)
  | none =>
    cases hkind : t.kind with
    | token kind =>
      rw [hkind] at hshape
      cases hshape
    | construct kind =>
      rw [hkind] at hshape hlength
      cases kind with
      | binaryExpr | ternaryExpr | newExpr => rfl
      | indexExpr | callExpr | fieldAccess | parenExpr => cases hlength
      | _ => cases hshape

/-- Parentheses that are entered have children in a tree of exact shapes, like all other nodes that
are entered. -/
theorem not_inert_of_enters {t operand : Tree} (h : ∀ n, t.Reaches n → n.FitsExactly)
    (hread : operand ∈ t.read) (henters : t.Enters operand) : ¬operand.Inert := by
  intro hinert
  have hexact : operand.FitsExactly := h operand (.operand hread henters (.self operand))
  rcases henters with hentered | ⟨-, hparen⟩
  · exact hentered hinert
  · cases operand with
    | token => cases hparen
    | empty kind pos =>
      cases hparen
      exact nil_notMem_one_mul (hexact _ shape?_parenExpr)
    | node kind first rest =>
      cases hparen
      cases hinert rfl

/-- Nothing is found in a tree of exact shapes if this holds of its operands, and its children share
lines where it has a shape. So it holds if the nodes that are entered have this property. -/
theorem eq_nil_iff_of_operands {cx : Context} {base : Nat} {t : Tree}
    (h : ∀ n, t.Reaches n → n.FitsExactly)
    (hnode : operand cx .unwrapped base t = [] ↔
      SharesLines t ∧ ∀ c ∈ t.read, operand cx .unwrapped base c = [])
    (hread : ∀ c ∈ t.read, (∀ n, c.Reaches n → n.FitsExactly) →
      (operand cx .unwrapped base c = [] ↔ (¬c.Inert → ∀ n, c.Reaches n → SharesLines n))) :
    operand cx .unwrapped base t = [] ↔ ∀ n, t.Reaches n → SharesLines n := by
  rw [hnode, Tree.forall_reaches_iff]
  refine and_congr_right fun _ => forall₂_congr fun c hc => ?_
  by_cases hinert : c.Inert
  · have hunentered : ¬t.Enters c := fun henters => not_inert_of_enters h hc henters hinert
    simp [operand_of_inert hinert, hunentered]
  · have henters : t.Enters c := .inl hinert
    rw [hread c hc fun n hn => h n (.operand hc henters hn)]
    simp [hinert, henters]

/-- The same for a node that has a shape: all of its children are read. -/
theorem eq_nil_iff_of_joined {cx : Context} {base : Nat} {t : Tree} (hexact : t.FitsExactly)
    (hshape : (shape? t.kind).isSome = true)
    (h : operand cx .unwrapped base t = [] ↔ Joined cx base t.children) :
    operand cx .unwrapped base t = [] ↔
      SharesLines t ∧ ∀ c ∈ t.read, operand cx .unwrapped base c = [] := by
  rw [h, read_eq_children hexact hshape, SharesLines, forall_prop_of_true hshape, Joined]

/-- Several operands are quiet inside exactly if each of them is. -/
theorem operands_eq_nil_iff {cx : Context} {base : Nat} {ts : List Tree} :
    operands cx .unwrapped base ts = [] ↔ ∀ t ∈ ts, operand cx .unwrapped base t = [] := by
  induction ts with
  | nil => simp [operands]
  | cons t ts ih => rw [operands, List.append_eq_nil_iff, ih, List.forall_mem_cons]

/-- The checker comes only to children. -/
theorem mem_children_of_mem_read {t c : Tree} (h : c ∈ t.read) : c ∈ t.children := by
  unfold Tree.read at h
  split at h
  · exact List.mem_of_mem_take h
  · split at h
    · exact h
    · exact h
    · exact h
    · exact h
    · cases h

/-- A tree in which nothing is checked is quiet, and nothing is asked of it. -/
theorem eq_nil_iff_of_inert {cx : Context} {base : Nat} {t : Tree} (h : t.Inert) :
    operand cx .unwrapped base t = [] ↔ (¬t.Inert → ∀ n, t.Reaches n → SharesLines n) :=
  iff_of_true (operand_of_inert h) fun hentered => absurd h hentered

/-- Nothing is found in a tree of exact shapes exactly if the children of the nodes that are entered
share lines. -/
theorem operand_eq_nil_iff {cx : Context} {base : Nat} {t : Tree}
    (h : ∀ n, t.Reaches n → n.FitsExactly) :
    operand cx .unwrapped base t = [] ↔ (¬t.Inert → ∀ n, t.Reaches n → SharesLines n) := by
  induction t using Tree.children_induction with
  | token kind text pos => exact eq_nil_iff_of_inert (Tree.inert_of_hasChildren rfl)
  | empty kind pos => exact eq_nil_iff_of_inert (Tree.inert_of_hasChildren rfl)
  | node kind first rest hfirst hrest =>
    by_cases hexpression : (Kind.construct kind).isExpression = true
    · have hentered : ¬(Tree.node kind first rest).Inert := fun ht =>
        Bool.noConfusion (hexpression.symm.trans (ht rfl))
      have hexact := h _ (.self _)
      rw [forall_prop_of_true hentered]
      refine eq_nil_iff_of_operands h ?_ ?_
      · cases kind with
        | binaryExpr => exact eq_nil_iff_of_joined hexact rfl (binary_eq_nil_iff hexact)
        | ternaryExpr => exact eq_nil_iff_of_joined hexact rfl (ternary_eq_nil_iff hexact)
        | indexExpr => exact eq_nil_iff_of_joined hexact rfl (index_eq_nil_iff hexact)
        | callExpr => exact eq_nil_iff_of_joined hexact rfl (call_eq_nil_iff hexact)
        | fieldAccess => exact eq_nil_iff_of_joined hexact rfl (fieldAccess_eq_nil_iff hexact)
        | parenExpr => exact eq_nil_iff_of_joined hexact rfl (parens_eq_nil_iff h)
        | newExpr => exact eq_nil_iff_of_joined hexact rfl (creation_eq_nil_iff hexact)
        | unaryExpr =>
          have hread : (Tree.node .unaryExpr first rest).read = first :: rest := rfl
          have hshares := sharesLines_of_shape? (t := .node .unaryExpr first rest) rfl
          rw [operand, List.append_eq_nil_iff, operands_eq_nil_iff, hread, List.forall_mem_cons,
            and_iff_right hshares]
        | arrayInitializer =>
          have hshares := sharesLines_of_shape? (t := .node .arrayInitializer first rest) rfl
          have hread : (Tree.node .arrayInitializer first rest).read = [] := rfl
          rw [hread]
          exact iff_of_true (by simp [operand]) ⟨hshares, List.forall_mem_nil _⟩
        | _ => cases hexpression
      · intro c hc hbelow
        rcases List.mem_cons.1 (mem_children_of_mem_read hc) with rfl | hc
        · exact hfirst hbelow
        · exact hrest c hc hbelow
    · exact eq_nil_iff_of_inert fun _ => (Bool.not_eq_true _).mp hexpression

/-- Only expressions are entered from an expression. -/
theorem isExpression_of_reaches {t n : Tree} (h : t.kind.isExpression = true) (hn : t.Reaches n) :
    n.kind.isExpression = true := by
  induction hn with
  | self => exact h
  | operand hread henters hn ih =>
    refine ih ?_
    rcases henters with hentered | ⟨-, hparen⟩
    · by_contra hexpression
      exact hentered fun _ => (Bool.not_eq_true _).mp hexpression
    · rw [hparen]
      rfl

/-- Of the expressions with children, all but unary expressions and array initializers have
shapes. -/
theorem sharesLines_iff {n : Tree} (h : n.kind.isExpression = true) :
    SharesLines n ↔ (n.kind ≠ .construct .unaryExpr → n.kind ≠ .construct .arrayInitializer →
      OnLine n.children) := by
  unfold SharesLines
  cases n with
  | token => simp [Tree.children, OnLine]
  | empty => simp [Tree.children, OnLine]
  | node kind first rest =>
    cases kind with
    | binaryExpr | unaryExpr | ternaryExpr | indexExpr | callExpr | fieldAccess | parenExpr
    | newExpr | arrayInitializer => simp [Tree.kind, shape?]
    | _ => cases h

/-- Where nothing is checked, all nodes that are reached share lines. -/
theorem sharesLines_of_inert {t : Tree} (h : t.kind.isExpression = true) (hinert : t.Inert) :
    ∀ n, t.Reaches n → SharesLines n := by
  have hchildren : t.children = [] := by
    cases t with
    | token | empty => rfl
    | node => exact Bool.noConfusion (h.symm.trans (hinert rfl))
  refine Tree.forall_reaches_iff.2 ⟨fun _ => ?_, fun operand hread => ?_⟩
  · rw [hchildren]
    exact List.isChain_nil
  · have hmem := mem_children_of_mem_read hread
    rw [hchildren] at hmem
    cases hmem

/-- In an inline expression no line end and no column is asked for. What is found does not depend on
the base or on the settings. Where all nodes that are entered have exactly their shapes, nothing is
found exactly if each two neighbours among the children of each of them share a line, apart from the
children of unary expressions and of array initializers. -/
theorem inline_shares_lines (cx : Context) (t : Tree) (base : Nat) :
    (∀ f ∈ check cx t base true, f.message.rule ≠ .mustWrap ∧ f.message.rule ≠ .column) ∧
      (∀ settings base', check ⟨cx.source, settings⟩ t base' true = check cx t base true) ∧
      (t.kind.isExpression = true → (∀ n, t.Reaches n → n.FitsExactly) →
        (check cx t base true = [] ↔ ∀ n, t.Reaches n → n.kind ≠ .construct .unaryExpr →
          n.kind ≠ .construct .arrayInitializer →
            n.children.IsChain fun prev next => sameLine prev next = true)) := by
  obtain ⟨remarks, hfound⟩ := exists_check_eq t
  refine ⟨?_, ?_, ?_⟩
  · intro f hf
    rw [hfound cx base] at hf
    obtain ⟨remark, -, rfl⟩ := List.mem_map.1 hf
    exact remark.rule_finding cx
  · intro settings base'
    have hplaces : Remark.finding ⟨cx.source, settings⟩ = Remark.finding cx := by
      funext remark
      cases remark <;> rfl
    rw [hfound cx base, hfound ⟨cx.source, settings⟩ base', hplaces]
  · intro hexpression hexact
    have hlacks : lacksChildren t.kind t.hasChildren = false := by
      by_contra hlacks
      refine Tree.not_wellShaped_of_lacksChildren (Bool.eq_true_of_not_eq_false hlacks) ?_
      exact fun n hn => (fitsExactly_iff.1 (hexact n hn)).1
    have hshares : check cx t base true = [] ↔ ∀ n, t.Reaches n → SharesLines n := by
      rw [check_eq, hlacks, ExprPolicies.ofSettings_inline]
      refine (operand_eq_nil_iff hexact).trans ⟨fun h => ?_, fun h _ => h⟩
      by_cases hinert : t.Inert
      · exact sharesLines_of_inert hexpression hinert
      · exact h hinert
    exact hshares.trans (forall₂_congr fun n hn =>
      sharesLines_iff (isExpression_of_reaches hexpression hn))

/-- An array initializer over two lines. -/
def twoLineInitializer : Tree :=
  .node .arrayInitializer (.token .lBrace "\x7b" ⟨1, 4⟩)
    [.token .literal "1" ⟨1, 5⟩, .token .comma "," ⟨1, 6⟩, .token .literal "2" ⟨2, 0⟩,
      .token .rBrace "\x7d" ⟨2, 1⟩]

/-- The assignment of an expression to a name. -/
def assignment (value : Tree) : Tree :=
  .node .binaryExpr (.token .identifier "a" ⟨1, 0⟩) [.token .assign "=" ⟨1, 2⟩, value]

/-- An assignment has its shapes if its value has. -/
theorem fitsExactly_assignment {value : Tree} (hkind : value.kind.isExpression = true)
    (hvalue : ∀ n, value.Reaches n → n.FitsExactly) :
    ∀ n, (assignment value).Reaches n → n.FitsExactly := by
  have hshape : shape? (.construct .binaryExpr) = some (Grammar.expression * rounds true) := by
    simp [shape?, rounds, mul_assoc]
  refine Tree.forall_reaches_iff.2 ⟨fun shape h => ?_, fun operand hread henters => ?_⟩
  · obtain rfl : Grammar.expression * rounds true = shape := Option.some.inj (hshape.symm.trans h)
    have hround : [.token .assign, value.kind] ∈ rounds true :=
      cons_mem_rounds.2 (cons_mem_one_mul.2 ⟨.inr rfl, cons_mem_one_mul.2
        ⟨hkind, nil_mem_rounds.2 rfl⟩⟩)
    exact cons_mem_one_mul.2 ⟨rfl, hround⟩
  · have htoken : ∀ kind text pos, ¬(assignment value).Enters (.token kind text pos) := by
      rintro kind text pos (hentered | ⟨-, hparen⟩)
      · exact hentered (Tree.inert_of_hasChildren rfl)
      · cases hparen
    have hmem : operand ∈ [.token .identifier "a" ⟨1, 0⟩, .token .assign "=" ⟨1, 2⟩, value] := hread
    simp only [List.mem_cons, List.not_mem_nil, or_false] at hmem
    rcases hmem with rfl | rfl | rfl
    · exact absurd henters (htoken _ _ _)
    · exact absurd henters (htoken _ _ _)
    · exact hvalue

/-- The assignment of a name on the next line. -/
theorem inline_shares_lines_assignment :
    (assignment (.token .identifier "b" ⟨2, 0⟩)).kind.isExpression = true ∧
      (∀ n, (assignment (.token .identifier "b" ⟨2, 0⟩)).Reaches n → n.FitsExactly) ∧
      check ⟨.ofString "a =\nb" 4, .default⟩ (assignment (.token .identifier "b" ⟨2, 0⟩)) 0 true ≠
        [] := by
  have hname : ∀ n, (Tree.token .identifier "b" ⟨2, 0⟩).Reaches n → n.FitsExactly :=
    Tree.forall_reaches_iff.2 ⟨nofun, nofun⟩
  have hexact := fitsExactly_assignment rfl hname
  refine ⟨rfl, hexact, fun hquiet => ?_⟩
  obtain ⟨-, -, hlines⟩ := inline_shares_lines ⟨.ofString "a =\nb" 4, .default⟩
    (assignment (.token .identifier "b" ⟨2, 0⟩)) 0
  exact absurd ((hlines rfl hexact).1 hquiet _ (.self _) nofun nofun) (by decide)

/-- An array initializer counts as an expression and may go on over several lines, as its program
says, although the assignment around it is inline. -/
theorem initializer_wraps_inline :
    ∃ (cx : Context) (t n : Tree), t.kind.isExpression = true ∧
      (∀ m, t.Reaches m → m.FitsExactly) ∧
      (∀ f ∈ t.foci, f.tree.kind ≠ .construct .unaryExpr) ∧ check cx t 0 true = [] ∧
      t.Reaches n ∧ n.kind.isExpression = true ∧ n.hasChildren = true ∧
      ¬n.children.IsChain fun prev next => sameLine prev next = true := by
  have hinitializer : ∀ n, twoLineInitializer.Reaches n → n.FitsExactly :=
    Tree.forall_reaches_iff.2 ⟨nofun, nofun⟩
  refine ⟨⟨.ofString "a = \x7b1,\n2\x7d" 4, .default⟩, assignment twoLineInitializer,
    twoLineInitializer, rfl, fitsExactly_assignment rfl hinitializer, by decide, rfl, ?_, rfl, rfl,
    by decide⟩
  have hread : twoLineInitializer ∈ (assignment twoLineInitializer).read :=
    List.mem_cons_of_mem _ (List.mem_cons_of_mem _ List.mem_cons_self)
  exact .operand hread (.inl fun hinert => nomatch hinert rfl) (.self _)

end Expression

end TreeLayout
