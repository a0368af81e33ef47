import TreeLayout.Proofs.Expression.Forms
import TreeLayout.Proofs.Table.Sequences
import TreeLayout.Proofs.Tree.Root

/-!
# The shapes of expressions

`Grammar.shape?` gives the children that each form of expression consists of. The expression checker
reports a fault of shape exactly if the children that it reads of some node do not have the shape of
the node's form. It goes from a node to those of its operands that are expressions with children
(`Tree.Reaches`).

Of an operator chain, a conditional expression and a creation all children are read. Of the other
forms only as many are read as the shape has, so that further children are surplus that nothing is
said about (`Tree.surplus`). Hence the absence of faults means that all nodes have exactly their
shapes if none of them has a surplus (`Expression.faultless_iff_shapes`), and a call with a surplus
is a case where it does not (`Expression.surplus_of_call_unreported`).

The proof follows the checker: one equivalence for each form, from those for the children, which are
put together by induction over the tree (`Expression.recognised`).
-/

namespace TreeLayout

open scoped Computability

/-! ## Shapes -/

namespace Grammar

/-- One operator or assignment mark. -/
def operator : Language Kind := one fun k => k = .token .operator ∨ k = .token .assign

/-- The type of a created object: a name or any construct. -/
def createdType : Language Kind := one fun k => k.isToken = false ∨ k = .token .identifier

/-- What may follow the type of a created object. -/
def creationPart : Language Kind :=
  one fun k => k = .construct .arguments ∨ k = .construct .arrayInitializer ∨
    k = .construct .arrayType ∨ k = .construct .classBody

/-- The children of an expression of a form. -/
def shape? : Kind → Option (Language Kind)
  | .construct .binaryExpr =>
    some (expression * (operator * expression) * (operator * expression)∗)
  | .construct .ternaryExpr =>
    some (expression * token .question * expression * token .colon * expression)
  | .construct .indexExpr => some (expression * token .lBracket * expression * token .rBracket)
  | .construct .callExpr => some (expression * construct .arguments)
  | .construct .fieldAccess => some (expression * token .dot * token .identifier)
  | .construct .parenExpr => some (token .lParen * expression * token .rParen)
  | .construct .newExpr => some (token .kwNew * createdType * creationPart∗)
  | _ => none

variable {P : Kind → Prop} {M : Language Kind}

/-- A language that starts with one more kind does not have the empty list. -/
theorem nil_notMem_one_mul : [] ∉ one P * M := by
  rw [mem_one_mul]
  rintro ⟨k, ks, h, -⟩
  cases h

/-- Any number of kinds with a property. -/
theorem mem_star_one {ks : List Kind} : ks ∈ (one P)∗ ↔ ∀ k ∈ ks, P k := by
  induction ks with
  | nil => simp [Language.nil_mem_kstar]
  | cons k ks ih =>
    rw [← Language.one_add_self_mul_kstar_eq_kstar, Language.mem_add, cons_mem_one_mul, ih,
      List.forall_mem_cons, Language.mem_one, or_iff_right (List.cons_ne_nil k ks)]

/-- The operators and operands after the first operand; there is at least one operator if
`needed`. -/
def rounds (needed : Bool) : Language Kind :=
  if needed then operator * expression * (operator * expression)∗ else (operator * expression)∗

/-- Of the rounds of a chain there may be none, unless one is needed. -/
theorem nil_mem_rounds {needed : Bool} : [] ∈ rounds needed ↔ needed = false := by
  cases needed
  · simp [rounds, Language.nil_mem_kstar]
  · have hnil : [] ∉ operator * (expression * (operator * expression)∗) := nil_notMem_one_mul
    simpa [rounds, mul_assoc] using hnil

/-- What does not end at once begins with a round. -/
theorem cons_mem_rounds {needed : Bool} {k : Kind} {ks : List Kind} :
    k :: ks ∈ rounds needed ↔ k :: ks ∈ operator * (expression * rounds false) := by
  cases needed
  · have hround : rounds false = 1 + operator * (expression * rounds false) := by
      simp only [rounds, Bool.false_eq_true, if_false]
      rw [← mul_assoc, Language.one_add_self_mul_kstar_eq_kstar]
    nth_rewrite 1 [hround]
    rw [Language.mem_add, Language.mem_one, or_iff_right (List.cons_ne_nil k ks)]
  · simp [rounds, mul_assoc]

end Grammar

open Grammar

namespace Tree

/-- How many children of a node are read, for the forms of which not all are. -/
def readLength? : Kind → Option Nat
  | .construct .indexExpr => some 4
  | .construct .callExpr => some 2
  | .construct .fieldAccess | .construct .parenExpr => some 3
  | _ => none

/-- The children of an expression that are read. Trees that are no expressions, and array
initializers, are not looked into. -/
def read (t : Tree) : List Tree :=
  match readLength? t.kind with
  | some n => t.children.take n
  | none =>
    match t.kind with
    | .construct .binaryExpr | .construct .unaryExpr | .construct .ternaryExpr
    | .construct .newExpr => t.children
    | _ => []

/-- The children of an expression after those that are read. -/
def surplus (t : Tree) : List Tree :=
  match readLength? t.kind with
  | some n => t.children.drop n
  | none => []

/-- The children that are read have the shape of the node's form. -/
def Fits (t : Tree) : Prop := ∀ shape, shape? t.kind = some shape → t.read.map kind ∈ shape

/-- The children have the shape of the node's form. -/
def FitsExactly (t : Tree) : Prop :=
  ∀ shape, shape? t.kind = some shape → t.children.map kind ∈ shape

/-- A node with a shape fits exactly if the kinds of what is read are in it. -/
theorem fits_iff {kind : ConstructKind} {first : Tree} {rest : List Tree} {shape : Language Kind}
    (h : shape? (.construct kind) = some shape) :
    (node kind first rest).Fits ↔ (node kind first rest).read.map Tree.kind ∈ shape := by
  simp [Fits, Tree.kind, h]

/-- An operand of a node is checked too: it is an expression with children, or both are
parenthesised. -/
def Enters (t operand : Tree) : Prop :=
  ¬operand.Inert ∨ t.kind = .construct .parenExpr ∧ operand.kind = .construct .parenExpr

/-- The nodes that the checker comes to from a node. -/
inductive Reaches : Tree → Tree → Prop
  /-- The node itself. -/
  | self (t : Tree) : Reaches t t
  /-- What it comes to from an operand. -/
  | operand {t operand n : Tree} : operand ∈ t.read → t.Enters operand → Reaches operand n →
      Reaches t n

/-- A property holds of all nodes that the checker comes to from a node if it holds of the node and
of all those that it comes to from the operands. -/
theorem forall_reaches_iff {P : Tree → Prop} {t : Tree} :
    (∀ n, t.Reaches n → P n) ↔
      P t ∧ ∀ operand ∈ t.read, t.Enters operand → ∀ n, operand.Reaches n → P n := by
  constructor
  · intro h
    exact ⟨h t (.self t), fun operand hread henters n hn => h n (.operand hread henters hn)⟩
  · rintro ⟨hself, hoperands⟩ n hn
    cases hn with
    | self => exact hself
    | operand hread henters hn => exact hoperands _ hread henters n hn

/-- All nodes that the checker comes to have their shapes in what it reads of them. -/
def WellShaped (t : Tree) : Prop := ∀ n, t.Reaches n → n.Fits

/-- A tree is well shaped if its children are and it fits itself. -/
theorem wellShaped_iff {t : Tree} :
    t.WellShaped ↔ t.Fits ∧ ∀ operand ∈ t.read, t.Enters operand → operand.WellShaped :=
  forall_reaches_iff

/-- An operand is not entered, or is well shaped. -/
def Passes (t : Tree) : Prop := ¬t.Inert → t.WellShaped

/-- What is not looked into passes. -/
theorem passes_of_inert {t : Tree} (h : t.Inert) : t.Passes := fun hentered => absurd h hentered

/-- Tokens are not looked into. -/
theorem inert_of_kind_token {t : Tree} {kind : TokenKind} (h : t.kind = .token kind) : t.Inert := by
  intro hchildren
  cases t with
  | token | empty => cases hchildren
  | node => cases h

/-- All operands of a node that is not parenthesised are entered alike. -/
theorem wellShaped_iff_of_ne {kind : ConstructKind} (h : kind ≠ .parenExpr) (first : Tree)
    (rest : List Tree) :
    (node kind first rest).WellShaped ↔
      (node kind first rest).Fits ∧ ∀ operand ∈ (node kind first rest).read, operand.Passes := by
  have henters : ∀ operand, (node kind first rest).Enters operand ↔ ¬operand.Inert :=
    fun operand => by simp [Enters, Tree.kind, h]
  rw [wellShaped_iff]
  simp only [henters, Passes]

/-- Trees without a shape that are not looked into are well shaped. -/
theorem wellShaped_of_unread {t : Tree} (hshape : shape? t.kind = none) (hread : t.read = []) :
    t.WellShaped := by
  rw [wellShaped_iff, hread]
  refine ⟨fun shape hsome => ?_, fun operand hmem => nomatch hmem⟩
  rw [hshape] at hsome
  cases hsome

/-- Trees that are not entered are well shaped unless they lack their children. -/
theorem wellShaped_of_inert {t : Tree} (h : t.Inert)
    (hlacks : Expression.lacksChildren t.kind t.hasChildren = false) : t.WellShaped := by
  cases t with
  | token => exact wellShaped_of_unread rfl rfl
  | empty kind pos => cases kind <;> first | exact wellShaped_of_unread rfl rfl | cases hlacks
  | node kind first rest =>
    have hkind := h rfl
    cases kind <;> first | exact wellShaped_of_unread rfl rfl | cases hkind

/-- No shape is without children. -/
theorem not_wellShaped_of_lacksChildren {t : Tree}
    (h : Expression.lacksChildren t.kind t.hasChildren = true) : ¬t.WellShaped := by
  intro hshaped
  have hfits := (wellShaped_iff.1 hshaped).1
  cases t with
  | token => cases h
  | node => cases h
  | empty kind pos =>
    cases kind with
    | callExpr => exact nil_notMem_one_mul (hfits _ rfl)
    | binaryExpr | ternaryExpr | indexExpr | fieldAccess | parenExpr | newExpr =>
      have hnil : [] ∈ _ := hfits _ rfl
      simp only [mul_assoc] at hnil
      exact nil_notMem_one_mul hnil
    | _ => cases h

end Tree

/-! ## Slots -/

/-- No finding is about the shape of the tree. -/
def LayoutOnly (fs : List Finding) : Prop := ∀ f ∈ fs, f.isLayout

/-- Finding nothing is finding no structural fault. -/
@[simp] theorem layoutOnly_nil : LayoutOnly [] := fun _ h => nomatch h

/-- Two lists have no structural fault exactly if neither has one. -/
@[simp] theorem layoutOnly_append {fs gs : List Finding} :
    LayoutOnly (fs ++ gs) ↔ LayoutOnly fs ∧ LayoutOnly gs :=
  List.forall_mem_append

/-- A structural fault is one. -/
theorem not_layoutOnly_of_structural {f : Finding} (h : f.message.isStructural = true) :
    ¬LayoutOnly [f] := by
  intro hlayout
  have hf : f.message.isStructural = false := hlayout f (List.mem_singleton.2 rfl)
  rw [h] at hf
  cases hf

namespace Expression

variable {cx : Context} {p : ExprPolicies} {base : Nat}

/-- The kinds that fit a slot. -/
def Slot.words (slot : Slot) : Language Kind := one fun k => slot.accepts k = true

/-- The lists of kinds that fit slots. -/
def slotWords (slots : List Slot) : Language Kind := (slots.map Slot.words).prod

/-- Without slots the only word is the empty one. -/
@[simp] theorem slotWords_nil : slotWords [] = 1 := rfl

/-- The words of several slots start with those of the first one. -/
@[simp] theorem slotWords_cons (slot : Slot) (slots : List Slot) :
    slotWords (slot :: slots) = slot.words * slotWords slots :=
  List.prod_cons

/-- The slot of an expression takes any expression. -/
@[simp] theorem Slot.words_expression : Slot.expression.words = Grammar.expression := rfl

/-- The slot of a token takes that token. -/
@[simp] theorem Slot.words_token (k : TokenKind) : (Slot.token k).words = Grammar.token k :=
  congrArg one (funext fun _ => decide_eq_true_eq)

/-- The slot of arguments takes arguments. -/
@[simp] theorem Slot.words_arguments : Slot.arguments.words = construct .arguments :=
  congrArg one (funext fun _ => decide_eq_true_eq)

/-- Without slots no child is at fault. -/
@[simp] theorem fault?_nil {last : Tree} {ts : List Tree} : fault? cx last [] ts = none := by
  simp [fault?]

/-- A slot without a child is a fault. -/
@[simp] theorem fault?_missing {last : Tree} {slot : Slot} {slots : List Slot} :
    fault? cx last (slot :: slots) [] ≠ none := by
  simp [fault?]

/-- There is no fault exactly if the first child fits its slot and there is none later. -/
@[simp] theorem fault?_cons {last t : Tree} {slot : Slot} {slots : List Slot} {ts : List Tree} :
    fault? cx last (slot :: slots) (t :: ts) = none ↔
      slot.accepts t.kind = true ∧ fault? cx t slots ts = none := by
  rw [fault?]
  split <;> simp_all

/-- No fault is found where the children fit the slots, whatever follows them. -/
theorem fault?_eq_none_iff {last : Tree} {slots : List Slot} {ts : List Tree} :
    fault? cx last slots ts = none ↔ (ts.take slots.length).map Tree.kind ∈ slotWords slots := by
  induction slots generalizing last ts with
  | nil => simp [Language.mem_one]
  | cons slot slots ih =>
    cases ts with
    | nil =>
      have hnil : [] ∉ slot.words * slotWords slots := nil_notMem_one_mul
      simpa using hnil
    | cons t ts =>
      rw [fault?_cons, ih, slotWords_cons, List.length_cons, List.take_succ_cons, List.map_cons,
        Slot.words, cons_mem_one_mul]

/-- A word of several slots has one kind for each of them. -/
theorem length_of_mem_slotWords {slots : List Slot} {ks : List Kind} (h : ks ∈ slotWords slots) :
    ks.length = slots.length := by
  induction slots generalizing ks with
  | nil => simpa [Language.mem_one] using h
  | cons slot slots ih =>
    obtain ⟨k, ks, rfl, -, hks⟩ := mem_one_mul.1 (slotWords_cons slot slots ▸ h)
    rw [List.length_cons, List.length_cons, ih hks]

/-- What fits the slot of a token passes, since it is a token. -/
theorem passes_of_accepts_token {t : Tree} {kind : TokenKind}
    (h : (Slot.token kind).accepts t.kind = true) : t.Passes :=
  Tree.passes_of_inert (Tree.inert_of_kind_token (of_decide_eq_true h))

/-- What fits the slot of an operator passes, since it is a token. -/
theorem passes_of_accepts_operator {t : Tree} (h : Slot.operator.accepts t.kind = true) :
    t.Passes := by
  have hkind : t.kind = .token .operator ∨ t.kind = .token .assign := by
    simpa [Slot.operator] using h
  rcases hkind with hkind | hkind
  · exact Tree.passes_of_inert (Tree.inert_of_kind_token hkind)
  · exact Tree.passes_of_inert (Tree.inert_of_kind_token hkind)

/-- A child that does not fit its slot is a structural fault. -/
theorem isStructural_of_fault? {last : Tree} {slots : List Slot} {ts : List Tree} {fault : Finding}
    (h : fault? cx last slots ts = some fault) : fault.message.isStructural = true := by
  induction slots generalizing last ts with
  | nil => simp at h
  | cons slot slots ih =>
    cases ts with
    | nil =>
      cases h
      rfl
    | cons t ts =>
      rw [fault?] at h
      split at h
      · exact ih h
      · cases h
        rfl

/-- The first child is one more child for the slots. -/
@[simp] theorem shapeFault?_eq (slots : List Slot) (first : Tree) (rest : List Tree) :
    shapeFault? cx slots first rest = fault? cx first slots (first :: rest) := by
  cases slots <;> rfl

/-- There is no fault in a node exactly if the kinds of its first children, one for each slot, are a
word of the slots. -/
theorem shapeFault?_eq_none_iff {slots : List Slot} {first : Tree} {rest : List Tree} :
    shapeFault? cx slots first rest = none ↔
      ((first :: rest).take slots.length).map Tree.kind ∈ slotWords slots := by
  rw [shapeFault?_eq, fault?_eq_none_iff]

/-- Children that fit the slots have no fault. -/
theorem shapeFault?_of_mem {slots : List Slot} {first : Tree} {rest : List Tree}
    (h : (first :: rest).map Tree.kind ∈ slotWords slots) :
    shapeFault? cx slots first rest = none := by
  have hlength : (first :: rest).length = slots.length := by
    simpa using length_of_mem_slotWords h
  rwa [shapeFault?_eq_none_iff, ← hlength, List.take_length]

-- Five of the forms are given by slots.

/-- The shape of a conditional by its slots. -/
theorem shape?_ternaryExpr : shape? (.construct .ternaryExpr) = some (slotWords
    [.expression, .token .question, .expression, .token .colon, .expression]) := by
  simp [shape?, mul_assoc]

/-- The shape of an index access by its slots. -/
theorem shape?_indexExpr : shape? (.construct .indexExpr) = some (slotWords
    [.expression, .token .lBracket, .expression, .token .rBracket]) := by
  simp [shape?, mul_assoc]

/-- The shape of a call by its slots. -/
theorem shape?_callExpr :
    shape? (.construct .callExpr) = some (slotWords [.expression, .arguments]) := by
  simp [shape?]

/-- The shape of a field access by its slots. -/
theorem shape?_fieldAccess : shape? (.construct .fieldAccess) = some (slotWords
    [.expression, .token .dot, .token .identifier]) := by
  simp [shape?, mul_assoc]

/-- The shape of parentheses by their slots. -/
theorem shape?_parenExpr : shape? (.construct .parenExpr) = some (slotWords
    [.token .lParen, .expression, .token .rParen]) := by
  simp [shape?, mul_assoc]

/-- A node of which as many children are read as its shape has fits if there is no fault. -/
theorem fits_iff_of_slots {kind : ConstructKind} {slots : List Slot} {first : Tree}
    {rest : List Tree} (cx : Context) (hshape : shape? (.construct kind) = some (slotWords slots))
    (hread : (Tree.node kind first rest).read = (first :: rest).take slots.length) :
    (Tree.node kind first rest).Fits ↔ shapeFault? cx slots first rest = none := by
  rw [shapeFault?_eq_none_iff, ← hread]
  exact Tree.fits_iff hshape

/-- A form that begins with slots. A fault of these is a fault of shape, so what is found without
one decides. -/
theorem layoutOnly_iff_of_slots {t first : Tree} {slots : List Slot} {rest : List Tree}
    {found : List Finding} (hfits : t.Fits → shapeFault? cx slots first rest = none)
    (hnone : shapeFault? cx slots first rest = none → (LayoutOnly found ↔ t.WellShaped)) :
    LayoutOnly (match shapeFault? cx slots first rest with
      | some fault => [fault]
      | none => found) ↔ t.WellShaped := by
  cases hslots : shapeFault? cx slots first rest with
  | some fault =>
    -- The fault ends the check of the node, which does not fit.
    have hstructural := isStructural_of_fault? ((shapeFault?_eq slots first rest).symm.trans hslots)
    have hmisfit : ¬t.WellShaped := fun hshaped => by
      have hquiet := hfits (Tree.wellShaped_iff.1 hshaped).1
      rw [hslots] at hquiet
      cases hquiet
    exact iff_of_false (not_layoutOnly_of_structural hstructural) hmisfit
  | none => exact hnone hslots

/-! ## Forms -/

/-- Two nodes that have to share a line give no structural fault. -/
@[simp] theorem layoutOnly_noWrap {prev next : Tree} : LayoutOnly (cx.noWrap prev next) :=
  fun _ => Context.isLayout_of_mem_noWrap

/-- A boundary under a policy gives no structural fault. -/
@[simp] theorem layoutOnly_boundary {policy : WrapPolicy} {prev next : Tree} {column : Nat} :
    LayoutOnly (cx.boundary policy prev next column) :=
  match policy with
  | .no => fun _ => Context.isLayout_of_mem_noWrap
  | .may => fun _ => Context.isLayout_of_mem_mayWrap
  | .must => fun _ => Context.isLayout_of_mem_mustWrap

/-- Nodes that have to share a line give no structural fault. -/
@[simp] theorem layoutOnly_allOnLine {prev : Tree} {ts : List Tree} :
    LayoutOnly (allOnLine cx prev ts) := by
  induction ts generalizing prev with
  | nil => simp [allOnLine]
  | cons t ts ih => simp [allOnLine, ih]

/-- The boundaries of a conditional give no structural fault. -/
@[simp] theorem layoutOnly_ternaryBoundaries {column : Nat} {prev : Tree} {ts : List Tree} :
    LayoutOnly (ternaryBoundaries cx p column prev ts) := by
  induction ts generalizing prev with
  | nil => simp [ternaryBoundaries]
  | cons t ts ih => simp [ternaryBoundaries, ih]

/-- What is found inside a tree is about the layout alone exactly if the tree is well shaped, as far
as it is entered as an operand and as the content of parentheses. -/
structure Recognised (cx : Context) (p : ExprPolicies) (t : Tree) : Prop where
  operand (base : Nat) : LayoutOnly (Expression.operand cx p base t) ↔ t.Passes
  inside (base : Nat) : LayoutOnly (Expression.inside cx p base t).1 ↔
    (¬t.Inert ∨ t.kind = .construct .parenExpr → t.WellShaped)

section Forms

variable {first : Tree} {rest : List Tree}

/-- An index access has no structural fault exactly if it is well shaped. -/
theorem layoutOnly_index (hfirst : Recognised cx p first) (hrest : ∀ t ∈ rest, Recognised cx p t) :
    LayoutOnly (operand cx p base (.node .indexExpr first rest)) ↔
      (Tree.node .indexExpr first rest).WellShaped := by
  have hfits : (Tree.node .indexExpr first rest).Fits ↔ _ :=
    fits_iff_of_slots cx shape?_indexExpr rfl
  unfold operand
  refine layoutOnly_iff_of_slots hfits.1 fun h => ?_
  rw [Tree.wellShaped_iff_of_ne (by decide), and_iff_right (hfits.2 h)]
  rcases rest with _ | ⟨mark, _ | ⟨index, _ | ⟨close, surplus⟩⟩⟩
  · simp at h
  · simp at h
  · simp at h
  · have hread : (Tree.node .indexExpr first (mark :: index :: close :: surplus)).read =
        [first, mark, index, close] := rfl
    simp only [shapeFault?_eq, fault?_cons, fault?_nil] at h
    obtain ⟨-, hmark, -, hclose, -⟩ := h
    have hindex := hrest index (by simp)
    simp [hread, hfirst.operand, hindex.operand, passes_of_accepts_token hmark,
      passes_of_accepts_token hclose]

/-- A call has no structural fault exactly if it is well shaped. -/
theorem layoutOnly_call (hfirst : Recognised cx p first) :
    LayoutOnly (operand cx p base (.node .callExpr first rest)) ↔
      (Tree.node .callExpr first rest).WellShaped := by
  have hfits : (Tree.node .callExpr first rest).Fits ↔ _ :=
    fits_iff_of_slots cx shape?_callExpr rfl
  unfold operand
  refine layoutOnly_iff_of_slots hfits.1 fun h => ?_
  rw [Tree.wellShaped_iff_of_ne (by decide), and_iff_right (hfits.2 h)]
  cases rest with
  | nil => simp at h
  | cons arguments surplus =>
    have hread : (Tree.node .callExpr first (arguments :: surplus)).read = [first, arguments] := rfl
    simp only [shapeFault?_eq, fault?_cons, fault?_nil] at h
    have hkind : arguments.kind = .construct .arguments := of_decide_eq_true h.2.1
    have harguments : arguments.Inert := fun _ => hkind ▸ rfl
    simp [hread, hfirst.operand, Tree.passes_of_inert harguments]

/-- A field access has no structural fault exactly if it is well shaped. -/
theorem layoutOnly_fieldAccess (hfirst : Recognised cx p first) :
    LayoutOnly (operand cx p base (.node .fieldAccess first rest)) ↔
      (Tree.node .fieldAccess first rest).WellShaped := by
  have hfits : (Tree.node .fieldAccess first rest).Fits ↔ _ :=
    fits_iff_of_slots cx shape?_fieldAccess rfl
  unfold operand
  refine layoutOnly_iff_of_slots hfits.1 fun h => ?_
  rw [Tree.wellShaped_iff_of_ne (by decide), and_iff_right (hfits.2 h)]
  rcases rest with _ | ⟨dot, _ | ⟨name, surplus⟩⟩
  · simp at h
  · simp at h
  · have hread : (Tree.node .fieldAccess first (dot :: name :: surplus)).read =
        [first, dot, name] := rfl
    simp only [shapeFault?_eq, fault?_cons, fault?_nil] at h
    obtain ⟨-, hdot, hname, -⟩ := h
    simp [hread, hfirst.operand, passes_of_accepts_token hdot, passes_of_accepts_token hname]

/-- All children of a conditional expression are read, so that a surplus is found. -/
theorem layoutOnly_ternary (hfirst : Recognised cx p first)
    (hrest : ∀ t ∈ rest, Recognised cx p t) :
    LayoutOnly (operand cx p base (.node .ternaryExpr first rest)) ↔
      (Tree.node .ternaryExpr first rest).WellShaped := by
  have hread : (Tree.node .ternaryExpr first rest).read = first :: rest := rfl
  have hfits : (Tree.node .ternaryExpr first rest).Fits ↔ _ := Tree.fits_iff shape?_ternaryExpr
  rw [hread] at hfits
  unfold operand
  refine layoutOnly_iff_of_slots (fun h => shapeFault?_of_mem (hfits.1 h)) fun h => ?_
  rw [Tree.wellShaped_iff_of_ne (by decide), hread]
  rcases rest with _ | ⟨question, _ | ⟨yes, _ | ⟨colon, _ | ⟨no, _ | ⟨surplus, more⟩⟩⟩⟩⟩
  · simp at h
  · simp at h
  · simp at h
  · simp at h
  · rw [and_iff_right (hfits.2 (shapeFault?_eq_none_iff.1 h))]
    simp only [shapeFault?_eq, fault?_cons, fault?_nil] at h
    obtain ⟨-, hquestion, -, hcolon, -⟩ := h
    have hyes := hrest yes (by simp)
    have hno := hrest no (by simp)
    simp [hfirst.operand, hyes.operand, hno.operand, passes_of_accepts_token hquestion,
      passes_of_accepts_token hcolon]
  · -- The five slots are filled, and the child after them is reported.
    have hmisfit : ¬(Tree.node .ternaryExpr first
        (question :: yes :: colon :: no :: surplus :: more)).Fits := fun hfit => by
      have hlength := length_of_mem_slotWords (hfits.1 hfit)
      simp at hlength
    exact iff_of_false (not_layoutOnly_of_structural rfl) fun hshaped => hmisfit hshaped.1

/-- Operands have no structural fault exactly if all of them pass. -/
theorem layoutOnly_operands (hrest : ∀ t ∈ rest, Recognised cx p t) :
    LayoutOnly (operands cx p base rest) ↔ ∀ t ∈ rest, t.Passes := by
  induction rest with
  | nil => simp [operands]
  | cons t ts ih =>
    obtain ⟨ht, hts⟩ := List.forall_mem_cons.1 hrest
    rw [operands, layoutOnly_append, ht.operand, ih hts, List.forall_mem_cons]

/-- A unary expression has no structural fault exactly if it is well shaped. -/
theorem layoutOnly_unary (hfirst : Recognised cx p first) (hrest : ∀ t ∈ rest, Recognised cx p t) :
    LayoutOnly (operand cx p base (.node .unaryExpr first rest)) ↔
      (Tree.node .unaryExpr first rest).WellShaped := by
  have hread : (Tree.node .unaryExpr first rest).read = first :: rest := rfl
  have hfits : (Tree.node .unaryExpr first rest).Fits := fun _ h => nomatch h
  rw [operand, layoutOnly_append, hfirst.operand, layoutOnly_operands hrest,
    Tree.wellShaped_iff_of_ne (by decide), and_iff_right hfits, hread, List.forall_mem_cons]

/-- After an operand, operators and operands follow in turn. -/
theorem layoutOnly_chain (needed : Bool) (left : Tree) (rest : List Tree)
    (hrest : ∀ t ∈ rest, Recognised cx p t) :
    LayoutOnly (chain cx p base needed left rest) ↔
      rest.map Tree.kind ∈ rounds needed ∧ ∀ t ∈ rest, t.Passes :=
  match rest with
  | [] => by
    rw [chain, List.map_nil, nil_mem_rounds]
    cases needed
    · simp
    · simpa using not_layoutOnly_of_structural rfl
  | [op] => by
    -- An operator without an operand ends the check, and so does anything else in its place.
    have hmisfit : [op.kind] ∉ rounds needed := fun h =>
      nil_notMem_one_mul (cons_mem_one_mul.1 (cons_mem_rounds.1 h)).2
    have hfault : ¬LayoutOnly (chain cx p base needed left [op]) := by
      rw [chain]
      split <;> exact not_layoutOnly_of_structural rfl
    exact iff_of_false hfault fun h => hmisfit h.1
  | op :: right :: rest => by
    obtain ⟨-, hright, hlater⟩ : _ ∧ Recognised cx p right ∧ ∀ t ∈ rest, Recognised cx p t := by
      simpa using hrest
    have hround : (op :: right :: rest).map Tree.kind ∈ rounds needed ↔
        Slot.operator.accepts op.kind = true ∧ right.kind.isExpression = true ∧
          rest.map Tree.kind ∈ rounds false := by
      simp [cons_mem_rounds, operator, Grammar.expression, cons_mem_one_mul, Slot.operator]
    rw [chain, hround]
    by_cases hop : Slot.operator.accepts op.kind = true
    · by_cases hexpression : right.kind.isExpression = true
      · have hmark : op.Passes := passes_of_accepts_operator hop
        have hrounds := layoutOnly_chain false right rest hlater
        simp [hop, hexpression, hmark, hright.operand, hrounds, and_left_comm]
      · simpa [hop, hexpression] using not_layoutOnly_of_structural rfl
    · simpa [hop] using not_layoutOnly_of_structural rfl

/-- A binary expression has no structural fault exactly if it is well shaped. -/
theorem layoutOnly_binary (hfirst : Recognised cx p first)
    (hrest : ∀ t ∈ rest, Recognised cx p t) :
    LayoutOnly (operand cx p base (.node .binaryExpr first rest)) ↔
      (Tree.node .binaryExpr first rest).WellShaped := by
  have hread : (Tree.node .binaryExpr first rest).read = first :: rest := rfl
  have hshape : shape? (.construct .binaryExpr) = some (Grammar.expression * rounds true) := by
    simp [shape?, rounds, mul_assoc]
  have hfits : (Tree.node .binaryExpr first rest).Fits ↔
      first.kind.isExpression = true ∧ rest.map Tree.kind ∈ rounds true := by
    rw [Tree.fits_iff hshape, hread, List.map_cons, Grammar.expression, cons_mem_one_mul]
  rw [Tree.wellShaped_iff_of_ne (by decide), hfits, hread, List.forall_mem_cons, operand]
  split
  · rename_i hexpression
    rw [layoutOnly_append, hfirst.operand, layoutOnly_chain true first rest hrest]
    tauto
  · rename_i hexpression
    exact iff_of_false (not_layoutOnly_of_structural rfl) fun h => hexpression h.1.1

/-- What follows the type of a created object has the kind of a part. -/
theorem layoutOnly_creationParts {prev : Tree} {parts : List Tree} :
    LayoutOnly (creationParts cx p base prev parts) ↔ parts.map Tree.kind ∈ creationPart∗ := by
  rw [creationPart, mem_star_one]
  induction parts generalizing prev with
  | nil => simp [creationParts]
  | cons part parts ih =>
    rw [creationParts, List.map_cons, List.forall_mem_cons]
    split
    · simp [*]
    · simp [*]
    · simp [*]
    · simp [*]
    · exact iff_of_false (not_layoutOnly_of_structural rfl) fun h => by simp_all

/-- The parts of a creation are no expressions, or have programs of their own. -/
theorem passes_of_mem_creationPart {parts : List Tree}
    (h : parts.map Tree.kind ∈ creationPart∗) : ∀ part ∈ parts, part.Passes := by
  intro part hpart
  rcases mem_star_one.1 h part.kind (List.mem_map_of_mem hpart) with hkind | hkind | hkind | hkind
  · exact Tree.passes_of_inert fun _ => hkind ▸ rfl
  · intro hentered
    cases part with
    | token | empty => exact absurd (fun hchildren => nomatch hchildren) hentered
    | node kind first rest =>
      cases hkind
      exact Tree.wellShaped_of_unread rfl rfl
  · exact Tree.passes_of_inert fun _ => hkind ▸ rfl
  · exact Tree.passes_of_inert fun _ => hkind ▸ rfl

/-- A creation has no structural fault exactly if it is well shaped. -/
theorem layoutOnly_creation (hrest : ∀ t ∈ rest, Recognised cx p t) :
    LayoutOnly (operand cx p base (.node .newExpr first rest)) ↔
      (Tree.node .newExpr first rest).WellShaped := by
  have hshape : shape? (.construct .newExpr) =
      some (Grammar.token .kwNew * (createdType * creationPart∗)) := by
    simp [shape?, mul_assoc]
  have hread : (Tree.node .newExpr first rest).read = first :: rest := rfl
  have hfits : (Tree.node .newExpr first rest).Fits ↔ _ := Tree.fits_iff hshape
  rw [hread] at hfits
  unfold operand
  cases rest with
  | nil =>
    refine layoutOnly_iff_of_slots (fun h => ?_) fun h => by simp at h
    exact absurd (cons_mem_one_mul.1 (hfits.1 h)).2 nil_notMem_one_mul
  | cons type parts =>
    have hslots : (Tree.node .newExpr first (type :: parts)).Fits ↔
        shapeFault? cx [.token .kwNew, .type] first (type :: parts) = none ∧
          parts.map Tree.kind ∈ creationPart∗ := by
      rw [hfits]
      simp [Grammar.token, createdType, cons_mem_one_mul, Slot.token, Slot.type, and_assoc]
    refine layoutOnly_iff_of_slots (fun h => (hslots.1 h).1) fun h => ?_
    have htype := hrest type List.mem_cons_self
    have hkeyword : first.Passes := by
      simp only [shapeFault?_eq, fault?_cons] at h
      exact passes_of_accepts_token h.1
    rw [Tree.wellShaped_iff_of_ne (by decide), hslots, hread]
    simp only [layoutOnly_append, layoutOnly_noWrap, htype.operand, layoutOnly_creationParts, h,
      List.forall_mem_cons, hkeyword, true_and]
    -- The checker does not go into the parts, and there is no shape to be found wrong in them.
    constructor
    · rintro ⟨hpasses, hparts⟩
      exact ⟨hparts, hpasses, passes_of_mem_creationPart hparts⟩
    · rintro ⟨hparts, hpasses, -⟩
      exact ⟨hpasses, hparts⟩

/-- The opening of parentheses gives no structural fault. -/
theorem layoutOnly_opening {mark content : Tree} : LayoutOnly (opening cx p base mark content) := by
  unfold opening
  split
  · simp
  · split
    · intro f hf
      rw [List.mem_singleton.1 hf]
      rfl
    · exact fun _ => Context.isLayout_of_mem_expectColumn

/-- The closing of parentheses gives no structural fault. -/
theorem layoutOnly_closing {mark content prev close : Tree} :
    LayoutOnly (closing cx p base mark content prev close) := by
  unfold closing
  split
  · exact fun _ => Context.isLayout_of_mem_mustWrap
  · exact layoutOnly_noWrap

/-- A level of parentheses adds no fault of shape to what is found inside. -/
theorem layoutOnly_level {mark content close : Tree} {found : List Finding × Option Tree} :
    LayoutOnly (level cx p base mark content close found).1 ↔ LayoutOnly found.1 := by
  obtain ⟨found, _ | last⟩ := found
  · simp [level, layoutOnly_opening]
  · simp [level, layoutOnly_opening, layoutOnly_closing]

/-- Parentheses are a form that is given by slots. -/
theorem parens_fst :
    (parens cx p base first rest).1 =
      match shapeFault? cx [.token .lParen, .expression, .token .rParen] first rest with
      | some fault => [fault]
      | none =>
        match rest with
        | content :: close :: _ =>
          (level cx p base first content close (inside cx p base content)).1
        | _ => [] := by
  cases rest with
  | nil =>
    rw [parens, shapeFault?, fault?]
    by_cases hmark : first.kind = .token .lParen
    · simp [Slot.token, hmark]
    · simp [Slot.token, hmark]
      rfl
  | cons content rest =>
    rw [parens_cons]
    cases shapeFault? cx _ first (content :: rest) with
    | some fault => rfl
    | none => cases rest <;> rfl

/-- Parentheses have no structural fault exactly if they are well shaped. -/
theorem layoutOnly_parens (hrest : ∀ t ∈ rest, Recognised cx p t) :
    LayoutOnly (parens cx p base first rest).1 ↔
      (Tree.node .parenExpr first rest).WellShaped := by
  have hfits : (Tree.node .parenExpr first rest).Fits ↔ _ :=
    fits_iff_of_slots cx shape?_parenExpr rfl
  rw [parens_fst]
  refine layoutOnly_iff_of_slots hfits.1 fun h => ?_
  rw [Tree.wellShaped_iff, and_iff_right (hfits.2 h)]
  rcases rest with _ | ⟨content, _ | ⟨close, surplus⟩⟩
  · simp at h
  · simp at h
  · have hread : (Tree.node .parenExpr first (content :: close :: surplus)).read =
        [first, content, close] := rfl
    have hcontent := hrest content List.mem_cons_self
    simp only [shapeFault?_eq, fault?_cons, fault?_nil] at h
    obtain ⟨hmark, -, hclose, -⟩ := h
    have henters : ∀ t, (Tree.node .parenExpr first (content :: close :: surplus)).Enters t ↔
        ¬t.Inert ∨ t.kind = .construct .parenExpr := fun t =>
      or_congr_right (and_iff_right rfl)
    have hmarkKind : first.kind = .token .lParen := of_decide_eq_true hmark
    have hcloseKind : close.kind = .token .rParen := of_decide_eq_true hclose
    simp [hread, layoutOnly_level, hcontent.inside, henters, hmarkKind, hcloseKind,
      Tree.inert_of_kind_token hmarkKind, Tree.inert_of_kind_token hcloseKind]

end Forms

/-- Trees that are not entered. -/
theorem recognised_of_inert {t : Tree} (h : t.Inert) : Recognised cx p t where
  operand base := by simp [operand_of_inert h, Tree.passes_of_inert h]
  inside base := by
    rw [inside_of_inert h]
    by_cases hparen : t.kind = .construct .parenExpr
    · have hchildren : t.hasChildren = false := by
        by_contra hchildren
        have hexpression := h (by simpa using hchildren)
        rw [hparen] at hexpression
        cases hexpression
      have hlacks : lacksChildren t.kind t.hasChildren = true := by
        rw [hparen, hchildren]
        rfl
      rw [if_pos hparen]
      exact iff_of_false (not_layoutOnly_of_structural rfl) fun hshaped =>
        Tree.not_wellShaped_of_lacksChildren hlacks (hshaped (.inr hparen))
    · simp [hparen, h]

/-- What is found inside a tree is about the layout alone exactly if the tree is well shaped. -/
theorem recognised (t : Tree) : Recognised cx p t := by
  induction t using Tree.children_induction with
  | token kind text pos => exact recognised_of_inert fun hchildren => nomatch hchildren
  | empty kind pos => exact recognised_of_inert fun hchildren => nomatch hchildren
  | node kind first rest hfirst hrest =>
    by_cases hexpression : (Kind.construct kind).isExpression = true
    · have hentered : ¬(Tree.node kind first rest).Inert := fun h =>
        Bool.noConfusion (hexpression.symm.trans (h rfl))
      have hshaped : ∀ base, LayoutOnly (operand cx p base (.node kind first rest)) ↔
          (Tree.node kind first rest).WellShaped := by
        intro base
        cases kind with
        | binaryExpr => exact layoutOnly_binary hfirst hrest
        | unaryExpr => exact layoutOnly_unary hfirst hrest
        | ternaryExpr => exact layoutOnly_ternary hfirst hrest
        | indexExpr => exact layoutOnly_index hfirst hrest
        | callExpr => exact layoutOnly_call hfirst
        | fieldAccess => exact layoutOnly_fieldAccess hfirst
        | parenExpr =>
          rw [operand]
          exact layoutOnly_parens hrest
        | newExpr => exact layoutOnly_creation hrest
        | arrayInitializer =>
          exact iff_of_true (by simp [operand]) (Tree.wellShaped_of_unread rfl rfl)
        | _ => cases hexpression
      -- A node is checked in the same way as an operand and as the content of parentheses.
      have hinside : ∀ base, (inside cx p base (.node kind first rest)).1 =
          operand cx p base (.node kind first rest) := by
        intro base
        by_cases hparen : kind = .parenExpr
        · subst hparen
          rw [inside, operand]
        · rw [inside_of_ne hparen]
      refine ⟨fun base => ?_, fun base => ?_⟩
      · rw [hshaped, Tree.Passes, forall_prop_of_true hentered]
      · rw [hinside, hshaped, forall_prop_of_true (.inl hentered)]
    · exact recognised_of_inert fun _ => (Bool.not_eq_true _).mp hexpression

/-! ## Whole expressions -/

/-- No fault of shape is found exactly in well shaped trees. -/
theorem layoutOnly_check (cx : Context) (t : Tree) (base : Nat) (inline : Bool) :
    LayoutOnly (check cx t base inline) ↔ t.WellShaped := by
  rw [check_eq]
  split
  · rename_i hlacks
    have hmisfit := Tree.not_wellShaped_of_lacksChildren hlacks
    exact iff_of_false (not_layoutOnly_of_structural rfl) hmisfit
  · rename_i hlacks
    rw [(recognised t).operand]
    constructor
    · intro hpasses
      by_cases hinert : t.Inert
      · exact Tree.wellShaped_of_inert hinert (by simpa using hlacks)
      · exact hpasses hinert
    · exact fun hshaped _ => hshaped

/-- A node of which as many children are read as it has slots fits exactly if it fits and has no
surplus. -/
theorem fitsExactly_iff_of_slots {t : Tree} {slots : List Slot}
    (hshape : shape? t.kind = some (slotWords slots))
    (hlength : Tree.readLength? t.kind = some slots.length) :
    t.FitsExactly ↔ t.Fits ∧ t.surplus = [] := by
  simp only [Tree.FitsExactly, Tree.Fits, Tree.read, Tree.surplus, hshape, hlength,
    Option.some.injEq, forall_eq', List.drop_eq_nil_iff]
  constructor
  · intro h
    have hall : t.children.length = slots.length := by simpa using length_of_mem_slotWords h
    rw [← hall, List.take_length]
    exact ⟨h, Nat.le_refl _⟩
  · rintro ⟨h, hall⟩
    rwa [List.take_of_length_le hall] at h

/-- A node without a shape, all of whose children are read, has no surplus. -/
theorem fitsExactly_iff_of_shape?_eq_none {t : Tree} (hshape : shape? t.kind = none)
    (hlength : Tree.readLength? t.kind = none) : t.FitsExactly ↔ t.Fits ∧ t.surplus = [] := by
  simp [Tree.FitsExactly, Tree.Fits, Tree.surplus, hshape, hlength]

/-- The children have a shape exactly if those that are read have it and there is no surplus. -/
theorem fitsExactly_iff {t : Tree} : t.FitsExactly ↔ t.Fits ∧ t.surplus = [] := by
  cases hkind : t.kind with
  | token kind => exact fitsExactly_iff_of_shape?_eq_none (hkind ▸ rfl) (hkind ▸ rfl)
  | construct kind =>
    cases kind with
    | indexExpr => exact fitsExactly_iff_of_slots (hkind ▸ shape?_indexExpr) (hkind ▸ rfl)
    | callExpr => exact fitsExactly_iff_of_slots (hkind ▸ shape?_callExpr) (hkind ▸ rfl)
    | fieldAccess => exact fitsExactly_iff_of_slots (hkind ▸ shape?_fieldAccess) (hkind ▸ rfl)
    | parenExpr => exact fitsExactly_iff_of_slots (hkind ▸ shape?_parenExpr) (hkind ▸ rfl)
    | binaryExpr | ternaryExpr | newExpr =>
      simp [Tree.FitsExactly, Tree.Fits, Tree.read, Tree.surplus, Tree.readLength?, hkind]
    | _ => exact fitsExactly_iff_of_shape?_eq_none (hkind ▸ rfl) (hkind ▸ rfl)

/-- The expression checker reports no fault of shape exactly if all nodes that it comes to have the
shapes of their forms in what it reads of them. It recognises the exact shapes of a tree unless the
tree has such shapes and some node of it has surplus children. -/
theorem faultless_iff_shapes (cx : Context) (t : Tree) (base : Nat) (inline : Bool) :
    ((∀ f ∈ check cx t base inline, f.message.isStructural = false) ↔
        ∀ n, t.Reaches n → n.Fits) ∧
      (((∀ f ∈ check cx t base inline, f.message.isStructural = false) ↔
          ∀ n, t.Reaches n → n.FitsExactly) ↔
        ((∀ n, t.Reaches n → n.Fits) → ∀ n, t.Reaches n → n.surplus = [])) := by
  have hcheck : (∀ f ∈ check cx t base inline, f.message.isStructural = false) ↔
      ∀ n, t.Reaches n → n.Fits := layoutOnly_check cx t base inline
  refine ⟨hcheck, ?_⟩
  rw [hcheck]
  -- Exact shapes are shapes in what is read, so that only the converse is in question.
  constructor
  · intro hexact hfits n hn
    exact (fitsExactly_iff.1 (hexact.1 hfits n hn)).2
  · intro hsurplus
    constructor
    · exact fun hfits n hn => fitsExactly_iff.2 ⟨hfits n hn, hsurplus hfits n hn⟩
    · exact fun hexact n hn => (fitsExactly_iff.1 (hexact n hn)).1

/-- A call with a name after its arguments: nothing is reported. -/
theorem surplus_of_call_unreported :
    ∃ (cx : Context) (t n : Tree), t.kind.isExpression = true ∧ t.Reaches n ∧ ¬n.FitsExactly ∧
      check cx t 0 false = [] := by
  let arguments : Tree := .node .arguments (.token .lParen "(" ⟨1, 1⟩)
    [.token .identifier "a" ⟨1, 2⟩, .token .rParen ")" ⟨1, 3⟩]
  let call : Tree := .node .callExpr (.token .identifier "f" ⟨1, 0⟩)
    [arguments, .token .identifier "b" ⟨1, 5⟩]
  refine ⟨⟨.ofString "f(a) b" 4, .default⟩, call, call, rfl, .self call, fun hexact => ?_, ?_⟩
  · have hsurplus := (fitsExactly_iff.1 hexact).2
    cases hsurplus
  · decide +kernel

end Expression

end TreeLayout
