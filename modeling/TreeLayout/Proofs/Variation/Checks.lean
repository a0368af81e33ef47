import TreeLayout.Proofs.Expression.Forms
import TreeLayout.Proofs.Variation.Tree

/-!
# Checks of varying trees

A property `V` of what is found in varying trees is carried from single checks to whole expressions,
if it holds where nothing is found, is kept when findings are put one after another, and holds of a
finding anchored on a tree around the hole and of a tree there that should start in a column
(`Variation`). The contexts may vary too, in what the checks do not read.

The checks of trees around a hole take the same way for all fillings, since kinds, lines and texts
are those of one outline. There is one lemma per check and per form of expression; an induction over
the tree puts them together (`Variation.steady`), and `Variation.check` is the result for a whole
expression.
-/

namespace TreeLayout

open TreeLayout.Tree (Around)

variable {ι : Type}

/-- The property `V` of what is found in varying trees goes from checks to all that is built from
them, for trees around a hole and contexts that agree with one context. -/
structure Variation (cx₀ : Context) (cx : ι → Context) (hole : ι → Tree)
    (V : (ι → List Finding) → Prop) : Prop where
  /-- The contexts read one source. -/
  source : ∀ i, (cx i).source = cx₀.source
  /-- An indentation level adds the same columns. -/
  offset : ∀ i, (cx i).settings.basicOffset = cx₀.settings.basicOffset
  /-- The policies of boundaries are the same. -/
  wrap : ∀ i, (cx i).settings.wrap = cx₀.settings.wrap
  /-- The fillings of the hole have one outline. -/
  outline : ∃ o, ∀ i, (hole i).outline = o
  /-- The expression checker does not enter the hole. -/
  inert : ∀ i, (hole i).Inert
  /-- The property holds where nothing is found. -/
  nil : V fun _ => []
  /-- The property is kept when findings are put one after another. -/
  append {F G : ι → List Finding} : V F → V G → V fun i => F i ++ G i
  /-- The property holds of a finding anchored on a tree around the hole. -/
  finding {t : ι → Tree} (message : Message) (indent : Option Nat) :
    Around hole t → V fun i => [cx₀.finding (t i) message indent]
  /-- The property holds of a finding anchored on the last leaf of a tree around the hole. -/
  findingLast {t : ι → Tree} (message : Message) (indent : Option Nat) :
    Around hole t → V fun i => [cx₀.finding (t i).rightmost message indent]
  /-- The property holds of a tree around the hole that should start in a column. -/
  column {t : ι → Tree} (expected : Nat) :
    Around hole t → V fun i => cx₀.expectColumn (t i) expected

namespace Variation

variable {cx₀ : Context} {cx : ι → Context} {hole : ι → Tree} {V : (ι → List Finding) → Prop}
  {t prev next : ι → Tree}

/-! ## Boundaries -/

/-- One level further in is the same column. -/
theorem stepIn_eq (h : Variation cx₀ cx hole V) (i : ι) (base : Nat) :
    (cx i).stepIn base = cx₀.stepIn base := by
  rw [Context.stepIn, h.source, h.offset, Context.stepIn]

/-- A finding about a tree that does not vary is the same in all contexts. -/
theorem finding_eq (h : Variation cx₀ cx hole V) (i : ι) (anchor : Tree) (message : Message)
    (indent : Option Nat) :
    (cx i).finding anchor message indent = cx₀.finding anchor message indent := by
  simp only [Context.finding, Context.column, Context.succ, h.source]

/-- A column that is asked of a tree that does not vary is judged alike in all contexts. -/
theorem expectColumn_eq (h : Variation cx₀ cx hole V) (i : ι) (t : Tree) (expected : Nat) :
    (cx i).expectColumn t expected = cx₀.expectColumn t expected := by
  have hcolumn : (cx i).column t = cx₀.column t := by rw [Context.column, h.source, Context.column]
  simp only [Context.expectColumn, Context.succ, hcolumn, h.finding_eq, h.source]

/-- All trees around the hole start on lines of one indentation. -/
theorem exists_baseOf (h : Variation cx₀ cx hole V) (ht : Around hole t) :
    ∃ base, ∀ i, (cx i).baseOf (t i) = base := by
  obtain ⟨o, ho⟩ := ht.exists_outline h.outline
  exact ⟨cx₀.source.indentation o.line,
    fun i => by rw [Context.baseOf, h.source, ← Tree.line_outline, ho]⟩

/-- The property holds of what is found where two nodes have to share a line. -/
theorem noWrap (h : Variation cx₀ cx hole V) (hprev : Around hole prev) (hnext : Around hole next) :
    V fun i => (cx i).noWrap (prev i) (next i) := by
  obtain ⟨o, ho⟩ := hprev.exists_outline h.outline
  obtain ⟨o', ho'⟩ := hnext.exists_outline h.outline
  simp only [Context.noWrap, Context.sameLineViolation, h.finding_eq, sameLine_eq,
    ← Tree.describeLast_last_outline, ← Tree.describe_first_outline, ho, ho']
  split
  · exact h.nil
  · exact h.finding _ _ hnext

/-- The property holds of what is found where a node may wrap. -/
theorem mayWrap (h : Variation cx₀ cx hole V) (hprev : Around hole prev) (hnext : Around hole next)
    (column : Nat) : V fun i => (cx i).mayWrap (prev i) (next i) column := by
  obtain ⟨o, ho⟩ := hprev.exists_outline h.outline
  obtain ⟨o', ho'⟩ := hnext.exists_outline h.outline
  simp only [Context.mayWrap, h.expectColumn_eq, sameLine_eq, ho, ho']
  split
  · exact h.nil
  · exact h.column column hnext

/-- The property holds of the finding that a node has to wrap. -/
theorem mustWrapViolation (h : Variation cx₀ cx hole V) (hnext : Around hole next) (indent : Nat) :
    V fun i => [(cx i).mustWrapViolation (next i) indent] := by
  obtain ⟨o, ho⟩ := hnext.exists_outline h.outline
  simp only [Context.mustWrapViolation, h.finding_eq, ← Tree.describe_first_outline, ho]
  exact h.finding _ _ hnext

/-- The property holds of what is found where a node has to wrap. -/
theorem mustWrap (h : Variation cx₀ cx hole V) (hprev : Around hole prev) (hnext : Around hole next)
    (column : Nat) : V fun i => (cx i).mustWrap (prev i) (next i) column := by
  obtain ⟨o, ho⟩ := hprev.exists_outline h.outline
  obtain ⟨o', ho'⟩ := hnext.exists_outline h.outline
  have hviolation := h.mustWrapViolation hnext column
  simp only [Context.mustWrap, h.expectColumn_eq, sameLine_eq, ho, ho']
  split
  · exact hviolation
  · exact h.column column hnext

/-- The property holds of a boundary, under each policy. -/
theorem boundary (h : Variation cx₀ cx hole V) (policy : WrapPolicy) (hprev : Around hole prev)
    (hnext : Around hole next) (column : Nat) :
    V fun i => (cx i).boundary policy (prev i) (next i) column := by
  cases policy with
  | no => exact h.noWrap hprev hnext
  | may => exact h.mayWrap hprev hnext column
  | must => exact h.mustWrap hprev hnext column

/-- The property holds of the finding that a child has the wrong kind. -/
theorem unexpected (h : Variation cx₀ cx hole V) (ht : Around hole t) (expected : String) :
    V fun i => [(cx i).unexpected (t i) expected] := by
  obtain ⟨o, ho⟩ := ht.exists_outline h.outline
  simp only [Context.unexpected, h.finding_eq, ← Tree.describe_outline, ho]
  exact h.finding _ _ ht

/-- The property holds of the finding that a child is surplus. -/
theorem extra (h : Variation cx₀ cx hole V) (ht : Around hole t) :
    V fun i => [(cx i).extra (t i)] := by
  obtain ⟨o, ho⟩ := ht.exists_outline h.outline
  simp only [Context.extra, h.finding_eq, ← Tree.describe_outline, ho]
  exact h.finding _ _ ht

/-- The property holds of the finding that the first child is missing. -/
theorem missingFirst (h : Variation cx₀ cx hole V) (ht : Around hole t) :
    V fun i => [(cx i).missingFirst (t i)] := by
  obtain ⟨o, ho⟩ := ht.exists_outline h.outline
  have hkind : ∀ i, (t i).kind = o.kind := fun i => congrArg Tree.Outline.kind (ho i)
  simp only [Context.missingFirst, h.finding_eq, hkind]
  exact h.finding _ _ ht

/-- The property holds of the finding that a child is missing after another one. -/
theorem missingAfter (h : Variation cx₀ cx hole V) (ht : Around hole t) :
    V fun i => [Expression.missingAfter (cx i) (t i)] := by
  obtain ⟨o, ho⟩ := ht.exists_outline h.outline
  simp only [Expression.missingAfter, h.finding_eq, ← Tree.describeLast_outline, ho]
  exact h.finding _ _ ht

/-! ## Shapes of expressions -/

open Expression

/-- A fault is found for all indices or for none, and the property holds of it. -/
def Settles (V : (ι → List Finding) → Prop) (fault : ι → Option Finding) : Prop :=
  (∀ i, fault i = none) ∨ ∃ F : ι → Finding, V (fun i => [F i]) ∧ ∀ i, fault i = some (F i)

/-- The kind of trees around the hole. -/
theorem exists_kind (h : Variation cx₀ cx hole V) (ht : Around hole t) :
    ∃ k, ∀ i, (t i).kind = k := by
  obtain ⟨o, ho⟩ := ht.exists_outline h.outline
  exact ⟨o.kind, fun i => congrArg Tree.Outline.kind (ho i)⟩

/-- Whether the children fit their slots does not vary. -/
theorem settles_fault? (h : Variation cx₀ cx hole V) {last : ι → Tree} (hlast : Around hole last)
    (slots : List Slot) {ts : List (ι → Tree)} (hts : ∀ t ∈ ts, Around hole t) :
    Settles V fun i => fault? (cx i) (last i) slots (ts.map (· i)) := by
  induction slots generalizing last ts with
  | nil => exact .inl fun i => by simp only [fault?]
  | cons slot slots ih =>
    cases ts with
    | nil => exact .inr ⟨_, h.missingAfter hlast, fun i => rfl⟩
    | cons child ts =>
      obtain ⟨hchild, hts⟩ := List.forall_mem_cons.1 hts
      obtain ⟨k, hk⟩ := h.exists_kind hchild
      simp only [List.map_cons, fault?, hk]
      split
      · exact ih hchild hts
      · exact .inr ⟨_, h.unexpected hchild slot.expected, fun i => rfl⟩

/-- Trees around the hole have a shape for all fillings or for none. -/
theorem settles_shapeFault? (h : Variation cx₀ cx hole V) (slots : List Slot) {first : ι → Tree}
    (hfirst : Around hole first) {rest : List (ι → Tree)} (hrest : ∀ t ∈ rest, Around hole t) :
    Settles V fun i => shapeFault? (cx i) slots (first i) (rest.map (· i)) := by
  cases slots with
  | nil => exact .inl fun i => rfl
  | cons slot slots =>
    obtain ⟨k, hk⟩ := h.exists_kind hfirst
    simp only [shapeFault?, hk]
    split
    · exact h.settles_fault? hfirst slots hrest
    · exact .inr ⟨_, h.unexpected hfirst slot.expected, fun i => rfl⟩

/-- The property holds of what is found where tokens have to share a line. -/
theorem allOnLine (h : Variation cx₀ cx hole V) (hprev : Around hole prev)
    (rest : List (ι → Tree)) (hrest : ∀ t ∈ rest, Around hole t) :
    V fun i => Expression.allOnLine (cx i) (prev i) (rest.map (· i)) := by
  induction rest generalizing prev with
  | nil => exact h.nil
  | cons next rest ih =>
    obtain ⟨hnext, hrest⟩ := List.forall_mem_cons.1 hrest
    exact h.append (h.noWrap hprev hnext) (ih hnext hrest)

/-- The property holds of what is found at the boundaries of a conditional. -/
theorem ternaryBoundaries (h : Variation cx₀ cx hole V) (p : ExprPolicies) (column : Nat)
    (hprev : Around hole prev) (rest : List (ι → Tree)) (hrest : ∀ t ∈ rest, Around hole t) :
    V fun i => Expression.ternaryBoundaries (cx i) p column (prev i) (rest.map (· i)) := by
  induction rest generalizing prev with
  | nil => exact h.nil
  | cons next rest ih =>
    obtain ⟨hnext, hrest⟩ := List.forall_mem_cons.1 hrest
    obtain ⟨k, hk⟩ := h.exists_kind hnext
    simp only [List.map_cons, Expression.ternaryBoundaries, Tree.isToken_eq_kind, hk]
    exact h.append (h.boundary _ hprev hnext column) (ih hnext hrest)

/-- The property holds of what is found at the boundaries of a creation. -/
theorem creationParts (h : Variation cx₀ cx hole V) (p : ExprPolicies) (base : Nat)
    (hprev : Around hole prev) {parts : List (ι → Tree)} (hparts : ∀ t ∈ parts, Around hole t) :
    V fun i => Expression.creationParts (cx i) p base (prev i) (parts.map (· i)) := by
  induction parts generalizing prev with
  | nil => exact h.nil
  | cons child parts ih =>
    obtain ⟨hchild, hparts⟩ := List.forall_mem_cons.1 hparts
    obtain ⟨k, hk⟩ := h.exists_kind hchild
    have hlater := ih hchild hparts
    simp only [List.map_cons, Expression.creationParts, hk]
    split
    · exact h.append (h.boundary _ hprev hchild base) hlater
    · exact h.append (h.noWrap hprev hchild) hlater
    · exact h.append (h.noWrap hprev hchild) hlater
    · exact h.append (h.noWrap hprev hchild) hlater
    · exact h.unexpected hchild "("

/-- The property holds of what is found where parentheses open. -/
theorem opening (h : Variation cx₀ cx hole V) (p : ExprPolicies) (base : Nat)
    {mark content : ι → Tree} (hmark : Around hole mark) (hcontent : Around hole content) :
    V fun i => Expression.opening (cx i) p base (mark i) (content i) := by
  obtain ⟨o, ho⟩ := hmark.exists_outline h.outline
  obtain ⟨o', ho'⟩ := hcontent.exists_outline h.outline
  have hsame := h.noWrap hmark hcontent
  simp only [Context.noWrap, sameLine_eq, ho, ho'] at hsame
  simp only [Expression.opening, sameLine_eq, ho, ho', h.expectColumn_eq, h.stepIn_eq]
  split
  · exact h.nil
  · rename_i hline
    simp only [if_neg hline] at hsame
    split
    · exact hsame
    · exact h.column _ hcontent

/-- The property holds of what is found where parentheses close. -/
theorem closing (h : Variation cx₀ cx hole V) (p : ExprPolicies) (base : Nat)
    {mark content close : ι → Tree} (hmark : Around hole mark) (hcontent : Around hole content)
    (hprev : Around hole prev) (hclose : Around hole close) :
    V fun i => Expression.closing (cx i) p base (mark i) (content i) (prev i) (close i) := by
  obtain ⟨o, ho⟩ := hmark.exists_outline h.outline
  obtain ⟨o', ho'⟩ := hcontent.exists_outline h.outline
  simp only [Expression.closing, sameLine_eq, ho, ho']
  split
  · exact h.mustWrap hprev hclose base
  · exact h.noWrap hprev hclose

/-! ## Forms of expressions -/

/-- Findings of which the property holds, and a tree around the hole or none. -/
def Yields (V : (ι → List Finding) → Prop) (hole : ι → Tree)
    (found : ι → List Finding × Option Tree) : Prop :=
  ∃ (F : ι → List Finding) (last : Option (ι → Tree)), V F ∧ (∀ t ∈ last, Around hole t) ∧
    ∀ i, found i = (F i, last.map (· i))

/-- The property holds of what is found in a tree around the hole, both as an operand and as the
content of parentheses. -/
structure Steady (V : (ι → List Finding) → Prop) (cx : ι → Context) (hole : ι → Tree)
    (p : ExprPolicies) (t : ι → Tree) : Prop where
  /-- The tree is around the hole. -/
  around : Around hole t
  /-- As an operand. -/
  operand : ∀ base, V fun i => Expression.operand (cx i) p base (t i)
  /-- As the content of parentheses. -/
  inside : ∀ base, Yields V hole fun i => Expression.inside (cx i) p base (t i)

variable {p : ExprPolicies} {first : ι → Tree} {rest : List (ι → Tree)}

/-- The property holds of what is found in operands. -/
theorem operands (h : Variation cx₀ cx hole V) (hrest : ∀ t ∈ rest, Steady V cx hole p t)
    (base : Nat) : V fun i => Expression.operands (cx i) p base (rest.map (· i)) := by
  induction rest with
  | nil => exact h.nil
  | cons t ts ih =>
    obtain ⟨ht, hts⟩ := List.forall_mem_cons.1 hrest
    exact h.append (ht.operand base) (ih hts)

/-- The property holds of what is found in a chain of operators. -/
theorem chain (h : Variation cx₀ cx hole V) (base : Nat) (needed : Bool) {left : ι → Tree}
    (hleft : Around hole left) (rest : List (ι → Tree))
    (hrest : ∀ t ∈ rest, Steady V cx hole p t) :
    V fun i => Expression.chain (cx i) p base needed (left i) (rest.map (· i)) :=
  match rest with
  | [] => by
    simp only [List.map_nil, Expression.chain]
    split
    · exact h.missingAfter hleft
    · exact h.nil
  | [op] => by
    have hop := (hrest op List.mem_cons_self).around
    obtain ⟨k, hk⟩ := h.exists_kind hop
    simp only [List.map_cons, List.map_nil, Expression.chain, hk]
    split
    · exact h.missingAfter hop
    · exact h.unexpected hop "operator"
  | op :: right :: rest => by
    have hop := (hrest op (by simp)).around
    have hright := hrest right (by simp)
    obtain ⟨k, hk⟩ := h.exists_kind hop
    obtain ⟨k', hk'⟩ := h.exists_kind hright.around
    have hlater := chain h base false hright.around rest fun t ht => hrest t (by simp [ht])
    simp only [List.map_cons, Expression.chain, hk, hk', h.stepIn_eq]
    split
    · exact h.unexpected hop "operator"
    · split
      · exact h.unexpected hright.around "expression"
      · exact h.append (h.append (h.append (h.boundary _ hleft hop _)
          (h.boundary _ hop hright.around _)) (hright.operand base)) hlater

/-- The property holds of what is found in a binary expression. -/
theorem binary (h : Variation cx₀ cx hole V) (hfirst : Steady V cx hole p first)
    (hrest : ∀ t ∈ rest, Steady V cx hole p t) (base : Nat) :
    V fun i => Expression.operand (cx i) p base (.node .binaryExpr (first i) (rest.map (· i))) := by
  obtain ⟨k, hk⟩ := h.exists_kind hfirst.around
  simp only [Expression.operand, hk]
  split
  · exact h.append (hfirst.operand base) (h.chain base true hfirst.around rest hrest)
  · exact h.unexpected hfirst.around "expression"

/-- The property holds of what is found in a conditional. -/
theorem ternary (h : Variation cx₀ cx hole V) (hfirst : Steady V cx hole p first)
    (hrest : ∀ t ∈ rest, Steady V cx hole p t) (base : Nat) :
    V fun i =>
      Expression.operand (cx i) p base (.node .ternaryExpr (first i) (rest.map (· i))) := by
  unfold Expression.operand
  obtain hshape | ⟨F, hF, hshape⟩ := h.settles_shapeFault?
    [.expression, .token .question, .expression, .token .colon, .expression] hfirst.around
    fun t ht => (hrest t ht).around
  · simp only [hshape]
    rcases rest with _ | ⟨question, _ | ⟨yes, _ | ⟨colon, _ | ⟨no, _ | ⟨surplus, _⟩⟩⟩⟩⟩
    · exact h.nil
    · exact h.nil
    · exact h.nil
    · exact h.nil
    · have hbounds := h.ternaryBoundaries p (cx₀.stepIn base) hfirst.around
        [question, yes, colon, no] fun t ht => (hrest t ht).around
      simp only [List.map_cons, List.map_nil, h.stepIn_eq] at hbounds ⊢
      exact h.append (h.append (h.append hbounds (hfirst.operand base))
        ((hrest yes (by simp)).operand base)) ((hrest no (by simp)).operand base)
    · exact h.extra (hrest surplus (by simp)).around
  · simp only [hshape]
    exact hF

/-- The property holds of what is found in an index access. -/
theorem index (h : Variation cx₀ cx hole V) (hfirst : Steady V cx hole p first)
    (hrest : ∀ t ∈ rest, Steady V cx hole p t) (base : Nat) :
    V fun i => Expression.operand (cx i) p base (.node .indexExpr (first i) (rest.map (· i))) := by
  unfold Expression.operand
  obtain hshape | ⟨F, hF, hshape⟩ := h.settles_shapeFault?
    [.expression, .token .lBracket, .expression, .token .rBracket] hfirst.around
    fun t ht => (hrest t ht).around
  · simp only [hshape]
    match rest, hrest with
    | [], _ | [_], _ | [_, _], _ => exact h.nil
    | mark :: index :: close :: others, hrest =>
      have hline := h.allOnLine hfirst.around [mark, index, close]
        fun t ht => (hrest t (List.mem_append_left others ht)).around
      simp only [List.map_cons, List.map_nil] at hline ⊢
      exact h.append (h.append hline (hfirst.operand base)) ((hrest index (by simp)).operand base)
  · simp only [hshape]
    exact hF

/-- The property holds of what is found in a call. -/
theorem call (h : Variation cx₀ cx hole V) (hfirst : Steady V cx hole p first)
    (hrest : ∀ t ∈ rest, Steady V cx hole p t) (base : Nat) :
    V fun i => Expression.operand (cx i) p base (.node .callExpr (first i) (rest.map (· i))) := by
  unfold Expression.operand
  obtain hshape | ⟨F, hF, hshape⟩ := h.settles_shapeFault? [.expression, .arguments] hfirst.around
    fun t ht => (hrest t ht).around
  · simp only [hshape]
    cases rest with
    | nil => exact h.nil
    | cons arguments _ =>
      exact h.append (hfirst.operand base)
        (h.noWrap hfirst.around (hrest arguments List.mem_cons_self).around)
  · simp only [hshape]
    exact hF

/-- A selector chain is measured from the line on which it starts, which is one for all fillings. -/
theorem fieldAccess (h : Variation cx₀ cx hole V) (hfirst : Steady V cx hole p first)
    (hrest : ∀ t ∈ rest, Steady V cx hole p t) (base : Nat) :
    V fun i =>
      Expression.operand (cx i) p base (.node .fieldAccess (first i) (rest.map (· i))) := by
  unfold Expression.operand
  obtain hshape | ⟨F, hF, hshape⟩ := h.settles_shapeFault?
    [.expression, .token .dot, .token .identifier] hfirst.around fun t ht => (hrest t ht).around
  · simp only [hshape]
    match rest, hrest with
    | [], _ | [_], _ => exact h.nil
    | dot :: name :: _, hrest =>
      obtain ⟨chainBase, hbase⟩ := h.exists_baseOf hfirst.around
      have hdot := (hrest dot (by simp)).around
      have hname := (hrest name (by simp)).around
      simp only [List.map_cons, hbase, h.stepIn_eq]
      exact h.append (h.append (hfirst.operand chainBase) (h.boundary _ hfirst.around hdot _))
        (h.noWrap hdot hname)
  · simp only [hshape]
    exact hF

/-- The property holds of what is found in a creation. -/
theorem creation (h : Variation cx₀ cx hole V) (hfirst : Steady V cx hole p first)
    (hrest : ∀ t ∈ rest, Steady V cx hole p t) (base : Nat) :
    V fun i => Expression.operand (cx i) p base (.node .newExpr (first i) (rest.map (· i))) := by
  unfold Expression.operand
  obtain hshape | ⟨F, hF, hshape⟩ := h.settles_shapeFault? [.token .kwNew, .type] hfirst.around
    fun t ht => (hrest t ht).around
  · simp only [hshape]
    cases rest with
    | nil => exact h.nil
    | cons type parts =>
      obtain ⟨htype, hparts⟩ := List.forall_mem_cons.1 hrest
      exact h.append (h.append (h.noWrap hfirst.around htype.around) (htype.operand base))
        (h.creationParts p base htype.around fun t ht => (hparts t ht).around)
  · simp only [hshape]
    exact hF

/-- One more level of parentheses around something yields what the property holds of. -/
theorem yields_level (h : Variation cx₀ cx hole V) (base : Nat) {mark content close : ι → Tree}
    (hmark : Around hole mark) (hcontent : Around hole content) (hclose : Around hole close)
    {found : ι → List Finding × Option Tree} (hfound : Yields V hole found) :
    Yields V hole fun i => level (cx i) p base (mark i) (content i) (close i) (found i) := by
  obtain ⟨F, last, hF, hlast, hfound⟩ := hfound
  have hopening := h.opening p base hmark hcontent
  cases last with
  | none =>
    exact ⟨_, none, h.append hopening hF, by simp, fun i => by simp only [hfound]; rfl⟩
  | some prev =>
    have hclosing := h.closing p base hmark hcontent (hlast prev rfl) hclose
    exact ⟨_, some close, h.append (h.append hopening hF) hclosing, by simpa using hclose,
      fun i => by simp only [hfound]; rfl⟩

/-- Nested parentheses are checked level by level. -/
theorem yields_parens (h : Variation cx₀ cx hole V) {mark : ι → Tree} (hmark : Around hole mark)
    (hrest : ∀ t ∈ rest, Steady V cx hole p t) (base : Nat) :
    Yields V hole fun i => parens (cx i) p base (mark i) (rest.map (· i)) := by
  cases rest with
  | nil =>
    obtain ⟨k, hk⟩ := h.exists_kind hmark
    simp only [List.map_nil, parens, hk]
    split
    · exact ⟨_, none, h.missingAfter hmark, by simp, fun i => rfl⟩
    · exact ⟨_, none, h.unexpected hmark "(", by simp, fun i => rfl⟩
  | cons content rest =>
    have haround : ∀ t ∈ content :: rest, Around hole t := fun t ht => (hrest t ht).around
    obtain ⟨hcontent, hrest⟩ := List.forall_mem_cons.1 hrest
    have hshape := h.settles_shapeFault? [.token .lParen, .expression, .token .rParen] hmark haround
    simp only [List.map_cons] at hshape
    simp only [List.map_cons, parens_cons]
    obtain hshape | ⟨F, hF, hshape⟩ := hshape
    · simp only [hshape]
      cases rest with
      | nil => exact ⟨_, none, h.nil, by simp, fun i => rfl⟩
      | cons close _ =>
        have hclose := (hrest close List.mem_cons_self).around
        exact h.yields_level base hmark hcontent.around hclose (hcontent.inside base)
    · simp only [hshape]
      exact ⟨_, none, hF, by simp, fun i => rfl⟩

/-- Of trees that the checker does not enter nothing is found but the lack of parentheses. -/
theorem steady_of_inert (h : Variation cx₀ cx hole V) (p : ExprPolicies) (ht : Around hole t)
    (hinert : ∀ i, (t i).Inert) : Steady V cx hole p t where
  around := ht
  operand base := by simpa only [operand_of_inert (hinert _)] using h.nil
  inside base := by
    obtain ⟨k, hk⟩ := h.exists_kind ht
    simp only [inside_of_inert (hinert _), hk]
    split
    · exact ⟨_, none, h.missingFirst ht, by simp, fun i => rfl⟩
    · exact ⟨_, some t, h.nil, by simpa using ht, fun i => rfl⟩

/-- The property holds of what is found in a tree around the hole. -/
theorem steady (h : Variation cx₀ cx hole V) (p : ExprPolicies) (ht : Around hole t) :
    Steady V cx hole p t := by
  induction ht with
  | hole => exact h.steady_of_inert p .hole h.inert
  | token kind text pos =>
    exact h.steady_of_inert p (.token kind text pos) fun i hchildren => nomatch hchildren
  | empty kind pos =>
    exact h.steady_of_inert p (.empty kind pos) fun i hchildren => nomatch hchildren
  | @node kind first rest hfirst hrest ihfirst ihrest =>
    have hnode := Around.node kind hfirst hrest
    -- The checker enters eight forms; of other constructs nothing is found.
    have hoperand : ∀ base, V fun i =>
        Expression.operand (cx i) p base (.node kind (first i) (rest.map (· i))) := by
      intro base
      cases kind with
      | binaryExpr => exact h.binary ihfirst ihrest base
      | unaryExpr =>
        simp only [Expression.operand]
        exact h.append (ihfirst.operand base) (h.operands ihrest base)
      | ternaryExpr => exact h.ternary ihfirst ihrest base
      | indexExpr => exact h.index ihfirst ihrest base
      | callExpr => exact h.call ihfirst ihrest base
      | fieldAccess => exact h.fieldAccess ihfirst ihrest base
      | parenExpr =>
        obtain ⟨F, last, hF, -, hparens⟩ := h.yields_parens hfirst ihrest base
        simpa only [Expression.operand, hparens] using hF
      | newExpr => exact h.creation ihfirst ihrest base
      | _ => exact h.nil
    refine ⟨hnode, hoperand, fun base => ?_⟩
    by_cases hkind : kind = .parenExpr
    · subst hkind
      exact h.yields_parens hfirst ihrest base
    · simp only [inside_of_ne hkind]
      exact ⟨_, some _, hoperand base, by simpa using hnode, fun i => rfl⟩

/-- The property holds of what is found in an expression. -/
theorem check (h : Variation cx₀ cx hole V) (ht : Around hole t) (base : Nat) (inline : Bool) :
    V fun i => Expression.check (cx i) (t i) base inline := by
  obtain ⟨o, ho⟩ := ht.exists_outline h.outline
  have hkind : ∀ i, (t i).kind = o.kind := fun i => congrArg Tree.Outline.kind (ho i)
  have hchildren : ∀ i, (t i).hasChildren = o.hasChildren :=
    fun i => congrArg Tree.Outline.hasChildren (ho i)
  have hpolicies : ∀ i, ExprPolicies.ofSettings (cx i).settings inline =
      ExprPolicies.ofSettings cx₀.settings inline := fun i => by
    simp only [ExprPolicies.ofSettings, h.wrap]
  simp only [check_eq, hkind, hchildren, hpolicies]
  split
  · exact h.missingFirst ht
  · exact (h.steady _ ht).operand base

end Variation

end TreeLayout
