import TreeLayout.Verify.Context

/-!
# Expressions

Expressions nest and carry wrap policies of their own, so they are checked by recursion and not by
programs. Argument lists, array initializers and class bodies inside an expression have programs. An
inline expression does not wrap anywhere.
-/

namespace TreeLayout

/-- The policies inside one expression. -/
structure ExprPolicies where
  /-- Before an operator. -/
  beforeOperator : WrapPolicy
  /-- After an operator. -/
  afterOperator : WrapPolicy
  /-- Before the marks of a conditional expression. -/
  ternary : WrapPolicy
  /-- After the marks of a conditional expression. -/
  afterSeparator : WrapPolicy
  /-- Before the dot of a selector. -/
  selector : WrapPolicy
  /-- Before a class body. -/
  leftBrace : WrapPolicy
  /-- Whether nothing wraps. -/
  inline : Bool

/-- The policies that settings give; in an inline expression no boundary wraps. -/
def ExprPolicies.ofSettings (s : LayoutSettings) (inline : Bool) : ExprPolicies :=
  let pick (policy : WrapPolicy) : WrapPolicy := if inline then .no else policy
  { beforeOperator := pick (s.wrap .beforeOperator)
    afterOperator := pick (s.wrap .afterOperator)
    ternary := pick (s.wrap .ternary)
    afterSeparator := pick .may
    selector := pick (s.wrap .selector)
    leftBrace := pick (s.wrap .leftBrace)
    inline := inline }

namespace Expression

/-- One place of a fixed shape: which kinds may stand there, and how messages name them. -/
structure Slot where
  /-- Whether a kind may stand there. -/
  accepts : Kind → Bool
  /-- How messages name what may stand there. -/
  expected : String

/-- Any expression. -/
def Slot.expression : Slot := ⟨Kind.isExpression, "expression"⟩

/-- An operator or an assignment mark. -/
def Slot.operator : Slot :=
  ⟨fun k => k = .token .operator || k = .token .assign, "operator"⟩

/-- A token of one kind, named by its spelling. -/
def Slot.token (kind : TokenKind) : Slot := ⟨fun k => k = .token kind, kind.displayName⟩

/-- An argument list. -/
def Slot.arguments : Slot := ⟨fun k => k = .construct .arguments, "("⟩

/-- The type of a created object: a name or any construct. -/
def Slot.type : Slot := ⟨fun k => !k.isToken || k = .token .identifier, "type"⟩

/-- A child is missing after another one. -/
def missingAfter (cx : Context) (last : Tree) : Finding :=
  cx.finding last (.missingToken last.describeLast) none

/-- The fault of the first child that does not fit its slot; `last` is the child before the slots.
Children after the slots are not looked at. -/
def fault? (cx : Context) (last : Tree) : List Slot → List Tree → Option Finding
  | [], _ => none
  | _ :: _, [] => some (missingAfter cx last)
  | slot :: slots, child :: children =>
    if slot.accepts child.kind then fault? cx child slots children
    else some (cx.unexpected child slot.expected)

/-- The fault of the children of a node that must fit slots. -/
def shapeFault? (cx : Context) (slots : List Slot) (first : Tree) (rest : List Tree) :
    Option Finding :=
  match slots with
  | [] => none
  | slot :: slots =>
    if slot.accepts first.kind then fault? cx first slots rest
    else some (cx.unexpected first slot.expected)

/-- Each two neighbours share a line. -/
def allOnLine (cx : Context) : Tree → List Tree → List Finding
  | _, [] => []
  | prev, next :: rest => cx.noWrap prev next ++ allOnLine cx next rest

/-- The four boundaries of a conditional expression; the policy of a boundary goes by the part after
it. -/
def ternaryBoundaries (cx : Context) (p : ExprPolicies) (column : Nat) :
    Tree → List Tree → List Finding
  | _, [] => []
  | prev, next :: rest =>
    cx.boundary (if next.isToken then p.ternary else p.afterSeparator) prev next column
      ++ ternaryBoundaries cx p column next rest

/-- What follows the type of a created object: argument lists, initializers and array marks stay on the
line, and a class body goes by its policy. -/
def creationParts (cx : Context) (p : ExprPolicies) (base : Nat) :
    Tree → List Tree → List Finding
  | _, [] => []
  | prev, child :: rest =>
    match child.kind with
    | .construct .classBody =>
      cx.boundary p.leftBrace prev child base ++ creationParts cx p base child rest
    | .construct .arguments | .construct .arrayInitializer | .construct .arrayType =>
      cx.noWrap prev child ++ creationParts cx p base child rest
    | _ => [cx.unexpected child "("]

/-- What is checked between an opening parenthesis and its content. -/
def opening (cx : Context) (p : ExprPolicies) (base : Nat) (mark content : Tree) : List Finding :=
  if sameLine mark content then []
  else if p.inline then [cx.sameLineViolation mark content]
  else cx.expectColumn content (cx.stepIn base)

/-- What is checked before a closing parenthesis: it starts a line if the content does. -/
def closing (cx : Context) (p : ExprPolicies) (base : Nat) (mark content prev close : Tree) :
    List Finding :=
  if !sameLine mark content && !p.inline then cx.mustWrap prev close base else cx.noWrap prev close

/-- One level of parentheses, from what is found inside it and the node before its closing mark. Where
that node is not given, the content lacks its shape, and the closing mark is not checked. -/
def level (cx : Context) (p : ExprPolicies) (base : Nat) (mark content close : Tree) :
    List Finding × Option Tree → List Finding × Option Tree
  | (inside, none) => (opening cx p base mark content ++ inside, none)
  | (inside, some prev) =>
    (opening cx p base mark content ++ inside ++ closing cx p base mark content prev close,
      some close)

mutual
/-- The findings inside an operand; leaves and empty constructs have none. -/
def operand (cx : Context) (p : ExprPolicies) (base : Nat) : Tree → List Finding
  | .token _ _ _ => []
  | .empty _ _ => []
  | .node kind first rest =>
    match kind with
    | .binaryExpr =>
      if first.kind.isExpression then operand cx p base first ++ chain cx p base true first rest
      else [cx.unexpected first "expression"]
    | .unaryExpr => operand cx p base first ++ operands cx p base rest
    | .ternaryExpr =>
      let slots : List Slot := [.expression, .token .question, .expression, .token .colon, .expression]
      match shapeFault? cx slots first rest with
      | some fault => [fault]
      | none =>
        match rest with
        | question :: yes :: colon :: no :: rest =>
          match rest with
          | surplus :: _ => [cx.extra surplus]
          | [] =>
            ternaryBoundaries cx p (cx.stepIn base) first [question, yes, colon, no]
              ++ operand cx p base first ++ operand cx p base yes ++ operand cx p base no
        | _ => []
    | .indexExpr =>
      let slots : List Slot := [.expression, .token .lBracket, .expression, .token .rBracket]
      match shapeFault? cx slots first rest with
      | some fault => [fault]
      | none =>
        match rest with
        | opening :: index :: closing :: _ =>
          allOnLine cx first [opening, index, closing]
            ++ operand cx p base first ++ operand cx p base index
        | _ => []
    | .callExpr =>
      match shapeFault? cx [.expression, .arguments] first rest with
      | some fault => [fault]
      | none =>
        match rest with
        | arguments :: _ => operand cx p base first ++ cx.noWrap first arguments
        | [] => []
    | .fieldAccess =>
      match shapeFault? cx [.expression, .token .dot, .token .identifier] first rest with
      | some fault => [fault]
      | none =>
        match rest with
        | dot :: name :: _ =>
          -- A chain is measured from the line on which it starts.
          let chainBase := cx.baseOf first
          operand cx p chainBase first
            ++ cx.boundary p.selector first dot (cx.stepIn chainBase) ++ cx.noWrap dot name
        | _ => []
    | .parenExpr => (parens cx p base first rest).1
    | .newExpr =>
      match shapeFault? cx [.token .kwNew, .type] first rest with
      | some fault => [fault]
      | none =>
        match rest with
        | type :: parts =>
          cx.noWrap first type ++ operand cx p base type ++ creationParts cx p base type parts
        | [] => []
    | _ => []

/-- The findings inside several operands. -/
def operands (cx : Context) (p : ExprPolicies) (base : Nat) : List Tree → List Finding
  | [] => []
  | t :: ts => operand cx p base t ++ operands cx p base ts

/-- The operators and operands after the operand `left`; there is at least one operator if `needed`. -/
def chain (cx : Context) (p : ExprPolicies) (base : Nat) (needed : Bool) (left : Tree) :
    List Tree → List Finding
  | [] => if needed then [missingAfter cx left] else []
  | [op] =>
    if Slot.operator.accepts op.kind then [missingAfter cx op] else [cx.unexpected op "operator"]
  | op :: right :: rest =>
    if !Slot.operator.accepts op.kind then [cx.unexpected op "operator"]
    else if !right.kind.isExpression then [cx.unexpected right "expression"]
    else
      cx.boundary p.beforeOperator left op (cx.stepIn base)
        ++ cx.boundary p.afterOperator op right (cx.stepIn base)
        ++ operand cx p base right ++ chain cx p base false right rest

/-- A parenthesised expression from its children. Nested parentheses are checked level by level: all
openings from the outside in, then the content, then the closings from the inside out. A level without
its shape ends the check; otherwise the closing mark is given too. -/
def parens (cx : Context) (p : ExprPolicies) (base : Nat) (mark : Tree) :
    List Tree → List Finding × Option Tree
  | [] =>
    if mark.kind = .token .lParen then ([missingAfter cx mark], none)
    else ([cx.unexpected mark "("], none)
  | content :: rest =>
    match shapeFault? cx [.token .lParen, .expression, .token .rParen] mark (content :: rest) with
    | some fault => ([fault], none)
    | none =>
      match rest with
      | [] => ([], none)
      | close :: _ =>
        match content with
        | .node .parenExpr inner innerRest =>
          level cx p base mark (.node .parenExpr inner innerRest) close
            (parens cx p base inner innerRest)
        | .empty .parenExpr pos =>
          level cx p base mark (.empty .parenExpr pos) close
            ([cx.missingFirst (.empty .parenExpr pos)], none)
        | content =>
          level cx p base mark content close (operand cx p base content, some content)
end

/-- Whether a construct without children lacks one as an expression. -/
def needsChildren : ConstructKind → Bool
  | .binaryExpr | .ternaryExpr | .indexExpr | .callExpr | .fieldAccess | .parenExpr | .newExpr => true
  | _ => false

/-- The findings inside an expression. Further lines are measured from `base`. -/
def check (cx : Context) (t : Tree) (base : Nat) (inline : Bool) : List Finding :=
  match t with
  | .empty kind pos => if needsChildren kind then [cx.missingFirst (.empty kind pos)] else []
  | t => operand cx (.ofSettings cx.settings inline) base t

end Expression

end TreeLayout
