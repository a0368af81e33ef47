import TreeLayout.Tree.Focus
import TreeLayout.Verify.Context

/-!
# Baselines

The children of a node are indented from the line of its indentation parent, which is often not the
node itself: an argument list is measured from the name before it, a body from the statement that owns
it, and the arms of an `else if` chain from the first `if`.
-/

namespace TreeLayout

/-- The outermost `if` of the chain of `else if` arms that a node at the end of a path belongs to. -/
def ifChainRoot (t : Tree) : List Frame → Focus
  | [] => ⟨t, []⟩
  | frame :: path =>
    if frame.kind = .ifStatement && (frame.before.head?.map Tree.kind) = some (.token .kwElse) then
      ifChainRoot (frame.plug t) path
    else ⟨t, frame :: path⟩

/-- The construct that a body belongs to, given the construct that has it as a child. -/
def bodyOwner? (owner : Focus) : Option Focus :=
  match owner.tree.kind with
  | .construct kind =>
    match kind with
    -- The try statement that the clause belongs to.
    | .catchClause | .finallyClause => owner.parent?
    | .ifStatement => some (ifChainRoot owner.tree owner.path)
    | .forStatement | .forEachStatement | .whileStatement | .doStatement | .tryStatement
    | .synchronizedStatement | .switchCase | .methodDecl | .constructorDecl | .classDecl
    | .interfaceDecl | .newExpr => some owner
    | _ => none
  | .token _ => none

/-- The node whose line gives the baseline for a node's children. -/
def indentationParent (f : Focus) : Focus :=
  match f.tree.kind with
  | .construct kind =>
    match kind with
    | .arguments | .parameters =>
      match f.prev? with
      | some name => name.rightmost
      | none => f.parent?.getD f
    | .fieldAccess => f.leftmost
    | .block | .classBody => (f.parent?.bind bodyOwner?).getD f
    | _ => f
  | .token _ => f

/-- Whether a statement is the body of a control statement and starts on the line of its header. -/
def isInlineBody (statement : Focus) : Bool :=
  match statement.path with
  | [] => false
  | frame :: _ =>
    match frame.kind with
    | .ifStatement | .forStatement | .forEachStatement | .whileStatement | .doStatement =>
      (frame.before.head?.map fun header => sameLine header statement.tree).getD false
    | _ => false

/-- Whether expressions that are children of a node stay on one line: as one of several list elements,
or as the whole of a body that stands on the line of its header. -/
def keepsInline (parent : Focus) : Bool :=
  match parent.tree.kind with
  | .construct kind =>
    match kind with
    | .arguments | .arrayInitializer =>
      decide (1 < (parent.tree.children.filter fun c => c.kind.isExpression).length)
    | .exprStatement | .returnStatement | .throwStatement | .localVarDecl => isInlineBody parent
    | _ => false
  | .token _ => false

/-- Whether a node stays on one line because of where it stands. -/
def isInline (f : Focus) : Bool :=
  (f.parent?.map keepsInline).getD false

end TreeLayout
