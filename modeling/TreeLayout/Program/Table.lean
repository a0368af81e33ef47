import TreeLayout.Program.Basic
import TreeLayout.Settings

/-!
# The programs of all constructs

Each kind of construct that is no expression has one template; the settings decide which layout check
stands at each boundary. Expressions have no programs, except for argument lists and array
initializers.
-/

namespace TreeLayout

namespace Template

/-- A token of one kind is expected. -/
def tok (k : TokenKind) : Step := .expect (.kind (.token k))

/-- A construct of one kind is expected. -/
def node (k : ConstructKind) : Step := .expect (.kind (.construct k))

/-- Any child is expected. -/
def any : Step := .expect .any

/-- An expression is expected. -/
def expr : Step := .expect .expr

/-- The next child stays on the line. -/
def noWrap : Step := .layout .noWrap

/-- The next child may start a run one level in, or go on with one. -/
def mayIndent : Step := .layout .mayIndent

/-- The check for a boundary that wraps back to the baseline. -/
def wrapStep : WrapPolicy → Step
  | .must => .layout .mustWrap
  | .may => .layout .mayWrap
  | .no => noWrap

/-- The check for a boundary that wraps one level in. -/
def indentStep : WrapPolicy → Step
  | .must => .layout .mustIndent
  | .may => mayIndent
  | .no => noWrap

/-- The check before the first element of a list. -/
def firstStep : WrapPolicy → Step := indentStep

/-- The check before the further elements of a list. -/
def restStep : WrapPolicy → Step
  | .must | .may => mayIndent
  | .no => noWrap

/-- The check before the mark that closes a list. -/
def closeStep : WrapPolicy → Step
  | .must => .layout .unindent
  | .may => .layout .mayWrap
  | .no => noWrap

/-- Elements between braces, all in one run. -/
def body (element : Step) (oneLine : Bool) : List Step :=
  [tok .lBrace, .fork 1, .layout (if oneLine then .indentIfChildren else .mustIndent), element,
   .label 0, .fork 1, mayIndent, element, .branch 0,
   .label 1, .layout .unindent, tok .rBrace, .finish]

/-- Elements between marks, separated by commas. -/
def list (opening closing : TokenKind) (element : Step) (policy closingPolicy : WrapPolicy)
    (trailingComma : Bool) : List Step :=
  [tok opening, .fork 1, firstStep policy, element,
   .label 0, .fork 1, noWrap, tok .comma]
    ++ (if trailingComma then [.fork 1] else [])
    ++ [restStep policy, element, .branch 0,
        .label 1, closeStep closingPolicy, tok closing, .finish]

/-- A keyword and types, separated by commas. -/
def typeList (keyword : TokenKind) : List Step :=
  [tok keyword, noWrap, any,
   .label 0, .fork 1, noWrap, tok .comma, mayIndent, any, .branch 0,
   .label 1, .finish]

/-- A keyword and an expression between parentheses. -/
def condition (keyword : TokenKind) : List Step :=
  [tok keyword, noWrap, tok .lParen, noWrap, expr, noWrap, tok .rParen]

/-- A statement or a block, with the labels to use. -/
def statementBody (s : LayoutSettings) (skip done : Nat) : List Step :=
  [.fork skip, indentStep (s.wrap .statementBody), any, .branch done,
   .label skip, wrapStep (s.wrap .leftBrace), node .block,
   .label done]

/-- Optional modifiers and the check after them. -/
def modifiers (s : LayoutSettings) : List Step :=
  [.optional, node .modifiers, wrapStep (s.wrap .afterAnnotations)]

/-- A type, a name and an optional initial value, and how it ends. -/
def declaration (s : LayoutSettings) (ending : List Step) : List Step :=
  modifiers s
    ++ [any, noWrap, tok .identifier, .fork 0, noWrap, tok .assign,
        indentStep (s.wrap .assignment), expr, .label 0]
    ++ ending ++ [.finish]

/-- A keyword and an optional label of a loop. -/
def jumpStatement (keyword : TokenKind) : List Step :=
  [tok keyword, .optional, noWrap, tok .identifier, noWrap, tok .semi, .finish]

/-- An if statement. A then-branch that is no block closes its run at `else`. -/
def ifStatement (s : LayoutSettings) : List Step :=
  let body := indentStep (s.wrap .statementBody)
  let brace := wrapStep (s.wrap .leftBrace)
  let otherwise := wrapStep (s.wrap .elseKeyword)
  let afterBody :=
    if s.wrap .statementBody = .no then otherwise else .layout .unindent
  condition .kwIf
    ++ [.fork 0, body, any, .fork 2, afterBody, tok .kwElse, .branch 3,
        .label 0, brace, node .block, .fork 2, otherwise, tok .kwElse,
        .label 3, .fork 4, .fork 5, body, any, .branch 2,
        .label 4, noWrap, node .ifStatement, .branch 2,
        .label 5, brace, node .block,
        .label 2, .finish]

/-- A for statement; its header is a run of its own. -/
def forStatement (s : LayoutSettings) : List Step :=
  [tok .kwFor, noWrap, tok .lParen, .fork 0, noWrap, any,
   .label 0, noWrap, tok .semi, .fork 1, mayIndent, expr,
   .label 1, noWrap, tok .semi, .fork 2, mayIndent, expr,
   .label 2, noWrap, tok .rParen, .layout .endRun]
    ++ statementBody s 3 4 ++ [.finish]

/-- The authored steps for a kind of construct, and whether the elements of its runs may share
lines. -/
def authored? (s : LayoutSettings) : ConstructKind → Option (List Step × Bool)
  | .compilationUnit =>
    some ([.label 0, .fork 1, .layout .mustWrap, any, .branch 0, .label 1, .finish], false)
  | .packageDecl => some ([tok .kwPackage, noWrap, expr, noWrap, tok .semi, .finish], false)
  | .importDecl =>
    some ([tok .kwImport, .optional, noWrap, tok .modifier, noWrap, expr, noWrap, tok .semi,
      .finish], false)
  | .classDecl =>
    some (modifiers s
      ++ [tok .kwClass, noWrap, tok .identifier,
          .optional, indentStep (s.wrap .extendsClause), node .extendsClause,
          .optional, indentStep (s.wrap .implementsClause), node .implementsClause,
          wrapStep (s.wrap .leftBrace), node .classBody, .finish], true)
  | .interfaceDecl =>
    some (modifiers s
      ++ [tok .kwInterface, noWrap, tok .identifier,
          .optional, indentStep (s.wrap .extendsClause), node .extendsClause,
          wrapStep (s.wrap .leftBrace), node .classBody, .finish], true)
  | .modifiers =>
    some ([.label 0, .fork 1, wrapStep (s.wrap .annotations), node .annotationUse, .branch 0,
      .label 1, .fork 2, wrapStep (s.wrap .afterAnnotations), tok .modifier,
      .label 3, .fork 2, noWrap, tok .modifier, .branch 3,
      .label 2, .finish], false)
  | .annotationUse =>
    some ([tok .atSign, noWrap, expr, .optional, noWrap, node .arguments, .finish], false)
  | .extendsClause => some (typeList .kwExtends, s.shareLine .typeLists)
  | .implementsClause => some (typeList .kwImplements, s.shareLine .typeLists)
  | .throwsClause => some (typeList .kwThrows, s.shareLine .typeLists)
  | .classBody => some (body any (s.oneLine .classBodies), s.shareLine .members)
  | .fieldDecl => some (declaration s [noWrap, tok .semi], false)
  -- In the header of a for statement the semicolon belongs to the loop.
  | .localVarDecl => some (declaration s [.optional, noWrap, tok .semi], false)
  | .methodDecl =>
    some (modifiers s
      ++ [any, noWrap, tok .identifier, noWrap, node .parameters,
          .optional, indentStep (s.wrap .throwsClause), node .throwsClause,
          .fork 0, noWrap, tok .semi, .branch 1,
          .label 0, wrapStep (s.wrap .leftBrace), node .block,
          .label 1, .finish], true)
  | .constructorDecl =>
    some (modifiers s
      ++ [tok .identifier, noWrap, node .parameters,
          .optional, indentStep (s.wrap .throwsClause), node .throwsClause,
          wrapStep (s.wrap .leftBrace), node .block, .finish], true)
  | .parameters =>
    some (list .lParen .rParen (node .parameter) (s.wrap .parameters) (s.wrap .closingParen) false,
      s.shareLine .parameters)
  | .parameter =>
    some ([.optional, node .modifiers, noWrap, any, noWrap, tok .identifier, .finish], false)
  | .arrayType => some ([any, noWrap, tok .lBracket, noWrap, tok .rBracket, .finish], false)
  | .block => some (body any (s.oneLine .blocks), s.shareLine .statements)
  | .exprStatement => some ([expr, noWrap, tok .semi, .finish], false)
  | .ifStatement => some (ifStatement s, false)
  | .forStatement => some (forStatement s, false)
  | .forEachStatement =>
    some ([tok .kwFor, noWrap, tok .lParen, noWrap, node .parameter, noWrap, tok .colon, mayIndent,
      expr, noWrap, tok .rParen, .layout .endRun] ++ statementBody s 0 1 ++ [.finish], false)
  | .whileStatement => some (condition .kwWhile ++ statementBody s 0 1 ++ [.finish], false)
  | .doStatement =>
    some (tok .kwDo :: statementBody s 0 1
      ++ [wrapStep (s.wrap .doWhile), tok .kwWhile, noWrap, tok .lParen, noWrap, expr, noWrap,
          tok .rParen, noWrap, tok .semi, .finish], false)
  | .tryStatement =>
    some ([tok .kwTry, wrapStep (s.wrap .leftBrace), node .block,
      .label 0, .fork 1, wrapStep (s.wrap .catchClause), node .catchClause, .branch 0,
      .label 1, .optional, wrapStep (s.wrap .finallyClause), node .finallyClause, .finish], false)
  | .catchClause =>
    some ([tok .kwCatch, noWrap, tok .lParen, noWrap, node .parameter, noWrap, tok .rParen,
      wrapStep (s.wrap .leftBrace), node .block, .finish], false)
  | .finallyClause =>
    some ([tok .kwFinally, wrapStep (s.wrap .leftBrace), node .block, .finish], false)
  | .switchStatement =>
    some (condition .kwSwitch ++ wrapStep (s.wrap .leftBrace)
      :: body (node .switchCase) (s.oneLine .switchBodies), s.shareLine .caseGroups)
  | .switchCase =>
    some ([.fork 0, tok .kwCase, noWrap, expr, noWrap, tok .colon, .branch 1,
      .label 0, tok .kwDefault, noWrap, tok .colon,
      .label 1, .fork 2, mayIndent, any, .branch 1,
      .label 2, .finish], s.shareLine .statements)
  | .returnStatement =>
    some ([tok .kwReturn, .optional, noWrap, expr, noWrap, tok .semi, .finish], false)
  | .throwStatement => some ([tok .kwThrow, noWrap, expr, noWrap, tok .semi, .finish], false)
  | .breakStatement => some (jumpStatement .kwBreak, false)
  | .continueStatement => some (jumpStatement .kwContinue, false)
  | .synchronizedStatement =>
    some (condition .kwSynchronized ++ [wrapStep (s.wrap .leftBrace), node .block, .finish], false)
  | .emptyStatement => some ([tok .semi, .finish], false)
  | .arrayInitializer =>
    some (list .lBrace .rBrace expr .may (s.wrap .closingParen) true, s.shareLine .arrayElements)
  | .arguments =>
    some (list .lParen .rParen expr (s.wrap .arguments) (s.wrap .closingParen) false,
      s.shareLine .arguments)
  | .binaryExpr | .unaryExpr | .ternaryExpr | .indexExpr | .callExpr | .fieldAccess | .parenExpr
  | .newExpr => none

end Template

/-- The programs of all constructs, in the order of their kinds. -/
structure ProgramTable where
  /-- The programs. -/
  programs : List Program

namespace ProgramTable

/-- The programs that settings give. -/
def ofSettings (s : LayoutSettings) : Except ProgramError ProgramTable := do
  let authored := ConstructKind.all.filterMap fun kind =>
    (Template.authored? s kind).map fun (steps, multiple) => (kind, steps, multiple)
  let programs ← authored.mapM fun (kind, steps, multiple) => Program.resolve kind steps multiple
  return ⟨programs⟩

/-- The program for a kind. -/
def get? (table : ProgramTable) (kind : Kind) : Option Program :=
  table.programs.find? (·.kind = kind)

/-- The number of programs. -/
def size (table : ProgramTable) : Nat := table.programs.length

end ProgramTable

end TreeLayout
