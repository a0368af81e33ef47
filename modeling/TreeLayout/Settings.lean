/-!
# Layout settings

A wrap policy says whether a line may end between two elements. The settings give a policy for each
kind of boundary, say which bodies may stand on one line and which elements may share lines, and hold
the widths of tabs and of one indentation level.
-/

namespace TreeLayout

/-- Whether a line ends between two elements. -/
inductive WrapPolicy where
  /-- The second element starts a line. -/
  | must
  /-- The second element stays on the line or wraps to the expected column. -/
  | may
  /-- Both elements share a line. -/
  | no
  deriving DecidableEq

namespace WrapPolicy

/-- The name of a policy. -/
def name : WrapPolicy → String
  | .must => "must"
  | .may => "may"
  | .no => "no"

/-- The policy that a settings document writes, exactly, by its name or a longer form of it. -/
def ofSetting? (s : String) : Option WrapPolicy :=
  if s == "must" || s == "must-wrap" || s == "must_wrap" then some .must
  else if s == "may" || s == "may-wrap" || s == "may_wrap" then some .may
  else if s == "no" || s == "no-wrap" || s == "no_wrap" then some .no
  else none

end WrapPolicy

/-- The boundaries between elements that have a policy of their own. -/
inductive Boundary where
  /-- Between the last annotation and what follows. -/
  | afterAnnotations
  /-- Between annotations. -/
  | annotations
  /-- Before an extends clause. -/
  | extendsClause
  /-- Before an implements clause. -/
  | implementsClause
  /-- Before a throws clause. -/
  | throwsClause
  /-- Before the brace that opens a body. -/
  | leftBrace
  /-- Before `else`. -/
  | elseKeyword
  /-- Before a catch clause. -/
  | catchClause
  /-- Before a finally clause. -/
  | finallyClause
  /-- Before the `while` of a do statement. -/
  | doWhile
  /-- After the `=` of a declaration. -/
  | assignment
  /-- Before parameters. -/
  | parameters
  /-- Before arguments. -/
  | arguments
  /-- Before an operator. -/
  | beforeOperator
  /-- After an operator. -/
  | afterOperator
  /-- Before the marks of a conditional expression. -/
  | ternary
  /-- Before the dot of a selector chain. -/
  | selector
  /-- Before a statement body that is no block. -/
  | statementBody
  /-- Before the mark that closes a list. -/
  | closingParen
  deriving DecidableEq

namespace Boundary

/-- All boundaries in order. -/
def all : List Boundary :=
  [.afterAnnotations, .annotations, .extendsClause, .implementsClause, .throwsClause, .leftBrace,
   .elseKeyword, .catchClause, .finallyClause, .doWhile, .assignment, .parameters, .arguments,
   .beforeOperator, .afterOperator, .ternary, .selector, .statementBody, .closingParen]

/-- The name of a boundary in settings documents. -/
def name : Boundary → String
  | .afterAnnotations => "after_annotations"
  | .annotations => "annotations"
  | .extendsClause => "extends"
  | .implementsClause => "implements"
  | .throwsClause => "throws"
  | .leftBrace => "left_brace"
  | .elseKeyword => "else"
  | .catchClause => "catch"
  | .finallyClause => "finally"
  | .doWhile => "do_while"
  | .assignment => "assignment"
  | .parameters => "parameters"
  | .arguments => "arguments"
  | .beforeOperator => "before_operator"
  | .afterOperator => "after_operator"
  | .ternary => "ternary"
  | .selector => "selector"
  | .statementBody => "statement_body"
  | .closingParen => "closing_paren"

end Boundary

/-- The bodies that may be allowed to stand on one line. -/
inductive BodyKind where
  | blocks | classBodies | switchBodies
  deriving DecidableEq

namespace BodyKind

/-- All kinds of bodies in order. -/
def all : List BodyKind := [.blocks, .classBodies, .switchBodies]

/-- The name of a kind of body in settings documents. -/
def name : BodyKind → String
  | .blocks => "blocks"
  | .classBodies => "class_bodies"
  | .switchBodies => "switch_bodies"

end BodyKind

/-- The elements that may be allowed to share lines. -/
inductive ElementKind where
  | statements | members | parameters | arguments | arrayElements | typeLists | caseGroups
  deriving DecidableEq

namespace ElementKind

/-- All kinds of elements in order. -/
def all : List ElementKind :=
  [.statements, .members, .parameters, .arguments, .arrayElements, .typeLists, .caseGroups]

/-- The name of a kind of elements in settings documents. -/
def name : ElementKind → String
  | .statements => "statements"
  | .members => "members"
  | .parameters => "parameters"
  | .arguments => "arguments"
  | .arrayElements => "array_elements"
  | .typeLists => "type_lists"
  | .caseGroups => "case_groups"

end ElementKind

/-- The layout that trees are verified against. -/
structure LayoutSettings where
  /-- Columns from one tab stop to the next. -/
  tabWidth : Nat
  /-- Columns that one indentation level adds. -/
  basicOffset : Nat
  /-- The policy of each boundary. -/
  wrap : Boundary → WrapPolicy
  /-- Which bodies may stand on one line. -/
  oneLine : BodyKind → Bool
  /-- Which elements may share lines. -/
  shareLine : ElementKind → Bool
  /-- Whether the `=` of declarations on adjacent lines align. -/
  alignDeclarations : Bool

/-- Why layout settings cannot be used. -/
inductive SettingsError where
  /-- Tabs have no width. -/
  | zeroTabWidth
  /-- An indentation level has no width. -/
  | zeroOffset
  deriving DecidableEq

/-- The text of a fault of settings. -/
def SettingsError.message : SettingsError → String
  | .zeroTabWidth => "layout.tab_width must be positive"
  | .zeroOffset => "layout.basic_offset must be positive"

namespace LayoutSettings

/-- By default most boundaries may wrap; an opening brace and what follows an operator stay on the
line. -/
def default : LayoutSettings where
  tabWidth := 4
  basicOffset := 4
  wrap
    | .leftBrace | .afterOperator => .no
    | _ => .may
  oneLine
    | .blocks => true
    | .classBodies | .switchBodies => false
  shareLine
    | .parameters | .arguments | .arrayElements | .typeLists => true
    | .statements | .members | .caseGroups => false
  alignDeclarations := false

/-- One element per line, and annotations and statement bodies on lines of their own. -/
def strict : LayoutSettings :=
  { default with
    wrap := fun
      | .afterAnnotations | .annotations | .statementBody => .must
      | b => default.wrap b
    oneLine := fun _ => false
    shareLine := fun _ => false
    alignDeclarations := true }

/-- One-line bodies and shared lines are allowed. -/
def relaxed : LayoutSettings :=
  { default with
    wrap := fun
      | .leftBrace | .afterOperator => .may
      | b => default.wrap b
    oneLine := fun _ => true
    shareLine := fun _ => true }

/-- The settings of a preset with a name. -/
def preset? (name : String) : Option LayoutSettings :=
  if name == "default" then some default
  else if name == "strict" then some strict
  else if name == "relaxed" then some relaxed
  else none

/-- Settings can be used if tabs and indentation levels have a width. -/
def validate (s : LayoutSettings) : Except SettingsError Unit :=
  if s.tabWidth = 0 then .error .zeroTabWidth
  else if s.basicOffset = 0 then .error .zeroOffset
  else .ok ()

end LayoutSettings

end TreeLayout
