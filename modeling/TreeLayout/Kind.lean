/-!
# Kinds of tree nodes

A node of a syntax tree is a token, which is a leaf that carries source text, or a construct, whose
children are tokens and other constructs in source order. The kinds of both are closed sets. Each kind
has a name, used in documents, and a display name, used in messages: the fixed spelling of a keyword or
punctuation mark, and a phrase for everything else.
-/

namespace TreeLayout

/-- Kinds of tokens: names and literals, keywords, and punctuation. -/
inductive TokenKind where
  | identifier | literal | modifier | operator | kwPackage | kwImport | kwClass | kwInterface
  | kwExtends | kwImplements | kwThrows | kwIf | kwElse | kwFor | kwWhile | kwDo | kwTry
  | kwCatch | kwFinally | kwSwitch | kwCase | kwDefault | kwReturn | kwThrow | kwBreak
  | kwContinue | kwNew | kwSynchronized | lParen | rParen | lBrace | rBrace | lBracket | rBracket
  | semi | comma | dot | colon | question | assign | atSign
  deriving DecidableEq

/-- Kinds of constructs: declarations, statements, and expressions. -/
inductive ConstructKind where
  | compilationUnit | packageDecl | importDecl | classDecl | interfaceDecl | modifiers
  | annotationUse | extendsClause | implementsClause | throwsClause | classBody | fieldDecl
  | methodDecl | constructorDecl | parameters | parameter | arrayType | block | localVarDecl
  | exprStatement | ifStatement | forStatement | forEachStatement | whileStatement | doStatement
  | tryStatement | catchClause | finallyClause | switchStatement | switchCase | returnStatement
  | throwStatement | breakStatement | continueStatement | synchronizedStatement | emptyStatement
  | arrayInitializer | arguments | binaryExpr | unaryExpr | ternaryExpr | indexExpr | callExpr
  | fieldAccess | parenExpr | newExpr
  deriving DecidableEq

namespace TokenKind

/-- All token kinds in order. -/
def all : List TokenKind :=
  [.identifier, .literal, .modifier, .operator, .kwPackage, .kwImport, .kwClass, .kwInterface,
   .kwExtends, .kwImplements, .kwThrows, .kwIf, .kwElse, .kwFor, .kwWhile, .kwDo, .kwTry,
   .kwCatch, .kwFinally, .kwSwitch, .kwCase, .kwDefault, .kwReturn, .kwThrow, .kwBreak,
   .kwContinue, .kwNew, .kwSynchronized, .lParen, .rParen, .lBrace, .rBrace, .lBracket,
   .rBracket, .semi, .comma, .dot, .colon, .question, .assign, .atSign]

/-- The name of a token kind in documents. -/
def name : TokenKind → String
  | .identifier => "identifier"
  | .literal => "literal"
  | .modifier => "modifier"
  | .operator => "operator"
  | .kwPackage => "kw_package"
  | .kwImport => "kw_import"
  | .kwClass => "kw_class"
  | .kwInterface => "kw_interface"
  | .kwExtends => "kw_extends"
  | .kwImplements => "kw_implements"
  | .kwThrows => "kw_throws"
  | .kwIf => "kw_if"
  | .kwElse => "kw_else"
  | .kwFor => "kw_for"
  | .kwWhile => "kw_while"
  | .kwDo => "kw_do"
  | .kwTry => "kw_try"
  | .kwCatch => "kw_catch"
  | .kwFinally => "kw_finally"
  | .kwSwitch => "kw_switch"
  | .kwCase => "kw_case"
  | .kwDefault => "kw_default"
  | .kwReturn => "kw_return"
  | .kwThrow => "kw_throw"
  | .kwBreak => "kw_break"
  | .kwContinue => "kw_continue"
  | .kwNew => "kw_new"
  | .kwSynchronized => "kw_synchronized"
  | .lParen => "l_paren"
  | .rParen => "r_paren"
  | .lBrace => "l_brace"
  | .rBrace => "r_brace"
  | .lBracket => "l_bracket"
  | .rBracket => "r_bracket"
  | .semi => "semi"
  | .comma => "comma"
  | .dot => "dot"
  | .colon => "colon"
  | .question => "question"
  | .assign => "assign"
  | .atSign => "at"

/-- The spelling of the tokens that have only one. -/
def spelling? : TokenKind → Option String
  | .kwPackage => some "package"
  | .kwImport => some "import"
  | .kwClass => some "class"
  | .kwInterface => some "interface"
  | .kwExtends => some "extends"
  | .kwImplements => some "implements"
  | .kwThrows => some "throws"
  | .kwIf => some "if"
  | .kwElse => some "else"
  | .kwFor => some "for"
  | .kwWhile => some "while"
  | .kwDo => some "do"
  | .kwTry => some "try"
  | .kwCatch => some "catch"
  | .kwFinally => some "finally"
  | .kwSwitch => some "switch"
  | .kwCase => some "case"
  | .kwDefault => some "default"
  | .kwReturn => some "return"
  | .kwThrow => some "throw"
  | .kwBreak => some "break"
  | .kwContinue => some "continue"
  | .kwNew => some "new"
  | .kwSynchronized => some "synchronized"
  | .lParen => some "("
  | .rParen => some ")"
  | .lBrace => some "\x7b"
  | .rBrace => some "\x7d"
  | .lBracket => some "["
  | .rBracket => some "]"
  | .semi => some ";"
  | .comma => some ","
  | .dot => some "."
  | .colon => some ":"
  | .question => some "?"
  | .assign => some "="
  | .atSign => some "@"
  | .identifier | .literal | .modifier | .operator => none

/-- How messages name a token kind: by its spelling, or by its name where spellings vary. -/
def displayName (k : TokenKind) : String :=
  k.spelling?.getD k.name

end TokenKind

namespace ConstructKind

/-- All construct kinds in order. -/
def all : List ConstructKind :=
  [.compilationUnit, .packageDecl, .importDecl, .classDecl, .interfaceDecl, .modifiers,
   .annotationUse, .extendsClause, .implementsClause, .throwsClause, .classBody, .fieldDecl,
   .methodDecl, .constructorDecl, .parameters, .parameter, .arrayType, .block, .localVarDecl,
   .exprStatement, .ifStatement, .forStatement, .forEachStatement, .whileStatement, .doStatement,
   .tryStatement, .catchClause, .finallyClause, .switchStatement, .switchCase, .returnStatement,
   .throwStatement, .breakStatement, .continueStatement, .synchronizedStatement, .emptyStatement,
   .arrayInitializer, .arguments, .binaryExpr, .unaryExpr, .ternaryExpr, .indexExpr, .callExpr,
   .fieldAccess, .parenExpr, .newExpr]

/-- The name of a construct kind in documents. -/
def name : ConstructKind → String
  | .compilationUnit => "compilation_unit"
  | .packageDecl => "package_decl"
  | .importDecl => "import_decl"
  | .classDecl => "class_decl"
  | .interfaceDecl => "interface_decl"
  | .modifiers => "modifiers"
  | .annotationUse => "annotation"
  | .extendsClause => "extends_clause"
  | .implementsClause => "implements_clause"
  | .throwsClause => "throws_clause"
  | .classBody => "class_body"
  | .fieldDecl => "field_decl"
  | .methodDecl => "method_decl"
  | .constructorDecl => "constructor_decl"
  | .parameters => "parameters"
  | .parameter => "parameter"
  | .arrayType => "array_type"
  | .block => "block"
  | .localVarDecl => "local_var_decl"
  | .exprStatement => "expr_statement"
  | .ifStatement => "if_statement"
  | .forStatement => "for_statement"
  | .forEachStatement => "for_each_statement"
  | .whileStatement => "while_statement"
  | .doStatement => "do_statement"
  | .tryStatement => "try_statement"
  | .catchClause => "catch_clause"
  | .finallyClause => "finally_clause"
  | .switchStatement => "switch_statement"
  | .switchCase => "switch_case"
  | .returnStatement => "return_statement"
  | .throwStatement => "throw_statement"
  | .breakStatement => "break_statement"
  | .continueStatement => "continue_statement"
  | .synchronizedStatement => "synchronized_statement"
  | .emptyStatement => "empty_statement"
  | .arrayInitializer => "array_initializer"
  | .arguments => "arguments"
  | .binaryExpr => "binary_expr"
  | .unaryExpr => "unary_expr"
  | .ternaryExpr => "ternary_expr"
  | .indexExpr => "index_expr"
  | .callExpr => "call_expr"
  | .fieldAccess => "field_access"
  | .parenExpr => "paren_expr"
  | .newExpr => "new_expr"

/-- How messages name a construct kind. -/
def displayName : ConstructKind → String
  | .compilationUnit => "compilation unit"
  | .packageDecl => "package declaration"
  | .importDecl => "import declaration"
  | .classDecl => "class declaration"
  | .interfaceDecl => "interface declaration"
  | .modifiers => "modifiers"
  | .annotationUse => "annotation"
  | .extendsClause => "extends clause"
  | .implementsClause => "implements clause"
  | .throwsClause => "throws clause"
  | .classBody => "class body"
  | .fieldDecl => "field declaration"
  | .methodDecl => "method declaration"
  | .constructorDecl => "constructor declaration"
  | .parameters => "parameter list"
  | .parameter => "parameter"
  | .arrayType => "array type"
  | .block => "block"
  | .localVarDecl => "variable declaration"
  | .exprStatement => "expression statement"
  | .ifStatement => "if statement"
  | .forStatement => "for statement"
  | .forEachStatement => "for-each statement"
  | .whileStatement => "while statement"
  | .doStatement => "do statement"
  | .tryStatement => "try statement"
  | .catchClause => "catch clause"
  | .finallyClause => "finally clause"
  | .switchStatement => "switch statement"
  | .switchCase => "case group"
  | .returnStatement => "return statement"
  | .throwStatement => "throw statement"
  | .breakStatement => "break statement"
  | .continueStatement => "continue statement"
  | .synchronizedStatement => "synchronized statement"
  | .emptyStatement => "empty statement"
  | .arrayInitializer => "array initializer"
  | .arguments => "argument list"
  | .binaryExpr => "binary expression"
  | .unaryExpr => "unary expression"
  | .ternaryExpr => "conditional expression"
  | .indexExpr => "index expression"
  | .callExpr => "method call"
  | .fieldAccess => "field access"
  | .parenExpr => "parenthesized expression"
  | .newExpr => "object creation"

end ConstructKind

/-- The kind of a node. -/
inductive Kind where
  /-- A token of a kind. -/
  | token (kind : TokenKind)
  /-- A construct of a kind. -/
  | construct (kind : ConstructKind)
  deriving DecidableEq

instance : Coe TokenKind Kind := ⟨.token⟩

instance : Coe ConstructKind Kind := ⟨.construct⟩

namespace Kind

/-- All kinds in order, tokens before constructs. -/
def all : List Kind :=
  TokenKind.all.map .token ++ ConstructKind.all.map .construct

/-- The name of a kind in documents. -/
def name : Kind → String
  | .token k => k.name
  | .construct k => k.name

/-- The kind with a name. -/
def ofName? (name : String) : Option Kind :=
  all.find? fun k => k.name == name

/-- How messages name a kind. -/
def displayName : Kind → String
  | .token k => k.displayName
  | .construct k => k.displayName

/-- The spelling of the tokens that have only one. -/
def spelling? : Kind → Option String
  | .token k => k.spelling?
  | .construct _ => none

/-- Whether nodes of the kind are leaves that carry source text. -/
def isToken : Kind → Bool
  | .token _ => true
  | .construct _ => false

/-- Whether a node of the kind may stand where an expression is expected. An array initializer may, and
keeps its own layout program. -/
def isExpression : Kind → Bool
  | .token .identifier | .token .literal => true
  | .token _ => false
  | .construct k =>
    match k with
    | .arrayInitializer | .binaryExpr | .unaryExpr | .ternaryExpr | .indexExpr | .callExpr
    | .fieldAccess | .parenExpr | .newExpr => true
    | _ => false

/-- Whether an element of the kind may align with its container instead of one level in. -/
def isCaseLike (k : Kind) : Bool :=
  k = .construct .switchCase

/-- The name in capitalised words, as logs write it: `l_brace` is `LBrace`. -/
def camelName (k : Kind) : String :=
  String.join ((k.name.splitOn "_").map String.capitalize)

end Kind

end TreeLayout
