/-!
# Findings

A finding is one report of the verifier, anchored on a token. Structural messages say that a tree lacks
the shape of its construct; the others say that a well-formed tree is laid out wrongly.
-/

namespace TreeLayout

/-- How serious a diagnostic is. -/
inductive Severity where
  | info | warning | error
  deriving DecidableEq

/-- The name of a severity. -/
def Severity.name : Severity → String
  | .info => "info"
  | .warning => "warning"
  | .error => "error"

/-- The rules under which findings are reported. -/
inductive Rule where
  | mustWrap | sameLine | column | unexpectedToken | extraToken | missingToken
  deriving DecidableEq

namespace Rule

/-- All rules in order. -/
def all : List Rule :=
  [.mustWrap, .sameLine, .column, .unexpectedToken, .extraToken, .missingToken]

/-- The identifier of a rule. -/
def id : Rule → String
  | .mustWrap => "must-wrap"
  | .sameLine => "same-line"
  | .column => "column"
  | .unexpectedToken => "unexpected-token"
  | .extraToken => "extra-token"
  | .missingToken => "missing-token"

/-- Whether the rule is about the shape of a tree. -/
def isStructural : Rule → Bool
  | .unexpectedToken | .extraToken | .missingToken => true
  | .mustWrap | .sameLine | .column => false

/-- The severity of a rule where the configuration gives none. -/
def defaultSeverity (r : Rule) : Severity :=
  if r.isStructural then .error else .warning

/-- What a reader is told to do about a finding. -/
def help : Rule → String
  | .mustWrap => "start a new line before this token"
  | .sameLine => "join this token onto the previous line"
  | .column => "align the token with the column shown"
  | .unexpectedToken | .extraToken | .missingToken =>
    "the syntax tree does not have the shape this construct requires"

end Rule

/-- What is wrong. -/
inductive Message where
  /-- A line must end before a token. -/
  | mustWrap (next : String)
  /-- Two tokens must share a line. -/
  | sameLine (prev next : String)
  /-- A token stands in a wrong expanded column; both columns count from one. -/
  | column (token : String) (expected actual : Nat)
  /-- A child of the wrong kind. -/
  | unexpectedToken (expected actual : String)
  /-- A child too many. -/
  | extraToken (token : String)
  /-- A child too few. -/
  | missingToken (prev : String)
  deriving DecidableEq

namespace Message

/-- The rule under which a message is reported. -/
def rule : Message → Rule
  | .mustWrap _ => .mustWrap
  | .sameLine _ _ => .sameLine
  | .column _ _ _ => .column
  | .unexpectedToken _ _ => .unexpectedToken
  | .extraToken _ => .extraToken
  | .missingToken _ => .missingToken

/-- Whether a message is about the shape of a tree. -/
def isStructural (m : Message) : Bool := m.rule.isStructural

/-- The text of a message. -/
def text : Message → String
  | .mustWrap next => "must wrap line before `" ++ next ++ "`"
  | .sameLine prev next => "`" ++ prev ++ "` must appear on same line as `" ++ next ++ "`"
  | .column token expected actual =>
    "`" ++ token ++ "` must appear in column " ++ toString expected ++ ", not " ++ toString actual
  | .unexpectedToken expected actual => "expected `" ++ expected ++ "` instead of `" ++ actual ++ "`"
  | .extraToken token => "unexpected extra token `" ++ token ++ "`"
  | .missingToken prev => "token missing after `" ++ prev ++ "`"

end Message

/-- One report of the verifier. -/
structure Finding where
  /-- The line of the anchor, counted from one. -/
  line : Nat
  /-- The expanded column of the anchor, counted from one. -/
  column : Nat
  /-- The raw column of the anchor, counted from zero. -/
  rawColumn : Nat
  /-- The length of the anchor's text, at least one. -/
  length : Nat
  /-- What is wrong. -/
  message : Message
  /-- The indentation that the anchor gets if it starts a line. -/
  indent : Option Nat
  deriving DecidableEq

/-- The text of a finding with its place. -/
def Finding.text (f : Finding) : String :=
  toString f.line ++ ":" ++ toString f.column ++ ": " ++ f.message.text

end TreeLayout
