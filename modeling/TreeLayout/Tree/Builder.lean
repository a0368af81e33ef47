import TreeLayout.Text.Basic
import TreeLayout.Tree.Error

/-!
# Building trees against a source text

A tree is built by calls in document order. Constructs are opened and closed. A token is found at the
cursor once blanks are skipped, or is put at a position that the caller knows. The first call that
fails decides the outcome.
-/

namespace TreeLayout

/-- One call to the builder. -/
inductive BuildCall where
  /-- Starts a construct. -/
  | «open» (kind : Kind)
  /-- Ends the construct that was started last and is not yet ended. -/
  | close
  /-- Adds a token that stands at the cursor. -/
  | token (kind : Kind) (text : String)
  /-- Adds a token at a known position; the cursor stays. -/
  | tokenAt (kind : Kind) (text : String) (pos : Position)

namespace Builder

/-- The position after one more character. -/
def advance (pos : Position) (c : Char) : Position :=
  if c = '\n' then ⟨pos.line + 1, 0⟩ else ⟨pos.line, pos.column + 1⟩

/-- The position after several more characters. -/
def advanceBy (pos : Position) (cs : List Char) : Position :=
  cs.foldl advance pos

/-- A construct that is not yet closed, with the children added so far, last first. -/
structure OpenConstruct where
  /-- The kind of the construct. -/
  kind : ConstructKind
  /-- Where the cursor stood when it was opened. -/
  pos : Position
  /-- Its children so far, last first. -/
  children : List Tree

/-- The construct as a tree. -/
def OpenConstruct.toTree (c : OpenConstruct) : Tree :=
  .construct c.kind c.pos c.children.reverse

/-- A tree under construction. -/
structure State where
  /-- The source after the cursor. -/
  remaining : List Char
  /-- The position of the cursor. -/
  pos : Position
  /-- The constructs that are not yet closed, innermost first. -/
  stack : List OpenConstruct
  /-- The outermost node, once it is complete. -/
  root : Option Tree

/-- Nothing is built, and the cursor stands at the start. -/
def State.start (source : String) : State :=
  { remaining := source.toList, pos := ⟨1, 0⟩, stack := [], root := none }

/-- The cursor after blanks. -/
def State.skipBlanks (s : State) : State :=
  { s with
    remaining := s.remaining.dropWhile Text.isBlank
    pos := advanceBy s.pos (s.remaining.takeWhile Text.isBlank) }

/-- Adds a complete node to the innermost open construct, or as the outermost node. -/
def State.attach (s : State) (t : Tree) : Except TreeError State :=
  match s.stack, s.root with
  | c :: cs, _ => .ok { s with stack := { c with children := t :: c.children } :: cs }
  | [], none => .ok { s with root := some t }
  | [], some _ => .error (.secondRoot t.kind)

/-- Adds a token at a position. -/
def State.attachToken (s : State) (kind : Kind) (text : String) (pos : Position) :
    Except TreeError State :=
  match kind with
  | .token k => s.attach (.token k text pos)
  | .construct k => .error (.textOnConstruct k)

/-- Starts a construct at the cursor. -/
def State.open (s : State) (kind : Kind) : Except TreeError State :=
  match kind with
  | .token k => .error (.incompleteToken k)
  | .construct k =>
    let s := s.skipBlanks
    match s.stack, s.root with
    | [], some _ => .error (.secondRoot k)
    | _, _ => .ok { s with stack := ⟨k, s.pos, []⟩ :: s.stack }

/-- Ends the innermost open construct. -/
def State.close (s : State) : Except TreeError State :=
  match s.stack with
  | [] => .error .closeWithoutOpen
  | c :: cs => { s with stack := cs }.attach c.toTree

/-- Adds a token that stands at the cursor after blanks. -/
def State.token (s : State) (kind : Kind) (text : String) : Except TreeError State :=
  let s := s.skipBlanks
  match Text.dropStart? text.toList s.remaining with
  | none => .error (.tokenNotFound text s.pos)
  | some after =>
    if text.isEmpty then .error (.tokenNotFound text s.pos)
    else
      { s with remaining := after, pos := advanceBy s.pos text.toList }.attachToken kind text s.pos

/-- Adds a token at a known position. -/
def State.tokenAt (s : State) (kind : Kind) (text : String) (pos : Position) :
    Except TreeError State :=
  if pos.line = 0 then .error (.zeroLine kind) else s.attachToken kind text pos

/-- The effect of one call. -/
def State.step (s : State) : BuildCall → Except TreeError State
  | .open kind => s.open kind
  | .close => s.close
  | .token kind text => s.token kind text
  | .tokenAt kind text pos => s.tokenAt kind text pos

/-- The tree, if it is complete. -/
def State.finish (s : State) : Except TreeError Tree :=
  match s.stack, s.root with
  | _ :: _, _ => .error (.leftOpen s.stack.length)
  | [], none => .error .noRoot
  | [], some (.token k _ _) => .error (.tokenRoot k)
  | [], some t => .ok t

/-- The tree that a sequence of calls builds against a source text. -/
def build (source : String) (calls : List BuildCall) : Except TreeError Tree := do
  let s ← calls.foldlM State.step (State.start source)
  s.finish

end Builder

end TreeLayout
