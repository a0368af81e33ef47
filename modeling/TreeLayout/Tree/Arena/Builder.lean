import TreeLayout.Tree.Arena
import TreeLayout.Tree.Builder

/-!
# Filling an arena by calls

The calls to a builder add rows to an arena as they come. Constructs that are not yet closed wait on a
stack; a node that comes is the last child of the topmost one. The first fault is kept, and calls that
come after it are taken as the others are.
-/

namespace TreeLayout.Arena

/-- An arena that is being filled. -/
structure Builder where
  /-- The source after the cursor. -/
  remaining : List Char
  /-- The position of the cursor. -/
  pos : Position
  /-- The nodes so far. -/
  arena : Arena
  /-- The constructs that are not yet closed, innermost first. -/
  stack : List Nat
  /-- Whether the outermost node is there. -/
  hasRoot : Bool
  /-- The first fault. -/
  fault : Option TreeError

namespace Builder

/-- No node is there, and the cursor stands at the start. -/
def start (source : String) : Builder where
  remaining := source.toList
  pos := ⟨1, 0⟩
  arena := .empty
  stack := []
  hasRoot := false
  fault := none

/-- Keeps a fault if it is the first one. -/
def fail (b : Builder) (e : TreeError) : Builder := { b with fault := b.fault <|> some e }

/-- The cursor after blanks. -/
def skipBlanks (b : Builder) : Builder :=
  { b with
    remaining := b.remaining.dropWhile Text.isBlank
    pos := TreeLayout.Builder.advanceBy b.pos (b.remaining.takeWhile Text.isBlank) }

/-- Adds a node to the innermost open construct, or as the outermost node. The number of the node is
given if it could be added. -/
def attach (b : Builder) (kind : Kind) (text : Option String) (pos : Position) :
    Builder × Option Nat :=
  match b.stack, b.hasRoot with
  | p :: _, _ => ({ b with arena := b.arena.push kind text pos (some p) }, some b.arena.size)
  | [], false =>
    ({ b with arena := b.arena.push kind text pos none, hasRoot := true }, some b.arena.size)
  | [], true => (b.fail (.secondRoot kind), none)

/-- Adds a token at a position. -/
def attachToken (b : Builder) (kind : Kind) (text : String) (pos : Position) : Builder :=
  match kind with
  | .token k => (b.attach k (some text) pos).1
  | .construct k => b.fail (.textOnConstruct k)

/-- Starts a construct at the cursor. -/
def «open» (b : Builder) (kind : Kind) : Builder :=
  match kind with
  | .token k => b.fail (.incompleteToken k)
  | .construct k =>
    let b := b.skipBlanks
    match b.attach k none b.pos with
    | (b, some id) => { b with stack := id :: b.stack }
    | (b, none) => b

/-- Ends the innermost open construct. -/
def close (b : Builder) : Builder :=
  match b.stack with
  | [] => b.fail .closeWithoutOpen
  | _ :: stack => { b with stack }

/-- Adds a token that stands at the cursor after blanks, unless there was a fault before. -/
def token (b : Builder) (kind : Kind) (text : String) : Builder :=
  match b.fault with
  | some _ => b
  | none =>
    let b := b.skipBlanks
    match Text.dropStart? text.toList b.remaining with
    | none => b.fail (.tokenNotFound text b.pos)
    | some after =>
      if text.isEmpty then b.fail (.tokenNotFound text b.pos)
      else
        { b.attachToken kind text b.pos with
          remaining := after
          pos := TreeLayout.Builder.advanceBy b.pos text.toList }

/-- Adds a token at a known position. -/
def tokenAt (b : Builder) (kind : Kind) (text : String) (pos : Position) : Builder :=
  if pos.line = 0 then b.fail (.zeroLine kind) else b.attachToken kind text pos

/-- The effect of one call. -/
def step (b : Builder) : BuildCall → Builder
  | .open kind => b.open kind
  | .close => b.close
  | .token kind text => b.token kind text
  | .tokenAt kind text pos => b.tokenAt kind text pos

/-- The arena with all nodes at their positions, if it is complete. -/
def finish (b : Builder) : Except TreeError Arena :=
  match b.fault with
  | some e => .error e
  | none =>
    if !b.stack.isEmpty then .error (.leftOpen b.stack.length)
    else if !b.hasRoot then .error .noRoot
    else
      match b.arena.kind? 0 with
      | some (.token k) => .error (.tokenRoot k)
      | _ => .ok b.arena.settle

end Builder

/-- The arena that a sequence of calls fills against a source text. -/
def build (source : String) (calls : List BuildCall) : Except TreeError Arena :=
  (calls.foldl Builder.step (.start source)).finish

end TreeLayout.Arena
