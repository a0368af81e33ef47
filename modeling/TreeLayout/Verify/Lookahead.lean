import TreeLayout.Program.Basic

/-!
# Looking one child ahead

At a fork the machine asks how well each path accepts the current child. The steps of both sides of a
path that forks again are paid from one budget, so that looking ahead ends also in programs that go in
circles.
-/

namespace TreeLayout

/-- The first expectation among steps that start at an index, if only layout checks stand before it. -/
def firstExpect? : Nat → List Step → Option (Nat × Expect)
  | _, [] => none
  | index, .expect e :: _ => some (index, e)
  | index, .layout _ :: rest => firstExpect? (index + 1) rest
  | _, _ :: _ => none

namespace Program

/-- The first expectation at or after an index, if only layout checks stand before it. -/
def nextExpect? (p : Program) (pc : Nat) : Option (Nat × Expect) :=
  firstExpect? pc (p.steps.drop pc)

end Program

/-- Whether there is a current child and it is accepted. -/
def Expect.acceptsCurrent (e : Expect) (child : Option Kind) : Bool :=
  (child.map e.acceptsKind).getD false

/-- How well an expectation accepts a child: its specificity, or not at all. -/
def Expect.rank? (e : Expect) (child : Option Kind) : Option Nat :=
  if e.acceptsCurrent child then some e.specificity else none

/-- The better of two acceptances. -/
def bestRank : Option Nat → Option Nat → Option Nat
  | none, b => b
  | a, none => a
  | some a, some b => some (max a b)

/-- The better of two acceptances is one of them. -/
theorem eq_some_of_bestRank {a b : Option Nat} {r : Nat} (h : bestRank a b = some r) :
    a = some r ∨ b = some r := by
  cases a with
  | none => exact .inr h
  | some a =>
    cases b with
    | none => exact .inl h
    | some b =>
      rw [bestRank, Option.some.injEq] at h
      rw [Option.some.injEq, Option.some.injEq]
      omega

/-- How well the path from a step accepts a child, and how much of the budget is left. Not at all is
`none`, and `some 0` is the end of the program where no child is left. The depth bounds the recursion
and is never smaller than the budget. -/
def acceptanceFrom (p : Program) (child : Option Kind) : (depth budget pc : Nat) → Option Nat × Nat
  | 0, budget, _ => (none, budget)
  | _ + 1, 0, _ => (none, 0)
  | depth + 1, budget + 1, pc =>
    match p.step? pc with
    | none => (none, budget)
    | some (.expect e) => (e.rank? child, budget)
    | some .finish => (if child.isNone then some 0 else none, budget)
    | some (.branch target) => acceptanceFrom p child depth budget target
    | some (.fork target) =>
      let (here, budget) := acceptanceFrom p child depth budget (pc + 1)
      let (there, budget) := acceptanceFrom p child depth budget target
      (bestRank here there, budget)
    | some .optional =>
      match p.nextExpect? (pc + 1) with
      | none => acceptanceFrom p child depth budget (pc + 1)
      | some (index, e) =>
        if e.acceptsCurrent child then (some e.specificity, budget)
        else acceptanceFrom p child depth budget (index + 1)
    | some (.label _) | some (.layout _) => acceptanceFrom p child depth budget (pc + 1)

/-- The steps that looking ahead may take. -/
def lookaheadLimit : Nat := 256

/-- How well the path from a step accepts a child. -/
def acceptance (p : Program) (pc : Nat) (child : Option Kind) : Option Nat :=
  (acceptanceFrom p child lookaheadLimit lookaheadLimit pc).1

/-- What a fork does. -/
inductive ForkChoice where
  /-- The next step follows. -/
  | stay
  /-- The jump is taken. -/
  | jump
  /-- The jump is taken although both paths accept equally well. -/
  | ambiguous
  deriving DecidableEq

/-- The choice between the acceptance of the next step and that of the jump: the more specific one
wins. -/
def ForkChoice.between (here there : Option Nat) : ForkChoice :=
  match here, there with
  | _, none => .stay
  | none, some _ => .jump
  | some h, some t => if h = t then .ambiguous else if h < t then .jump else .stay

/-- The choice of a fork at a step. -/
def Program.choose (p : Program) (pc target : Nat) (child : Option Kind) : ForkChoice :=
  .between (acceptance p (pc + 1) child) (acceptance p target child)

end TreeLayout
