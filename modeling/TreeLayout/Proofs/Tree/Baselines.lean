import TreeLayout.Proofs.Tree.Root
import Mathlib.Data.List.Chain

/-!
# The baseline of an `else if` chain

The body of an `if` is measured from where climbing from arm to arm ends. `Focus.FollowsElseIn` is one
step of the climb, from an arm to the `if` whose `else` it follows. The climb takes each such step
(`ifChainRoot_of_follows`) and stops where there is none (`ifChainRoot_of_first`), so that all arms of
a chain come to its first `if` (`ElseIfChain.root_eq`).
-/

namespace TreeLayout

namespace Focus

variable {f outer : Focus}

/-- A node stands right after an `else` among the children of an `if` statement. -/
structure FollowsElseIn (f outer : Focus) : Prop where
  /-- The statement is the parent of the node. -/
  parent : f.parent? = some outer
  /-- The statement is an `if`. -/
  kind : outer.tree.kind = .construct .ifStatement
  /-- The sibling before the node is an `else`. -/
  prev : ∃ mark, f.prev? = some mark ∧ mark.tree.kind = .token .kwElse

/-- The construct around a gap has the kind of its frame. -/
theorem kind_plug (frame : Frame) (t : Tree) : (frame.plug t).kind = .construct frame.kind := by
  unfold Frame.plug
  split <;> rfl

/-- Whether a node follows an `else` in the construct around it is seen from the frame. -/
theorem followsElseIn_iff {t : Tree} {frame : Frame} {path : List Frame} :
    FollowsElseIn ⟨t, frame :: path⟩ outer ↔
      (frame.kind = .ifStatement ∧ frame.before.head?.map Tree.kind = some (.token .kwElse)) ∧
        outer = ⟨frame.plug t, path⟩ := by
  obtain ⟨kind, before, after⟩ := frame
  constructor
  · rintro ⟨hparent, hkind, mark, hprev, hmark⟩
    cases hparent
    rw [kind_plug] at hkind
    cases before with
    | nil => cases hprev
    | cons prev before =>
      cases hprev
      exact ⟨⟨Kind.construct.inj hkind, congrArg some hmark⟩, rfl⟩
  · rintro ⟨⟨hkind, hmark⟩, rfl⟩
    cases before with
    | nil => cases hmark
    | cons prev before =>
      exact ⟨rfl, by rw [kind_plug]; exact congrArg Kind.construct hkind, _, rfl,
        Option.some.inj hmark⟩

/-- The climb takes the step from an arm to the `if` whose `else` it follows. -/
theorem ifChainRoot_of_follows (h : f.FollowsElseIn outer) :
    ifChainRoot f.tree f.path = ifChainRoot outer.tree outer.path := by
  obtain ⟨t, path⟩ := f
  cases path with
  | nil => cases h.parent
  | cons frame path =>
    obtain ⟨⟨hkind, hmark⟩, rfl⟩ := followsElseIn_iff.1 h
    rw [ifChainRoot, if_pos (by simp [hkind, hmark])]

/-- The climb stops at a node that does not follow the `else` of an `if`. -/
theorem ifChainRoot_of_first (h : ∀ outer, ¬ f.FollowsElseIn outer) :
    ifChainRoot f.tree f.path = f := by
  obtain ⟨t, path⟩ := f
  cases path with
  | nil => rfl
  | cons frame path =>
    have hframe : ¬ (frame.kind = .ifStatement ∧
        frame.before.head?.map Tree.kind = some (.token .kwElse)) := fun hframe =>
      h _ (followsElseIn_iff.2 ⟨hframe, rfl⟩)
    rw [ifChainRoot, if_neg (by simpa using hframe)]

/-- A chain of `if` statements, each of which but the first is an `else` arm of the one before. -/
structure ElseIfChain (first : Focus) (rest : List Focus) : Prop where
  /-- All of them are `if` statements. -/
  kind : ∀ arm ∈ first :: rest, arm.tree.kind = .construct .ifStatement
  /-- Each one after the first stands right after an `else` inside the one before it. -/
  linked : (first :: rest).IsChain fun outer arm => arm.FollowsElseIn outer
  /-- The first one does not itself stand after an `else` inside an `if`. -/
  outermost : ∀ outer, ¬ first.FollowsElseIn outer

/-- Climbing along linked arms comes to where climbing from the first of them does. -/
theorem ifChainRoot_of_linked {first : Focus} {rest : List Focus}
    (h : (first :: rest).IsChain fun outer arm => arm.FollowsElseIn outer) :
    ∀ arm ∈ first :: rest, ifChainRoot arm.tree arm.path = ifChainRoot first.tree first.path := by
  induction rest generalizing first with
  | nil =>
    intro arm harm
    rw [List.mem_singleton.1 harm]
  | cons second rest ih =>
    obtain ⟨hfollows, hrest⟩ := List.isChain_cons_cons.1 h
    intro arm harm
    rcases List.mem_cons.1 harm with rfl | harm
    · rfl
    · calc ifChainRoot arm.tree arm.path
        _ = ifChainRoot second.tree second.path := ih hrest arm harm
        _ = ifChainRoot first.tree first.path := ifChainRoot_of_follows hfollows

/-- The climb from each arm of a chain ends at the first one. -/
theorem ElseIfChain.root_eq {first : Focus} {rest : List Focus} (h : ElseIfChain first rest) :
    ∀ arm ∈ first :: rest, ifChainRoot arm.tree arm.path = first := by
  intro arm harm
  rw [ifChainRoot_of_linked h.linked arm harm, ifChainRoot_of_first h.outermost]

end Focus

open Focus

/-- The body of an arm is measured from the `if` that climbing from the arm comes to. -/
theorem indentationParent_of_arm {arm body : Focus} (hbody : body.tree.kind = .construct .block)
    (hparent : body.parent? = some arm) (harm : arm.tree.kind = .construct .ifStatement) :
    indentationParent body = ifChainRoot arm.tree arm.path := by
  have howner : bodyOwner? arm = some (ifChainRoot arm.tree arm.path) := by
    unfold bodyOwner?
    rw [harm]
  simp only [indentationParent, hbody, hparent, Option.bind_some, howner, Option.getD_some]

/-- All arms of an `else if` chain share one baseline, whatever tree they are in and however many
they are: each block that is a child of one of them is measured from the first `if` of the chain. And
the indentation parent of any node is the node itself, one of its ancestors, the last leaf of the
sibling before it, or its own first leaf. -/
theorem arms_share_baseline :
    (∀ (first : Focus) (rest : List Focus), ElseIfChain first rest → ∀ arm ∈ first :: rest,
      ∀ body : Focus, body.parent? = some arm → body.tree.kind = .construct .block →
        indentationParent body = first) ∧
      ∀ f : Focus, f.IsNear (indentationParent f) := by
  refine ⟨fun first rest hchain arm harm body hparent hbody => ?_, isNear_indentationParent⟩
  calc indentationParent body
    _ = ifChainRoot arm.tree arm.path :=
      indentationParent_of_arm hbody hparent (hchain.kind arm harm)
    _ = first := hchain.root_eq arm harm

/-- A chain of three arms. Its first `if` follows an `else` too, but one that stands in a block. -/
theorem arms_share_baseline_three_arms :
    let body (line column : Nat) : Tree :=
      .node .block (.token .lBrace "\x7b" ⟨line, column⟩) [.token .rBrace "\x7d" ⟨line + 1, 0⟩]
    let arm (line column : Nat) (condition : String) (after : List Tree) : Tree :=
      .node .ifStatement (.token .kwIf "if" ⟨line, column⟩)
        (.token .lParen "(" ⟨line, column + 3⟩ :: .token .identifier condition ⟨line, column + 4⟩
          :: .token .rParen ")" ⟨line, column + 5⟩ :: body line (column + 7) :: after)
    let t : Tree := .node .block (.token .lBrace "\x7b" ⟨1, 0⟩)
      [.token .kwElse "else" ⟨1, 2⟩,
        arm 2 0 "a" [.token .kwElse "else" ⟨3, 2⟩,
          arm 3 7 "b" [.token .kwElse "else" ⟨4, 2⟩, arm 4 7 "c" []]],
        .token .rBrace "\x7d" ⟨5, 2⟩]
    ∃ first second third block, t.foci[3]? = some first ∧ t.foci[12]? = some second ∧
      t.foci[21]? = some third ∧ t.foci[26]? = some block ∧ ElseIfChain first [second, third] ∧
      block.parent? = some third ∧ block.tree.kind = .construct .block ∧
      indentationParent block = first := by
  intro body arm t
  refine ⟨_, _, _, _, rfl, rfl, rfl, rfl, ?_⟩
  have hthird : ∀ a b c : Focus, c ∈ [a, b, c] := by simp
  refine ⟨?hchain, rfl, rfl, arms_share_baseline.1 _ _ ?hchain _ (hthird _ _ _) _ rfl rfl⟩
  constructor
  case kind => simp [Tree.kind, arm]
  case linked =>
    exact .cons_cons ⟨rfl, rfl, _, rfl, rfl⟩ (.cons_cons ⟨rfl, rfl, _, rfl, rfl⟩ (.singleton _))
  case outermost =>
    rintro outer ⟨hparent, hkind, -⟩
    cases hparent
    cases hkind

end TreeLayout
