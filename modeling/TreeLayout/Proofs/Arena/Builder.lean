import TreeLayout.Proofs.Arena.Loader
import TreeLayout.Proofs.Raw.Calls
import TreeLayout.Tree.Arena.Builder

/-!
# Arenas of calls

A builder that adds rows as calls come, and one that puts trees together when they are complete, do the
same. While constructs are open the arena holds them, each with the children that it has so far
(`Arena.ofOpen`), and the stacks of both builders tell the same constructs (`Arena.Builder.Builds`).
Each call keeps this or leads to the same fault (`Arena.Builder.follows_step`), and a fault once kept
stays. So the arena that is filled is that of the tree which is built (`Arena.build_eq`), and, for the
calls of a raw tree, the one that is filled from the raw tree (`Arena.build_of_toArena`).
-/

namespace TreeLayout

open Builder (State)

/-! ## Open constructs -/

/-- A construct that is not yet closed, with the children added so far, last first. -/
structure PlacedOpen where
  /-- The kind of the construct. -/
  kind : ConstructKind
  /-- The position at which it was added. -/
  pos : Position
  /-- Its children so far, last first. -/
  children : List Placed

namespace PlacedOpen

/-- The construct as it is if it is closed. -/
def close (c : PlacedOpen) : Placed := .construct c.kind c.pos c.children.reverse

/-- The construct with one more child. -/
def gain (c : PlacedOpen) (p : Placed) : PlacedOpen := { c with children := p :: c.children }

/-- What a builder of trees keeps of the construct. -/
def toOpen (c : PlacedOpen) : Builder.OpenConstruct := ⟨c.kind, c.pos, c.children.map Placed.toTree⟩

/-- A construct is closed alike. -/
theorem toTree_close (c : PlacedOpen) : c.close.toTree = c.toOpen.toTree := by
  rw [close, Placed.toTree, Placed.toTrees_eq_map, Builder.OpenConstruct.toTree, toOpen,
    List.map_reverse]

end PlacedOpen

namespace Arena

mutual
/-- The arena that holds constructs which are not yet closed, innermost first. -/
def ofOpen : List PlacedOpen → Arena
  | [] => .empty
  | c :: cs =>
    ((ofOpen cs).push c.kind none c.pos (openIds cs).head?).addAmong (ofOpen cs).size
      c.children.reverse

/-- The numbers of constructs that are not yet closed. -/
def openIds : List PlacedOpen → List Nat
  | [] => []
  | _ :: cs => (ofOpen cs).size :: openIds cs
end

/-- Each open construct has a number. -/
theorem length_openIds (cs : List PlacedOpen) : (openIds cs).length = cs.length := by
  induction cs with
  | nil => rfl
  | cons c cs ih => rw [openIds, List.length_cons, ih, List.length_cons]

/-- Children are added one after the other. -/
theorem addAmong_append (a : Arena) (parent : Nat) (ps qs : List Placed) :
    a.addAmong parent (ps ++ qs) = (a.addAmong parent ps).addAmong parent qs := by
  induction ps generalizing a with
  | nil => rfl
  | cons p ps ih => rw [List.cons_append, addAmong, addAmong, ih]

/-- The innermost open construct gains a child. -/
theorem ofOpen_gain (c : PlacedOpen) (cs : List PlacedOpen) (p : Placed) :
    ofOpen (c.gain p :: cs) = (ofOpen (c :: cs)).add (some (ofOpen cs).size) p := by
  rw [ofOpen, ofOpen, PlacedOpen.gain, List.reverse_cons, addAmong_append]
  rfl

/-- To close a construct changes nothing in the arena. -/
theorem ofOpen_close (c : PlacedOpen) (cs : List PlacedOpen) :
    ofOpen (c :: cs) = (ofOpen cs).add (openIds cs).head? c.close := by
  rw [ofOpen, PlacedOpen.close, add]

end Arena

/-! ## Builders that agree -/

/-- How far a tree is built. -/
inductive Progress where
  /-- No node is there. -/
  | nothing
  /-- A construct is open, and so are those around it, innermost first. -/
  | opened (c : PlacedOpen) (outer : List PlacedOpen)
  /-- The outermost node is complete. -/
  | complete (p : Placed)

namespace Progress

/-- The state of a builder of trees, with the text after the cursor and the position of the cursor. -/
def state (remaining : List Char) (pos : Position) : Progress → State
  | nothing => ⟨remaining, pos, [], none⟩
  | opened c outer => ⟨remaining, pos, (c :: outer).map PlacedOpen.toOpen, none⟩
  | complete p => ⟨remaining, pos, [], some p.toTree⟩

/-- The state of a builder of arenas, in which there was no fault. -/
def builder (remaining : List Char) (pos : Position) : Progress → Arena.Builder
  | nothing => ⟨remaining, pos, .empty, [], false, none⟩
  | opened c outer =>
    ⟨remaining, pos, .ofOpen (c :: outer), Arena.openIds (c :: outer), true, none⟩
  | complete p => ⟨remaining, pos, Arena.empty.add none p, [], true, none⟩

end Progress

namespace Arena.Builder

/-- What becomes of a builder of arenas if a builder of trees comes to an outcome: it gets as far, or it
keeps the same fault. -/
def Follows (b : Builder) : Except TreeError State → Prop
  | .ok s => ∃ (progress : Progress) (remaining : List Char) (pos : Position),
    s = progress.state remaining pos ∧ b = progress.builder remaining pos
  | .error e => b.fault = some e

/-- A token is added alike, at any position and wherever the cursor goes then. -/
theorem follows_attachToken (progress : Progress) (remaining remaining' : List Char)
    (cursor cursor' : Position) (kind : Kind) (text : String) (pos : Position) :
    Follows { (progress.builder remaining cursor).attachToken kind text pos with
        remaining := remaining', pos := cursor' }
      ((progress.state remaining' cursor').attachToken kind text pos) := by
  cases kind with
  | construct k => cases progress <;> rfl
  | token k =>
    cases progress with
    | nothing => exact ⟨.complete (.token k text pos), remaining', cursor', rfl, rfl⟩
    | opened c outer =>
      refine ⟨.opened (c.gain (.token k text pos)) outer, remaining', cursor', rfl, ?_⟩
      exact congrArg (fun a => Builder.mk remaining' cursor' a (openIds (c :: outer)) true none)
        (ofOpen_gain c outer (.token k text pos)).symm
    | complete p => rfl

/-- A construct is opened alike. -/
theorem follows_open (progress : Progress) (remaining : List Char) (cursor : Position) (kind : Kind) :
    Follows ((progress.builder remaining cursor).open kind)
      ((progress.state remaining cursor).open kind) := by
  cases kind with
  | token k => cases progress <;> rfl
  | construct k =>
    let remaining' := remaining.dropWhile Text.isBlank
    let cursor' := TreeLayout.Builder.advanceBy cursor (remaining.takeWhile Text.isBlank)
    cases progress with
    | nothing => exact ⟨.opened ⟨k, cursor', []⟩ [], remaining', cursor', rfl, rfl⟩
    | opened c outer =>
      exact ⟨.opened ⟨k, cursor', []⟩ (c :: outer), remaining', cursor', rfl, rfl⟩
    | complete p => rfl

/-- A construct is closed alike. -/
theorem follows_close (progress : Progress) (remaining : List Char) (cursor : Position) :
    Follows (progress.builder remaining cursor).close (progress.state remaining cursor).close := by
  cases progress with
  | nothing => rfl
  | complete p => rfl
  | opened c outer =>
    -- The trees are put together only now, while the rows of the arena have been there all along.
    have htree := c.toTree_close.symm
    have harena := ofOpen_close c outer
    cases outer with
    | nil =>
      exact ⟨.complete c.close, remaining, cursor,
        congrArg (fun t => State.mk remaining cursor [] (some t)) htree,
        congrArg (fun a => Builder.mk remaining cursor a [] true none) harena⟩
    | cons c' outer =>
      have hgain := harena.trans (ofOpen_gain c' outer c.close).symm
      exact ⟨.opened (c'.gain c.close) outer, remaining, cursor,
        congrArg (fun t => State.mk remaining cursor
          ({ c'.toOpen with children := t :: c'.toOpen.children } :: outer.map PlacedOpen.toOpen)
          none) htree,
        congrArg (fun a => Builder.mk remaining cursor a (openIds (c' :: outer)) true none) hgain⟩

/-- A token that is looked for is found alike. -/
theorem follows_token (progress : Progress) (remaining : List Char) (cursor : Position) (kind : Kind)
    (text : String) : Follows ((progress.builder remaining cursor).token kind text)
      ((progress.state remaining cursor).token kind text) := by
  let remaining' := remaining.dropWhile Text.isBlank
  let cursor' := TreeLayout.Builder.advanceBy cursor (remaining.takeWhile Text.isBlank)
  have hbuilder : (progress.builder remaining cursor).skipBlanks =
      progress.builder remaining' cursor' := by
    cases progress <;> rfl
  have hstate : (progress.state remaining cursor).skipBlanks = progress.state remaining' cursor' := by
    cases progress <;> rfl
  have hfault : (progress.builder remaining cursor).fault = none := by cases progress <;> rfl
  have hfail (e : TreeError) : ((progress.builder remaining' cursor').fail e).fault = some e := by
    cases progress <;> rfl
  have hleft : (progress.builder remaining' cursor').remaining = remaining' ∧
      (progress.builder remaining' cursor').pos = cursor' := by
    cases progress <;> exact ⟨rfl, rfl⟩
  have hleft' : (progress.state remaining' cursor').remaining = remaining' ∧
      (progress.state remaining' cursor').pos = cursor' := by
    cases progress <;> exact ⟨rfl, rfl⟩
  rw [Builder.token, State.token, hfault]
  simp only [hbuilder, hstate, hleft, hleft']
  cases Text.dropStart? text.toList remaining' with
  | none => exact hfail _
  | some after =>
    by_cases htext : text.isEmpty
    · simp only [htext, if_true]
      exact hfail _
    · have hmoved : { progress.state remaining' cursor' with
          remaining := after, pos := TreeLayout.Builder.advanceBy cursor' text.toList } =
          progress.state after (TreeLayout.Builder.advanceBy cursor' text.toList) := by
        cases progress <;> rfl
      simp only [htext, if_false, Bool.false_eq_true, hmoved]
      exact follows_attachToken progress remaining' after cursor' _ kind text cursor'

/-- A token at a known position is added alike. -/
theorem follows_tokenAt (progress : Progress) (remaining : List Char) (cursor : Position) (kind : Kind)
    (text : String) (pos : Position) :
    Follows ((progress.builder remaining cursor).tokenAt kind text pos)
      ((progress.state remaining cursor).tokenAt kind text pos) := by
  have hstays : (progress.builder remaining cursor).attachToken kind text pos =
      { (progress.builder remaining cursor).attachToken kind text pos with
        remaining, pos := cursor } := by
    cases kind <;> cases progress <;> rfl
  rw [tokenAt, State.tokenAt]
  split
  · cases progress <;> rfl
  · rw [hstays]
    exact follows_attachToken progress remaining remaining cursor cursor kind text pos

/-! ## Calls one after the other -/

/-- A call does the same to both builders. -/
theorem follows_step {b : Builder} {s : State} (h : Follows b (.ok s)) (call : BuildCall) :
    Follows (b.step call) (s.step call) := by
  obtain ⟨progress, remaining, pos, rfl, rfl⟩ := h
  cases call with
  | «open» kind => exact follows_open progress remaining pos kind
  | close => exact follows_close progress remaining pos
  | token kind text => exact follows_token progress remaining pos kind text
  | tokenAt kind text at_ => exact follows_tokenAt progress remaining pos kind text at_

variable {b : Builder} {e : TreeError}

/-- A further fault changes nothing. -/
theorem fault_fail (h : b.fault = some e) (e' : TreeError) : (b.fail e').fault = some e := by
  rw [fail, h]
  rfl

/-- A fault stays while nodes are added. -/
theorem fault_attach (h : b.fault = some e) (kind : Kind) (text : Option String) (pos : Position) :
    (b.attach kind text pos).1.fault = some e := by
  unfold attach
  split
  · exact h
  · exact h
  · exact fault_fail h _

/-- A fault stays while tokens are added. -/
theorem fault_attachToken (h : b.fault = some e) (kind : Kind) (text : String) (pos : Position) :
    (b.attachToken kind text pos).fault = some e := by
  cases kind with
  | token k => exact fault_attach h _ _ _
  | construct k => exact fault_fail h _

/-- A fault stays over each call. -/
theorem fault_step (h : b.fault = some e) (call : BuildCall) : (b.step call).fault = some e := by
  cases call with
  | «open» kind =>
    cases kind with
    | token k => exact fault_fail h _
    | construct k =>
      have hattach := fault_attach (b := b.skipBlanks) h k none b.skipBlanks.pos
      rw [step, Builder.open]
      split
      · rename_i hadded
        rwa [hadded] at hattach
      · rename_i hadded
        rwa [hadded] at hattach
  | close =>
    rw [step, close]
    split
    · exact fault_fail h _
    · exact h
  | token kind text => rwa [step, token, h]
  | tokenAt kind text pos =>
    rw [step, tokenAt]
    split
    · exact fault_fail h _
    · exact fault_attachToken h _ _ _

/-- Calls one after the other do the same to both builders. -/
theorem follows_foldl {s : State} (h : Follows b (.ok s)) (calls : List BuildCall) :
    Follows (calls.foldl step b) (calls.foldlM State.step s) := by
  induction calls generalizing b s with
  | nil => exact h
  | cons call calls ih =>
    have hstep := follows_step h call
    rw [List.foldl_cons, List.foldlM_cons]
    cases hcall : s.step call with
    | ok s' =>
      rw [hcall] at hstep
      exact ih hstep
    | error e =>
      rw [hcall] at hstep
      -- The other builder stops here; this one takes the calls that are left and keeps its fault.
      have hfault : (b.step call).fault = some e := hstep
      exact List.foldlRecOn (motive := fun b => b.fault = some e) calls step hfault
        fun b hb call _ => fault_step hb call

/-- Both builders have the same outcome. -/
theorem finish_eq {outcome : Except TreeError State} (h : Follows b outcome) :
    b.finish = (outcome.bind State.finish).map Tree.toArena := by
  cases outcome with
  | error e =>
    have hfault : b.fault = some e := h
    rw [finish, hfault]
    rfl
  | ok s =>
    obtain ⟨progress, remaining, cursor, rfl, rfl⟩ := h
    cases progress with
    | nothing => rfl
    | opened c outer =>
      have hlength : (openIds (c :: outer)).length = ((c :: outer).map PlacedOpen.toOpen).length := by
        rw [length_openIds, List.length_map]
      exact congrArg (fun count => Except.error (TreeError.leftOpen count)) hlength
    | complete p =>
      cases p with
      | token => rfl
      | construct kind pos children =>
        have hkind : (Arena.empty.add none (.construct kind pos children)).kind? 0 =
            some (.construct kind) := by
          rw [kind?, Placed.rows_add]
          rfl
        have hfinish : finish (Progress.builder remaining cursor (.complete (.construct kind pos children))) =
            .ok (Arena.empty.add none (.construct kind pos children)).settle := by
          simp only [finish, Progress.builder, hkind]
          rfl
        rw [hfinish, Placed.settle_add]
        change _ = ((Progress.state remaining cursor (.complete (.construct kind pos children))).finish).map _
        rw [Progress.state, Placed.toTree]
        cases Placed.toTrees children <;> rfl

end Arena.Builder

namespace Arena

/-- The arena that calls fill is that of the tree which they build, and the faults are the same. -/
theorem build_eq (source : String) (calls : List BuildCall) :
    Arena.build source calls = (TreeLayout.Builder.build source calls).map Tree.toArena :=
  Builder.finish_eq (Builder.follows_foldl ⟨.nothing, source.toList, ⟨1, 0⟩, rfl, rfl⟩ calls)

/-- A builder that is handed the nodes of a raw tree in document order, over an empty source, fills the
arena that is filled from the raw tree, row by row, if no construct without children has a position of
its own. -/
theorem build_of_toArena {raw : RawNode} {a : Arena} (hread : raw.toArena = .ok a)
    (hempty : raw.EmptyUnplaced) : Arena.build "" raw.calls = .ok a := by
  rw [RawNode.toArena_eq] at hread
  cases htree : raw.toTree with
  | error e =>
    rw [htree] at hread
    cases hread
  | ok t =>
    rw [htree] at hread
    rw [build_eq, TreeLayout.build_calls htree hempty]
    exact hread

/-- A block that says where it stands, with an empty list of modifiers that does not. -/
theorem build_of_toArena_modifiers :
    Arena.build "" (RawNode.calls ⟨ConstructKind.block, none, some 7, some 3,
      [⟨TokenKind.lBrace, some "\x7b", some 2, some 4, []⟩,
        ⟨ConstructKind.localVarDecl, none, none, none,
          [⟨ConstructKind.modifiers, none, none, none, []⟩,
            ⟨TokenKind.identifier, some "x", some 3, some 8, []⟩]⟩,
        ⟨TokenKind.rBrace, some "\x7d", some 4, some 4, []⟩]⟩) =
      .ok ⟨[⟨ConstructKind.block, none, ⟨2, 4⟩, none, [1, 2, 5], 0⟩,
        ⟨TokenKind.lBrace, some "\x7b", ⟨2, 4⟩, some 0, [], 0⟩,
        ⟨ConstructKind.localVarDecl, none, ⟨1, 0⟩, some 0, [3, 4], 1⟩,
        ⟨ConstructKind.modifiers, none, ⟨1, 0⟩, some 2, [], 0⟩,
        ⟨TokenKind.identifier, some "x", ⟨3, 8⟩, some 2, [], 1⟩,
        ⟨TokenKind.rBrace, some "\x7d", ⟨4, 4⟩, some 0, [], 2⟩]⟩ :=
  build_of_toArena (by rw [RawNode.toArena_eq]; rfl)
    (by simp [RawNode.EmptyUnplaced, RawNode.nodes, RawNode.nodesAmong, Kind.isToken])

end Arena

end TreeLayout
