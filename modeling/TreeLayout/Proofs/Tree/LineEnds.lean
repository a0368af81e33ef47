import TreeLayout.Proofs.Tree.Spelling

/-!
# Line ends between tokens

Two nodes count as being on one line if the last token of the first starts on the line on which the
second starts (`sameLine`). In a tree whose tokens were all found by the builder this says how the
source looks between them: there is no line end in the last token of the first node, and none
between that token and the first token of the second node (`sameLine_iff_of_build`). A token that
goes on over a line end counts for the line on which it starts, so two nodes without a line end
between them need not be on one line (`sameLine_false_without_lineEnd`).

The nodes of a tree in document order, constructs left out, are its tokens in the order in which the
builder reads them (`Tree.tokens_eq`), so two tokens cut the source into five parts
(`Builder.Reads.exists_between`), and lines are counted by line ends (`Builder.line_advanceBy`).
-/

namespace TreeLayout

open Text (byteSize isBlank)
open Builder (advanceBy advanceBy_append)

/-! ## Counting lines -/

namespace Builder

/-- A cursor moves down by the number of line ends that it passes. -/
theorem line_advanceBy (pos : Position) (cs : List Char) :
    (advanceBy pos cs).line = pos.line + cs.count '\n' := by
  induction cs generalizing pos with
  | nil => rfl
  | cons c cs ih =>
    have hcons : advanceBy pos (c :: cs) = advanceBy (advance pos c) cs := rfl
    rw [hcons, ih]
    unfold advance
    by_cases hc : c = '\n'
    · rw [if_pos hc, hc, List.count_cons_self, Nat.add_right_comm, Nat.add_assoc]
    · rw [if_neg hc, List.count_cons_of_ne hc]

/-- A cursor stays on its line exactly if it passes no line end. -/
theorem line_advanceBy_eq_iff (pos : Position) (cs : List Char) :
    pos.line = (advanceBy pos cs).line ↔ '\n' ∉ cs := by
  rw [line_advanceBy, ← List.count_eq_zero]
  omega

end Builder

/-! ## Text between tokens -/

/-- What a source holds from the end of one token to the start of another one: from the start of the
first token to the start of the second one there are the text of the first token and this piece. -/
def SourceText.Between (source : SourceText) (last first : Tree) (piece : List Char) : Prop :=
  ∃ start stop, source.offset? last.line last.rawColumn = some start ∧
    source.offset? first.line first.rawColumn = some stop ∧
    Text.StandsAt source.text.toList (start, stop) (last.text.toList ++ piece)

/-- There is one piece of a source between two tokens. -/
theorem SourceText.Between.unique {source : SourceText} {last first : Tree} {a b : List Char}
    (ha : source.Between last first a) (hb : source.Between last first b) : a = b := by
  obtain ⟨start, stop, hstart, hstop, ha⟩ := ha
  obtain ⟨start', stop', hstart', hstop', hb⟩ := hb
  obtain rfl : start = start' := Option.some.inj (hstart.symm.trans hstart')
  obtain rfl : stop = stop' := Option.some.inj (hstop.symm.trans hstop')
  exact List.append_cancel_left (ha.unique hb)

namespace Builder

variable {passed remaining : List Char} {before tokens : List Tree} {leaf last first : Tree}

/-- The token that is read next stands after blanks. -/
theorem Reads.exists_first (h : Reads passed remaining (leaf :: tokens)) :
    ∃ gap c chars rest, remaining = gap ++ leaf.text.toList ++ rest ∧
      leaf.pos = advanceBy ⟨1, 0⟩ (passed ++ gap) ∧ leaf.text.toList = c :: chars ∧
      isBlank c = false ∧ Reads (passed ++ gap ++ leaf.text.toList) rest tokens := by
  cases h with
  | token _ htext hc htokens => exact ⟨_, _, _, _, rfl, rfl, htext, hc, htokens⟩

/-- Behind some tokens the others are read. -/
theorem Reads.exists_after (h : Reads passed remaining (before ++ tokens)) :
    ∃ taken rest, remaining = taken ++ rest ∧ Reads (passed ++ taken) rest tokens := by
  induction before generalizing passed remaining with
  | nil => exact ⟨[], remaining, rfl, by simpa using h⟩
  | cons leaf before ih =>
    obtain ⟨gap, -, -, rest, rfl, -, -, -, hlater⟩ := h.exists_first
    obtain ⟨taken, rest', rfl, htokens⟩ := ih hlater
    refine ⟨gap ++ leaf.text.toList ++ taken, rest', by simp, ?_⟩
    simpa only [List.append_assoc] using htokens

/-- Two tokens that are read one after the other, with others around them, stand in the source with
a piece between them, and this piece and the first of the tokens lead from one to the other. -/
theorem Reads.exists_between {source : SourceText} {middle after : List Tree}
    (h : Reads [] source.text.toList (before ++ last :: (middle ++ first :: after))) :
    ∃ piece, source.Between last first piece ∧
      first.pos = advanceBy last.pos (last.text.toList ++ piece) := by
  obtain ⟨lead, rest, hlead, hlast⟩ := h.exists_after
  obtain ⟨gap, c, chars, rest, rfl, hlastPos, hc, hcBlank, hmiddle⟩ := hlast.exists_first
  obtain ⟨taken, rest, rfl, hfirst⟩ := hmiddle.exists_after
  obtain ⟨gap', d, chars', rest, rfl, hfirstPos, hd, hdBlank, -⟩ := hfirst.exists_first
  rw [List.nil_append] at hlastPos hfirstPos
  have hupto : lead ++ gap ++ last.text.toList ++ taken ++ gap' =
      lead ++ gap ++ (last.text.toList ++ (taken ++ gap')) := by simp
  have hsource : source.text.toList =
      lead ++ gap ++ (last.text.toList ++ (taken ++ gap')) ++ (first.text.toList ++ rest) := by
    rw [hlead]
    simp
  -- Each of the tokens starts with a character that is no blank, so its position is its offset.
  have hstart : source.offset? last.line last.rawColumn = some (byteSize (lead ++ gap)) := by
    have hat : source.text.toList =
        lead ++ gap ++ c :: (chars ++ (taken ++ gap') ++ (first.text.toList ++ rest)) := by
      rw [hsource, hc]
      simp
    rw [Tree.line, Tree.rawColumn, hlastPos]
    exact SourceText.offset?_advanceBy hat hcBlank
  have hstop : source.offset? first.line first.rawColumn =
      some (byteSize (lead ++ gap ++ (last.text.toList ++ (taken ++ gap')))) := by
    have hat : source.text.toList =
        lead ++ gap ++ (last.text.toList ++ (taken ++ gap')) ++ d :: (chars' ++ rest) := by
      rw [hsource, hd, List.cons_append]
    rw [Tree.line, Tree.rawColumn, hfirstPos, hupto]
    exact SourceText.offset?_advanceBy hat hdBlank
  refine ⟨taken ++ gap', ⟨_, _, hstart, hstop, _, _, hsource, rfl, rfl⟩, ?_⟩
  rw [hfirstPos, hlastPos, hupto, advanceBy_append]

end Builder

/-! ## Tokens in document order -/

namespace Focus

/-- The tokens among the nodes below several trees are their leaves that are tokens, if it is so for
each of them. -/
theorem tokens_preorderFromAmong (kind : ConstructKind) {ts : List Tree}
    (h : ∀ t ∈ ts, ∀ path, ((preorderFrom t path).map tree).filter Tree.isToken =
      t.leaves.filter Tree.isToken) (before : List Tree) (path : List Frame) :
    ((preorderFromAmong kind before ts path).map tree).filter Tree.isToken =
      (Tree.leavesAmong ts).filter Tree.isToken := by
  induction ts generalizing before with
  | nil => rfl
  | cons t ts ih =>
    rw [preorderFromAmong, Tree.leavesAmong, List.map_append, List.filter_append,
      List.filter_append, h t List.mem_cons_self,
      ih fun t' ht' => h t' (List.mem_cons_of_mem t ht')]

/-- The tokens among the nodes below a node are its leaves that are tokens. -/
theorem tokens_preorderFrom (t : Tree) (path : List Frame) :
    ((preorderFrom t path).map tree).filter Tree.isToken = t.leaves.filter Tree.isToken := by
  induction t using Tree.children_induction generalizing path with
  | token | empty => rfl
  | node kind first rest hfirst hrest =>
    have hchildren := tokens_preorderFromAmong kind
      (List.forall_mem_cons.2 ⟨hfirst, hrest⟩) [] path
    rw [preorderFrom_node, Tree.leaves_node, ← hchildren]
    rfl

end Focus

/-- The tokens of a tree are its nodes in document order, constructs left out. -/
theorem Tree.tokens_eq (t : Tree) : t.tokens = (t.foci.map Focus.tree).filter isToken :=
  (Focus.tokens_preorderFrom t []).symm

/-- A node with a smaller number than another one comes before it. -/
theorem Tree.exists_foci_split {t : Tree} {f g : Focus} (hf : f ∈ t.foci) (hg : g ∈ t.foci)
    (h : f.index < g.index) :
    ∃ before middle after, t.foci = before ++ f :: (middle ++ g :: after) := by
  have hincreasing := t.pairwise_index_foci
  obtain ⟨before, rest, hsplit⟩ := List.append_of_mem hf
  rw [hsplit] at hg hincreasing
  obtain ⟨-, -, hbefore⟩ := List.pairwise_append.1 hincreasing
  rcases List.mem_append.1 hg with hg | hg
  · have hlt := hbefore g hg f List.mem_cons_self
    omega
  · rcases List.mem_cons.1 hg with rfl | hg
    · omega
    · obtain ⟨middle, after, rfl⟩ := List.append_of_mem hg
      exact ⟨before, middle, after, hsplit⟩

/-- A token with a smaller number than another one comes before it among the tokens of a tree. -/
theorem Tree.exists_tokens_split {t : Tree} {f g : Focus} (hf : f ∈ t.foci) (hg : g ∈ t.foci)
    (hfToken : f.tree.isToken = true) (hgToken : g.tree.isToken = true) (h : f.index < g.index) :
    ∃ before middle after, t.tokens = before ++ f.tree :: (middle ++ g.tree :: after) := by
  obtain ⟨before, middle, after, hsplit⟩ := exists_foci_split hf hg h
  refine ⟨(before.map Focus.tree).filter isToken, (middle.map Focus.tree).filter isToken,
    (after.map Focus.tree).filter isToken, ?_⟩
  rw [tokens_eq, hsplit]
  simp [hfToken, hgToken]

/-! ## Nodes on one line -/

/-- When two nodes of a tree that finds its tokens in a source are on one line, the last token of
the first coming before the first token of the second: exactly if there is no line end in that last
token and none in the piece of the source between the two tokens. So they are on one line exactly if
there is no line end between them, unless the last token alone has one. -/
theorem sameLine_iff_of_build {source : String} {calls : List BuildCall}
    (hcalls : ∀ call ∈ calls, call.Seeks) {t : Tree} (h : Builder.build source calls = .ok t)
    {prev next : Focus} (hprev : prev ∈ t.foci) (hnext : next ∈ t.foci)
    (hlast : prev.rightmost.tree.isToken = true) (hfirst : next.leftmost.tree.isToken = true)
    (hbefore : prev.rightmost.index < next.leftmost.index) (tabWidth : Nat) :
    ∃ between : List Char,
      (∀ piece, (SourceText.ofString source tabWidth).Between prev.rightmost.tree
        next.leftmost.tree piece ↔ piece = between) ∧
      (sameLine prev.tree next.tree = true ↔
        '\n' ∉ prev.rightmost.tree.text.toList ∧ '\n' ∉ between) ∧
      ((sameLine prev.tree next.tree = true ↔ '\n' ∉ between) ↔
        ('\n' ∈ prev.rightmost.tree.text.toList → '\n' ∈ between)) := by
  have hlastMem : prev.rightmost ∈ t.foci :=
    Tree.mem_foci_of_root_eq hprev (Focus.root_rightmostFrom _ _)
  have hfirstMem : next.leftmost ∈ t.foci :=
    Tree.mem_foci_of_root_eq hnext (Focus.root_leftmostFrom _ _)
  obtain ⟨before, middle, after, htokens⟩ :=
    Tree.exists_tokens_split hlastMem hfirstMem hlast hfirst hbefore
  have hreads : Builder.Reads [] (SourceText.ofString source tabWidth).text.toList t.tokens :=
    Builder.reads_of_build hcalls h
  rw [htokens] at hreads
  obtain ⟨between, hbetween, hpos⟩ := hreads.exists_between
  -- The line of the second token is that of the first one, and one more for each line end.
  have hline : sameLine prev.tree next.tree = true ↔
      '\n' ∉ prev.rightmost.tree.text.toList ∧ '\n' ∉ between := by
    have hnextPos : next.tree.pos = next.leftmost.tree.pos := by
      rw [Focus.leftmost, Focus.tree_leftmostFrom, Tree.pos_leftmost]
    have hprevLast : prev.tree.rightmost = prev.rightmost.tree :=
      (Focus.tree_rightmostFrom _ _).symm
    rw [sameLine, decide_eq_true_iff, hprevLast, Tree.line, Tree.line, hnextPos, hpos,
      Builder.line_advanceBy_eq_iff, List.mem_append, not_or]
  refine ⟨between, fun piece => ⟨fun hpiece => hpiece.unique hbetween, fun hpiece => ?_⟩, hline, ?_⟩
  · rw [hpiece]
    exact hbetween
  · rw [hline]
    tauto

/-- The name and the second argument of a call over two lines, with a line end and other tokens
between them. -/
theorem sameLine_iff_of_build_call :
    sameLine (.token .identifier "f" ⟨1, 0⟩) (.token .identifier "b" ⟨2, 2⟩) = false ∧
      ∃ between, (SourceText.ofString "f(a,\n  b)" 4).Between (.token .identifier "f" ⟨1, 0⟩)
        (.token .identifier "b" ⟨2, 2⟩) between ∧ '\n' ∈ between := by
  let arguments : Tree := .node .arguments (.token .lParen "(" ⟨1, 1⟩)
    [.token .identifier "a" ⟨1, 2⟩, .token .comma "," ⟨1, 3⟩, .token .identifier "b" ⟨2, 2⟩,
      .token .rParen ")" ⟨2, 3⟩]
  let call : Tree := .node .callExpr (.token .identifier "f" ⟨1, 0⟩) [arguments]
  have hbuild : Builder.build "f(a,\n  b)"
      [.open ConstructKind.callExpr, .token TokenKind.identifier "f",
        .open ConstructKind.arguments, .token TokenKind.lParen "(", .token TokenKind.identifier "a",
        .token TokenKind.comma ",", .token TokenKind.identifier "b", .token TokenKind.rParen ")",
        .close, .close] = .ok call := rfl
  have hname : ⟨.token .identifier "f" ⟨1, 0⟩, [⟨.callExpr, [], [arguments]⟩]⟩ ∈ call.foci :=
    Tree.mem_foci_iff.2 rfl
  have hargument : ⟨.token .identifier "b" ⟨2, 2⟩,
      [⟨.arguments, [.token .comma "," ⟨1, 3⟩, .token .identifier "a" ⟨1, 2⟩,
          .token .lParen "(" ⟨1, 1⟩], [.token .rParen ")" ⟨2, 3⟩]⟩,
        ⟨.callExpr, [.token .identifier "f" ⟨1, 0⟩], []⟩]⟩ ∈ call.foci :=
    Tree.mem_foci_iff.2 rfl
  obtain ⟨between, hbetween, hline, -⟩ := sameLine_iff_of_build (by simp [BuildCall.Seeks]) hbuild
    hname hargument rfl rfl (by decide) 4
  refine ⟨rfl, between, (hbetween between).2 rfl, ?_⟩
  by_contra hnone
  have hsame := hline.2 ⟨by decide, hnone⟩
  cases hsame

/-- A literal that goes on over a line end, and the semicolon right after it: there is nothing
between the two, and they are not on one line. -/
theorem sameLine_false_without_lineEnd :
    ∃ (source : String) (calls : List BuildCall) (t : Tree) (prev next : Focus),
      (∀ call ∈ calls, call.Seeks) ∧ Builder.build source calls = .ok t ∧ prev ∈ t.foci ∧
      next ∈ t.foci ∧ prev.rightmost.tree.isToken = true ∧ next.leftmost.tree.isToken = true ∧
      prev.rightmost.index < next.leftmost.index ∧
      (SourceText.ofString source 4).Between prev.rightmost.tree next.leftmost.tree [] ∧
      sameLine prev.tree next.tree = false := by
  let literal : Tree := .token .literal "\"\"\"\nhi\"\"\"" ⟨1, 0⟩
  let semi : Tree := .token .semi ";" ⟨2, 5⟩
  refine ⟨"\"\"\"\nhi\"\"\";",
    [.open ConstructKind.exprStatement, .token TokenKind.literal "\"\"\"\nhi\"\"\"",
      .token TokenKind.semi ";", .close],
    .node .exprStatement literal [semi], ⟨literal, [⟨.exprStatement, [], [semi]⟩]⟩,
    ⟨semi, [⟨.exprStatement, [literal], []⟩]⟩, by simp [BuildCall.Seeks], rfl,
    Tree.mem_foci_iff.2 rfl, Tree.mem_foci_iff.2 rfl, rfl, rfl, by decide, ?_, rfl⟩
  have hstands : Text.StandsAt "\"\"\"\nhi\"\"\";".toList (0, 9)
      ("\"\"\"\nhi\"\"\"".toList ++ []) :=
    ⟨[], [';'], by decide, by decide, by decide⟩
  exact ⟨0, 9, rfl, rfl, hstands⟩

end TreeLayout
