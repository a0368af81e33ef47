import TreeLayout.Proofs.Wrap.Rebuild

/-!
# Tokens in the source that they were found in

A tree whose tokens were all found by the builder spells its source: the texts of its tokens stand
in it one after another, each where the line and the column of the token say, with blanks between
them (`SourceText.Spells`, `spells_of_build`).

The builder counts lines and characters while it passes over the text, and a source text is cut into
lines. Both give the same place for a character that is no blank (`SourceText.offset?_advanceBy`),
and a token starts with such a character. What the builder passes over is blanks and tokens in turn
(`Builder.Reads`): a call passes over blanks and one token at most (`Builder.passes_of_step`), and a
run over as much as its calls do together (`Builder.passes_of_run`).
-/

namespace TreeLayout

open Text (byteSize isBlank)
open Builder (advanceBy)

/-! ## Places in a text -/

/-- A character that is no blank stands at the offset that a cursor before it shows. -/
theorem SourceText.offset?_advanceBy {source : SourceText} {passed rest : List Char} {c : Char}
    (hsource : source.text.toList = passed ++ c :: rest) (hc : isBlank c = false) :
    source.offset? (advanceBy ⟨1, 0⟩ passed).line (advanceBy ⟨1, 0⟩ passed).column =
      some (byteSize passed) := by
  obtain ⟨full, upto, last, h⟩ := Text.exists_passed passed
  obtain ⟨hstart, hline⟩ := h.lineStart?_and_line hc hsource
  rw [h.pos]
  simp only [SourceText.offset?, hstart, hline, Option.map_some]
  rw [h.append, Text.byteSize_append]

/-- Tokens spell a source from a byte on: their texts stand at ranges of bytes one after another. -/
structure SourceText.Spells (source : SourceText) (start : Nat) (tokens : List Tree)
    (ranges : List (Nat × Nat)) : Prop where
  /-- The text of a token stands at its range, which starts at the line and column of the token. -/
  text : List.Forall₂ (fun t range => source.offset? t.line t.rawColumn = some range.1 ∧
    Text.StandsAt source.text.toList range t.text.toList) tokens ranges
  /-- There are only blanks before the first token and between each two that follow each other. -/
  blanks : ((start, start) :: ranges).IsChain fun a b =>
    ∃ gap, Text.StandsAt source.text.toList (a.2, b.1) gap ∧ ∀ c ∈ gap, isBlank c = true
  /-- No token starts before the first byte. -/
  after : ∀ range ∈ ranges, start ≤ range.1
  /-- A token ends before each later one starts. -/
  apart : ranges.Pairwise fun a b => a.2 ≤ b.1
  /-- The positions of the tokens increase. -/
  increasing : tokens.Pairwise fun a b => a.pos.Lt b.pos

/-- The tokens of a tree in document order. -/
def Tree.tokens (t : Tree) : List Tree := t.leaves.filter Tree.isToken

namespace Builder

/-! ## Text that was passed over -/

/-- The text after the cursor starts with tokens, and with blanks before each of them. -/
inductive Reads : (passed remaining : List Char) → List Tree → Prop
  /-- No token is left to be found. -/
  | done (passed remaining : List Char) : Reads passed remaining []
  /-- Blanks, and a token that starts with a character that is none. -/
  | token {passed gap rest chars : List Char} {kind : TokenKind} {text : String} {c : Char}
    {tokens : List Tree} (hgap : ∀ c ∈ gap, isBlank c = true) (htext : text.toList = c :: chars)
    (hc : isBlank c = false) (htokens : Reads (passed ++ gap ++ text.toList) rest tokens) :
    Reads passed (gap ++ text.toList ++ rest)
      (.token kind text (advanceBy ⟨1, 0⟩ (passed ++ gap)) :: tokens)

variable {passed remaining gap : List Char} {tokens : List Tree}

/-- More blanks before the first token. -/
theorem Reads.blanks (hgap : ∀ c ∈ gap, isBlank c = true)
    (h : Reads (passed ++ gap) remaining tokens) : Reads passed (gap ++ remaining) tokens := by
  cases h with
  | done => exact .done passed _
  | @token _ gap' rest chars kind text c tokens hgap' htext hc htokens =>
    have hboth : ∀ c ∈ gap ++ gap', isBlank c = true := List.forall_mem_append.2 ⟨hgap, hgap'⟩
    rw [List.append_assoc passed] at htokens
    have hreads : Reads passed (gap ++ gap' ++ text.toList ++ rest)
        (.token kind text (advanceBy ⟨1, 0⟩ (passed ++ (gap ++ gap'))) :: tokens) :=
      .token hboth htext hc htokens
    simpa only [List.append_assoc] using hreads

/-- All tokens stand after the cursor. -/
theorem Reads.le_pos (h : Reads passed remaining tokens) :
    ∀ t ∈ tokens, (advanceBy ⟨1, 0⟩ passed).Le t.pos := by
  induction h with
  | done => simp
  | @token passed gap rest chars kind text c tokens _ _ _ _ ih =>
    have hstart : (advanceBy ⟨1, 0⟩ passed).Le (advanceBy ⟨1, 0⟩ (passed ++ gap)) := by
      rw [advanceBy_append]
      exact le_advanceBy _ gap
    refine List.forall_mem_cons.2 ⟨hstart, fun t ht => hstart.trans (.trans ?_ (ih t ht))⟩
    rw [advanceBy_append ⟨1, 0⟩ (passed ++ gap)]
    exact le_advanceBy _ text.toList

/-- Tokens that are read off a source from the cursor on spell it from there on. -/
theorem Reads.spells {source : SourceText} (h : Reads passed remaining tokens)
    (hsource : source.text.toList = passed ++ remaining) :
    ∃ ranges, source.Spells (byteSize passed) tokens ranges := by
  induction h with
  | done passed remaining => exact ⟨[], .nil, .singleton _, by simp, .nil, .nil⟩
  | @token passed gap rest chars kind text c tokens hgap htext hc htokens ih =>
    have hwhole : source.text.toList = passed ++ gap ++ text.toList ++ rest := by
      rw [hsource]
      simp only [List.append_assoc]
    obtain ⟨ranges, hspells⟩ := ih hwhole
    have hat : source.text.toList = passed ++ gap ++ c :: (chars ++ rest) := by
      rw [hwhole, htext]
      simp
    have hstart : byteSize passed ≤ byteSize (passed ++ gap) := by
      rw [Text.byteSize_append]
      exact Nat.le_add_right _ _
    have hend : byteSize (passed ++ gap) ≤ byteSize (passed ++ gap ++ text.toList) := by
      rw [Text.byteSize_append (passed ++ gap)]
      exact Nat.le_add_right _ _
    refine ⟨(byteSize (passed ++ gap), byteSize (passed ++ gap ++ text.toList)) :: ranges,
      .cons ⟨SourceText.offset?_advanceBy hat hc, passed ++ gap, rest, hwhole, rfl, rfl⟩
        hspells.text, ?_, ?_, ?_, ?_⟩
    · refine List.isChain_cons_cons.2 ⟨⟨gap, ⟨passed, text.toList ++ rest, ?_, rfl, rfl⟩, hgap⟩, ?_⟩
      · rw [hwhole]
        simp only [List.append_assoc]
      · -- A link says nothing of the start of its first range.
        have hblanks := hspells.blanks
        cases ranges with
        | nil => exact .singleton _
        | cons next ranges => exact List.isChain_cons_cons.2 (List.isChain_cons_cons.1 hblanks)
    · exact List.forall_mem_cons.2 ⟨hstart, fun range hrange =>
        hstart.trans (hend.trans (hspells.after range hrange))⟩
    · exact List.pairwise_cons.2 ⟨hspells.after, hspells.apart⟩
    · refine List.pairwise_cons.2 ⟨fun t ht => ?_, hspells.increasing⟩
      have hne : text.toList ≠ [] := by simp [htext]
      have hlt := lt_advanceBy (advanceBy ⟨1, 0⟩ (passed ++ gap)) hne
      rw [← advanceBy_append] at hlt
      exact hlt.trans_le (htokens.le_pos t ht)

/-! ## Calls -/

/-- The tokens of the tree, as far as it is built. -/
def heldTokens (s : State) : List Tree := (held s).filter Tree.isToken

variable {s s' : State}

/-- The tokens of a construct are those of its children. -/
theorem tokens_toTree (c : OpenConstruct) :
    c.toTree.tokens = (Tree.leavesAmong c.children.reverse).filter Tree.isToken := by
  unfold OpenConstruct.toTree
  cases c.children.reverse with
  | nil => rfl
  | cons first rest => rfl

/-- The tokens of what is added come after all tokens so far. -/
theorem heldTokens_attach {t : Tree} (h : s.attach t = .ok s') :
    heldTokens s' = heldTokens s ++ t.tokens := by
  unfold State.attach at h
  split at h
  · rename_i c cs hstack
    cases h
    have hc := tokens_toTree c
    unfold Tree.tokens at hc
    simp only [heldTokens, Tree.tokens, held, hstack, leavesOpen, toTree_attach,
      List.filter_append, hc, List.append_assoc]
  · rename_i hstack hroot
    cases h
    simp [heldTokens, Tree.tokens, held, hroot, hstack, leavesOpen]
  · cases h

/-- From one cursor to a later one: tokens are added, and what is read from the later cursor on is
read after them. -/
structure Passes (s s' : State) (taken : List Char) (added : List Tree) : Prop where
  /-- The cursor moves over text. -/
  pos : s'.pos = advanceBy s.pos taken
  /-- The tokens come after all tokens so far. -/
  tokens : heldTokens s' = heldTokens s ++ added
  /-- The text holds the tokens and blanks. -/
  reads : ∀ passed, s.pos = advanceBy ⟨1, 0⟩ passed → ∀ later,
    Reads (passed ++ taken) s'.remaining later → Reads passed s.remaining (added ++ later)

/-- From cursor to cursor, what is taken and what is added comes one after the other. -/
theorem Passes.trans {s'' : State} {taken taken' : List Char} {added added' : List Tree}
    (h : Passes s s' taken added) (h' : Passes s' s'' taken' added') :
    Passes s s'' (taken ++ taken') (added ++ added') where
  pos := by rw [h'.pos, h.pos, advanceBy_append]
  tokens := by rw [h'.tokens, h.tokens, List.append_assoc]
  reads passed hpos later hlater := by
    have hnext : s'.pos = advanceBy ⟨1, 0⟩ (passed ++ taken) := by
      rw [h.pos, hpos, advanceBy_append]
    rw [← List.append_assoc] at hlater
    rw [List.append_assoc]
    exact h.reads passed hpos _ (h'.reads _ hnext later hlater)

/-- A call passes over blanks and a token at most. -/
theorem passes_of_step {call : BuildCall} (hcall : call.Seeks) (h : s.step call = .ok s') :
    ∃ taken added, Passes s s' taken added := by
  have hblanks := remaining_skipBlanks s
  have hgap : ∀ c ∈ s.remaining.takeWhile isBlank, isBlank c = true := fun c hc =>
    List.mem_takeWhile_imp hc
  cases call with
  | «open» kind =>
    obtain ⟨k, rfl, -, rfl⟩ := open_eq_ok h
    refine ⟨s.remaining.takeWhile isBlank, [], rfl, ?_, fun passed _ later hlater => ?_⟩
    · simp [heldTokens, held, State.skipBlanks, leavesOpen, OpenConstruct.toTree, Tree.construct,
        Tree.leaves, Tree.isToken]
    · rw [hblanks]
      exact hlater.blanks hgap
  | close =>
    rw [State.step, State.close] at h
    split at h
    · cases h
    · rename_i c cs hstack
      obtain ⟨-, hremaining, hpos⟩ := held_attach h
      refine ⟨[], [], hpos, ?_, fun passed _ later hlater => ?_⟩
      · rw [heldTokens_attach h]
        simp [heldTokens, Tree.tokens, held, hstack, leavesOpen]
      · rw [List.append_nil, hremaining] at hlater
        exact hlater
  | token kind text =>
    obtain ⟨after, hafter, htext, hs⟩ := token_eq_ok h
    unfold State.attachToken at hs
    split at hs
    · rename_i k
      obtain ⟨-, hremaining, hpos⟩ := held_attach hs
      obtain ⟨c, chars, hchars⟩ := List.exists_cons_of_ne_nil (mt String.toList_eq_nil_iff.1 htext)
      have hfound : s.remaining.dropWhile isBlank = c :: (chars ++ after) := by
        rw [← List.cons_append, ← hchars]
        exact hafter
      have hc : isBlank c = false := Text.isBlank_of_mem_head?_dropWhile (by rw [hfound]; rfl)
      refine ⟨s.remaining.takeWhile isBlank ++ text.toList, [.token k text s.skipBlanks.pos], ?_,
        heldTokens_attach hs, fun passed hpassed later hlater => ?_⟩
      · rw [hpos, advanceBy_append]
        rfl
      · rw [hremaining, ← List.append_assoc] at hlater
        have hstart : s.skipBlanks.pos =
            advanceBy ⟨1, 0⟩ (passed ++ s.remaining.takeWhile isBlank) := by
          rw [advanceBy_append, ← hpassed]
          rfl
        rw [hblanks, hafter, ← List.append_assoc, hstart]
        exact .token hgap hchars hc hlater
    · cases hs
  | tokenAt kind text pos => cases hcall

/-- A run passes over blanks and tokens. -/
theorem passes_of_run {calls : List BuildCall} (hcalls : ∀ call ∈ calls, call.Seeks)
    (h : calls.foldlM State.step s = .ok s') : ∃ taken added, Passes s s' taken added := by
  induction calls generalizing s with
  | nil =>
    cases h
    refine ⟨[], [], rfl, (List.append_nil _).symm, fun passed _ later hlater => ?_⟩
    rw [List.append_nil] at hlater
    exact hlater
  | cons call calls ih =>
    obtain ⟨hcall, hcalls⟩ := List.forall_mem_cons.1 hcalls
    obtain ⟨next, hnext, hrest⟩ := foldlM_cons_eq_ok h
    obtain ⟨taken, added, hstep⟩ := passes_of_step hcall hnext
    obtain ⟨taken', added', hrun⟩ := ih hcalls hrest
    exact ⟨_, _, hstep.trans hrun⟩

/-- The tokens of a tree that is built against a source are read off the source from its start. -/
theorem reads_of_build {source : String} {calls : List BuildCall}
    (hcalls : ∀ call ∈ calls, call.Seeks) {t : Tree} (h : build source calls = .ok t) :
    Reads [] source.toList t.tokens := by
  obtain ⟨s, hrun, hfinish⟩ := build_eq_ok h
  obtain ⟨taken, added, hpasses⟩ := passes_of_run hcalls hrun
  have htokens : t.tokens = added := by
    rw [Tree.tokens, ← held_of_finish hfinish]
    exact hpasses.tokens
  have hreads := hpasses.reads [] rfl [] (.done _ _)
  rw [List.append_nil] at hreads
  rw [htokens]
  exact hreads

end Builder

/-- The tokens of a tree that finds all of them in its source stand there one after another, each at
its line and column, with nothing but blanks before the first one and between them. -/
theorem spells_of_build {source : String} {calls : List BuildCall}
    (hcalls : ∀ call ∈ calls, call.Seeks) {t : Tree} (h : Builder.build source calls = .ok t)
    (tabWidth : Nat) :
    ∃ ranges, (SourceText.ofString source tabWidth).Spells 0 t.tokens ranges :=
  (Builder.reads_of_build hcalls h).spells rfl

/-- A name of two bytes, a tab and carriage returns, and a literal that goes on over a line end and
takes the blank after it along. -/
theorem spells_of_build_literal :
    ∃ ranges, (SourceText.ofString "é\t=\r\n\"a\r\n b\" \r;" 4).Spells 0
      [.token .identifier "é" ⟨1, 0⟩, .token .assign "=" ⟨1, 2⟩,
        .token .literal "\"a\r\n b\" " ⟨2, 0⟩, .token .semi ";" ⟨3, 5⟩] ranges := by
  have hbuild : Builder.build "é\t=\r\n\"a\r\n b\" \r;"
      [.open ConstructKind.exprStatement, .token TokenKind.identifier "é",
        .token TokenKind.assign "=", .token TokenKind.literal "\"a\r\n b\" ",
        .token TokenKind.semi ";", .close] =
      .ok (.node .exprStatement (.token .identifier "é" ⟨1, 0⟩) [.token .assign "=" ⟨1, 2⟩,
        .token .literal "\"a\r\n b\" " ⟨2, 0⟩, .token .semi ";" ⟨3, 5⟩]) := by
    rfl
  exact spells_of_build (by simp [BuildCall.Seeks]) hbuild 4

end TreeLayout
