import TreeLayout.Proofs.Tree.Construction

/-!
# Where built trees stand

A tree that is built by calls that look for tokens at the cursor has its leaves in the order of the
source: each ends before the next one starts (`Builder.Placed`). A token of the tree was found by
one of the calls (`Builder.exists_call_of_token`), and the text before the cursor gives the position
of the cursor (`Builder.Located`).

All of it is read off one statement about a call (`Builder.advances_of_seeks`): how far it moves the
cursor, and which leaf it adds. For a construct that is still open the leaves are counted as if it
were closed now (`Builder.held`), so an open construct without children counts as a leaf, and the
first child takes its place.
-/

namespace TreeLayout

/-! ## The order of positions -/

namespace Position

variable {a b c : Position}

/-- A position stands before another one. -/
def Lt (a b : Position) : Prop := a.line < b.line ∨ a.line = b.line ∧ a.column < b.column

/-- A position does not stand after another one. -/
def Le (a b : Position) : Prop := a.line < b.line ∨ a.line = b.line ∧ a.column ≤ b.column

instance (a b : Position) : Decidable (a.Lt b) := inferInstanceAs (Decidable (_ ∨ _))

/-- Positions are equal by line and column. -/
theorem eq_iff : a = b ↔ a.line = b.line ∧ a.column = b.column := by
  cases a
  cases b
  rw [mk.injEq]

/-- A position does not stand after itself. -/
theorem Le.refl (a : Position) : a.Le a := .inr ⟨rfl, Nat.le_refl _⟩

/-- The order of positions is transitive. -/
theorem Le.trans (hab : a.Le b) (hbc : b.Le c) : a.Le c := by
  unfold Le at *
  omega

/-- Of two positions in order the first one is on no later line. -/
theorem Le.line_le (h : a.Le b) : a.line ≤ b.line := by
  unfold Le at h
  omega

/-- A position before another one does not stand after it. -/
theorem Lt.le (h : a.Lt b) : a.Le b := by
  unfold Lt at h
  unfold Le
  omega

/-- What stands before a position stands before all that do not stand before that. -/
theorem Lt.trans_le (hab : a.Lt b) (hbc : b.Le c) : a.Lt c := by
  unfold Lt Le at *
  omega

/-- What does not stand after a position stands before all that stand after that. -/
theorem Le.trans_lt (hab : a.Le b) (hbc : b.Lt c) : a.Lt c := by
  unfold Lt Le at *
  omega

/-- A position before another one is another position. -/
theorem Lt.ne (h : a.Lt b) : a ≠ b := by
  rintro rfl
  unfold Lt at h
  omega

/-- Any two positions are in one order or in the other. -/
theorem not_lt : ¬ a.Lt b ↔ b.Le a := by
  unfold Lt Le
  omega

/-- Of two positions one stands before the other, or they are the same. -/
theorem lt_trichotomy (a b : Position) : a.Lt b ∨ a = b ∨ b.Lt a := by
  rw [eq_iff]
  unfold Lt
  omega

end Position

namespace Builder

/-- The cursor goes over a text piece by piece. -/
theorem advanceBy_append (pos : Position) (a b : List Char) :
    advanceBy pos (a ++ b) = advanceBy (advanceBy pos a) b :=
  List.foldl_append

/-- One character takes the cursor further. -/
theorem lt_advance (pos : Position) (c : Char) : pos.Lt (advance pos c) := by
  unfold advance Position.Lt
  split
  · exact .inl (Nat.lt_succ_self _)
  · exact .inr ⟨rfl, Nat.lt_succ_self _⟩

/-- No text takes the cursor back. -/
theorem le_advanceBy (pos : Position) (cs : List Char) : pos.Le (advanceBy pos cs) := by
  induction cs generalizing pos with
  | nil => exact .refl pos
  | cons c cs ih => exact (lt_advance pos c).le.trans (ih (advance pos c))

/-- A text that is not empty takes the cursor further. -/
theorem lt_advanceBy (pos : Position) {cs : List Char} (h : cs ≠ []) :
    pos.Lt (advanceBy pos cs) := by
  cases cs with
  | nil => exact absurd rfl h
  | cons c cs => exact (lt_advance pos c).trans_le (le_advanceBy (advance pos c) cs)

end Builder

/-- The position after a leaf. -/
def Tree.endPos (t : Tree) : Position := Builder.advanceBy t.pos t.text.toList

/-- A call that leaves it to the builder to find the token. -/
def BuildCall.Seeks : BuildCall → Prop
  | .open _ | .close | .token _ _ => True
  | .tokenAt _ _ _ => False

/-- A call that looks for tokens at the cursor, and for none that ends with a blank. A token that
starts with a blank is never found there. -/
def BuildCall.IsTrimmed : BuildCall → Prop
  | .open _ | .close => True
  | .token _ text => ∀ c ∈ text.toList.getLast?, Text.isBlank c = false
  | .tokenAt _ _ _ => False

/-- A call for a trimmed token leaves it to the builder to find it. -/
theorem BuildCall.IsTrimmed.seeks {call : BuildCall} (h : call.IsTrimmed) : call.Seeks := by
  cases call with
  | «open» | close | token => trivial
  | tokenAt => exact h

namespace Builder

/-! ## Leaves so far -/

/-- The leaves of the open constructs, outermost first. -/
def leavesOpen : List OpenConstruct → List Tree
  | [] => []
  | c :: cs => leavesOpen cs ++ c.toTree.leaves

/-- The leaves of the tree, as far as it is built. -/
def held (s : State) : List Tree :=
  (s.root.map Tree.leaves).getD [] ++ leavesOpen s.stack

variable {s s' : State}

/-- The leaves of the children so far are among those of the construct. -/
theorem leavesAmong_sublist_toTree (c : OpenConstruct) :
    (Tree.leavesAmong c.children.reverse).Sublist c.toTree.leaves := by
  unfold OpenConstruct.toTree
  cases c.children.reverse with
  | nil => exact List.nil_sublist _
  | cons first rest => exact List.Sublist.refl _

/-- One more child brings its leaves after those of the children so far. -/
theorem toTree_attach (c : OpenConstruct) (t : Tree) :
    (OpenConstruct.toTree { c with children := t :: c.children }).leaves =
      Tree.leavesAmong c.children.reverse ++ t.leaves := by
  have hamong : ∀ ts : List Tree, ts ≠ [] →
      (Tree.construct c.kind c.pos ts).leaves = Tree.leavesAmong ts := by
    intro ts hts
    cases ts with
    | nil => exact absurd rfl hts
    | cons first rest => rfl
  rw [OpenConstruct.toTree, List.reverse_cons, hamong _ (by simp), Tree.leavesAmong_eq_flatMap,
    Tree.leavesAmong_eq_flatMap, List.flatMap_append, List.flatMap_singleton]

/-- What is added comes after all leaves so far, in the place of an open construct at most. -/
theorem held_attach {t : Tree} (h : s.attach t = .ok s') :
    (held s').Sublist (held s ++ t.leaves) ∧ s'.remaining = s.remaining ∧ s'.pos = s.pos := by
  unfold State.attach at h
  split at h
  · rename_i c cs hstack
    cases h
    refine ⟨?_, rfl, rfl⟩
    simp only [held, hstack, leavesOpen]
    rw [toTree_attach, ← List.append_assoc, ← List.append_assoc, ← List.append_assoc]
    exact ((leavesAmong_sublist_toTree c).append_left _).append_right _
  · rename_i hstack hroot
    cases h
    refine ⟨?_, rfl, rfl⟩
    simp [held, hroot, hstack, leavesOpen]
  · cases h

/-! ## What a call does -/

/-- A call takes text off at the cursor and adds at most one leaf, which stands in that text. -/
structure Advances (s : State) (call : BuildCall) (s' : State) (taken : List Char)
    (added : Option Tree) : Prop where
  /-- The text is taken off at the cursor. -/
  text : s.remaining = taken ++ s'.remaining
  /-- The cursor moves over it. -/
  pos : s'.pos = advanceBy s.pos taken
  /-- The leaf comes after all leaves so far. -/
  held : (held s').Sublist (held s ++ added.toList)
  /-- The leaf stands between the cursor before and after the call. -/
  placed : ∀ leaf ∈ added, s.pos.Le leaf.pos ∧ leaf.endPos.Le s'.pos
  /-- Only a call for a token adds a token, at the cursor after blanks. -/
  token : ∀ leaf ∈ added, leaf.isToken = true → ∃ kind text, call = .token (.token kind) text ∧
    leaf = .token kind text s.skipBlanks.pos ∧
    s.skipBlanks.remaining = text.toList ++ s'.remaining ∧ text ≠ ""

/-- What is ahead of the cursor is blanks and then what is ahead after them. -/
theorem remaining_skipBlanks (s : State) :
    s.remaining = s.remaining.takeWhile Text.isBlank ++ s.skipBlanks.remaining :=
  List.takeWhile_append_dropWhile.symm

/-- A call that seeks its token advances over the text up to the end of it. -/
theorem advances_of_seeks {call : BuildCall} (hcall : call.Seeks) (h : s.step call = .ok s') :
    ∃ taken added, Advances s call s' taken added := by
  have hblanks := remaining_skipBlanks s
  cases call with
  | «open» kind =>
    obtain ⟨k, rfl, -, rfl⟩ := open_eq_ok h
    refine ⟨_, some (.empty k s.skipBlanks.pos), ⟨hblanks, rfl, ?_, ?_, ?_⟩⟩
    · simp [held, State.skipBlanks, leavesOpen, OpenConstruct.toTree, Tree.construct, Tree.leaves]
    · rintro leaf ⟨⟩
      exact ⟨le_advanceBy _ _, .refl _⟩
    · rintro leaf ⟨⟩ hleaf
      cases hleaf
  | close =>
    rw [State.step, State.close] at h
    split at h
    · cases h
    · rename_i c cs hstack
      obtain ⟨hheld, hremaining, hpos⟩ := held_attach h
      refine ⟨[], none, ⟨hremaining.symm, hpos, hheld.trans ?_, ?_, ?_⟩⟩
      · simp [held, hstack, leavesOpen]
      · intro leaf hleaf
        cases hleaf
      · intro leaf hleaf
        cases hleaf
  | token kind text =>
    obtain ⟨after, hafter, htext, hs⟩ := token_eq_ok h
    unfold State.attachToken at hs
    split at hs
    · rename_i k
      obtain ⟨hheld, hremaining, hpos⟩ := held_attach hs
      refine ⟨s.remaining.takeWhile Text.isBlank ++ text.toList,
        some (.token k text s.skipBlanks.pos), ⟨?_, ?_, hheld, ?_, ?_⟩⟩
      · rw [hremaining, List.append_assoc, ← hafter]
        exact hblanks
      · rw [hpos, advanceBy_append]
        rfl
      · rintro leaf ⟨⟩
        exact ⟨le_advanceBy _ _, by rw [hpos]; exact .refl _⟩
      · rintro leaf ⟨⟩ -
        exact ⟨k, text, rfl, rfl, by rw [hremaining]; exact hafter, htext⟩
    · cases hs
  | tokenAt kind text pos => cases hcall

/-- A call for a trimmed token advances over the text up to the end of it. -/
theorem advances_of_step {call : BuildCall} (hcall : call.IsTrimmed) (h : s.step call = .ok s') :
    ∃ taken added, Advances s call s' taken added :=
  advances_of_seeks hcall.seeks h

/-! ## Runs -/

/-- The leaves stand in order before the cursor. -/
structure Placed (s : State) : Prop where
  /-- Each leaf ends before the next one starts. -/
  ordered : (held s).Pairwise fun a b => a.endPos.Le b.pos
  /-- Each leaf ends before the cursor. -/
  behind : ∀ leaf ∈ held s, leaf.endPos.Le s.pos

/-- The cursor stands where the text before it ends. -/
def Located (source : List Char) (s : State) : Prop :=
  ∃ passed, source = passed ++ s.remaining ∧ s.pos = advanceBy ⟨1, 0⟩ passed

variable {call : BuildCall} {taken : List Char} {added : Option Tree}

/-- Leaves stay in order before the cursor. -/
theorem Placed.step (hs : Placed s) (h : Advances s call s' taken added) : Placed s' := by
  have hle : s.pos.Le s'.pos := by
    rw [h.pos]
    exact le_advanceBy s.pos taken
  constructor
  · refine List.Pairwise.sublist h.held ?_
    rw [List.pairwise_append]
    refine ⟨hs.ordered, ?_, fun a ha b hb => ?_⟩
    · cases added <;> simp
    · exact (hs.behind a ha).trans (h.placed b (Option.mem_toList.1 hb)).1
  · intro leaf hleaf
    rcases List.mem_append.1 (h.held.subset hleaf) with hleaf | hleaf
    · exact (hs.behind leaf hleaf).trans hle
    · exact (h.placed leaf (Option.mem_toList.1 hleaf)).2

/-- The cursor stays where the text before it ends. -/
theorem Located.step {source : List Char} (hs : Located source s)
    (h : Advances s call s' taken added) : Located source s' := by
  obtain ⟨passed, hsource, hpos⟩ := hs
  refine ⟨passed ++ taken, ?_, ?_⟩
  · rw [hsource, h.text, List.append_assoc]
  · rw [h.pos, hpos, advanceBy_append]

/-- Over blanks as well, the cursor stays where the text before it ends. -/
theorem Located.skipBlanks {source : List Char} (hs : Located source s) :
    Located source s.skipBlanks := by
  obtain ⟨passed, hsource, hpos⟩ := hs
  refine ⟨passed ++ s.remaining.takeWhile Text.isBlank, ?_, ?_⟩
  · rw [List.append_assoc, ← remaining_skipBlanks, hsource]
  · rw [advanceBy_append, ← hpos]
    rfl

/-- What every call keeps, every run keeps. -/
theorem run_invariant {motive : State → Prop} {calls : List BuildCall}
    (hcalls : ∀ call ∈ calls, call.IsTrimmed)
    (hstep : ∀ {s s' call taken added}, motive s → Advances s call s' taken added → motive s')
    (h : calls.foldlM State.step s = .ok s') (hs : motive s) : motive s' := by
  induction calls generalizing s with
  | nil =>
    cases h
    exact hs
  | cons call calls ih =>
    obtain ⟨hcall, hcalls⟩ := List.forall_mem_cons.1 hcalls
    obtain ⟨next, hnext, hrest⟩ := foldlM_cons_eq_ok h
    obtain ⟨taken, added, hadvances⟩ := advances_of_step hcall hnext
    exact ih hcalls hrest (hstep hs hadvances)

/-- A token was there before a run, or one of the calls found it at the cursor after blanks. -/
theorem exists_call_of_token {calls : List BuildCall} (hcalls : ∀ call ∈ calls, call.IsTrimmed)
    (h : calls.foldlM State.step s = .ok s') {leaf : Tree} (hleaf : leaf ∈ held s')
    (htoken : leaf.isToken = true) :
    leaf ∈ held s ∨ ∃ before after found rest, calls = before ++ after ∧
      before.foldlM State.step s = .ok found ∧ leaf.pos = found.skipBlanks.pos ∧
      leaf.text ≠ "" ∧ found.skipBlanks.remaining = leaf.text.toList ++ rest := by
  induction calls generalizing s with
  | nil =>
    cases h
    exact .inl hleaf
  | cons call calls ih =>
    obtain ⟨hcall, hcalls⟩ := List.forall_mem_cons.1 hcalls
    obtain ⟨next, hnext, hrest⟩ := foldlM_cons_eq_ok h
    obtain ⟨taken, added, hadvances⟩ := advances_of_step hcall hnext
    obtain hthere | ⟨before, after, found, rest, rfl, hbefore, hfound⟩ := ih hcalls hrest
    · rcases List.mem_append.1 (hadvances.held.subset hthere) with hthere | hnew
      · exact .inl hthere
      · obtain ⟨kind, text, rfl, rfl, htext, hne⟩ :=
          hadvances.token leaf (Option.mem_toList.1 hnew) htoken
        exact .inr ⟨[], _, s, next.remaining, rfl, rfl, rfl, hne, htext⟩
    · refine .inr ⟨call :: before, after, found, rest, rfl, ?_, hfound⟩
      rw [List.foldlM_cons, hnext]
      exact hbefore

/-! ## Complete trees -/

/-- The finished tree has the leaves that were built. -/
theorem held_of_finish {t : Tree} (h : s.finish = .ok t) : held s = t.leaves := by
  obtain ⟨hstack, hroot, -⟩ := finish_eq_ok h
  simp [held, hstack, hroot, leavesOpen]

/-- The leaves of a tree stand in the order of the source. -/
theorem leaves_ordered {source : String} {calls : List BuildCall}
    (hcalls : ∀ call ∈ calls, call.IsTrimmed) {t : Tree} (h : build source calls = .ok t) :
    t.leaves.Pairwise fun a b => a.endPos.Le b.pos := by
  obtain ⟨s, hrun, hfinish⟩ := build_eq_ok h
  have hstart : Placed (.start source) := by
    constructor <;> simp [held, State.start, leavesOpen]
  have hplaced : Placed s := run_invariant hcalls Placed.step hrun hstart
  rw [← held_of_finish hfinish]
  exact hplaced.ordered

/-- A token of a tree was found by one of the calls that built the tree. -/
theorem exists_call_of_mem_leaves {source : String} {calls : List BuildCall}
    (hcalls : ∀ call ∈ calls, call.IsTrimmed) {t : Tree} (h : build source calls = .ok t)
    {leaf : Tree} (hleaf : leaf ∈ t.leaves) (htoken : leaf.isToken = true) :
    ∃ before after found rest, calls = before ++ after ∧
      before.foldlM State.step (.start source) = .ok found ∧ Located source.toList found ∧
      leaf.pos = found.skipBlanks.pos ∧ leaf.text ≠ "" ∧
      found.skipBlanks.remaining = leaf.text.toList ++ rest := by
  obtain ⟨s, hrun, hfinish⟩ := build_eq_ok h
  rw [← held_of_finish hfinish] at hleaf
  obtain hstart | ⟨before, after, found, rest, rfl, hbefore, hfound⟩ :=
    exists_call_of_token hcalls hrun hleaf htoken
  · cases hstart
  · have hbefores : ∀ call ∈ before, call.IsTrimmed := fun call hcall =>
      hcalls call (List.mem_append_left _ hcall)
    have hlocated : Located source.toList found :=
      run_invariant hbefores Located.step hbefore ⟨[], rfl, rfl⟩
    exact ⟨before, after, found, rest, rfl, hbefore, hlocated, hfound⟩

/-- A token of a tree ends after it starts. -/
theorem lt_endPos_of_mem_leaves {source : String} {calls : List BuildCall}
    (hcalls : ∀ call ∈ calls, call.IsTrimmed) {t : Tree} (h : build source calls = .ok t)
    {leaf : Tree} (hleaf : leaf ∈ t.leaves) (htoken : leaf.isToken = true) :
    leaf.pos.Lt leaf.endPos := by
  obtain ⟨-, -, -, -, -, -, -, -, hne, -⟩ := exists_call_of_mem_leaves hcalls h hleaf htoken
  exact lt_advanceBy leaf.pos (by simpa using hne)

end Builder

end TreeLayout
