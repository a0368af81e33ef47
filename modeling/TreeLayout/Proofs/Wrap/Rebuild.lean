import TreeLayout.Proofs.Tree.Moved
import TreeLayout.Proofs.Tree.Placement
import TreeLayout.Proofs.Wrap.Edit

/-!
# Building the tree again after a line is ended

The calls that build a tree are made again after the line is ended before one of the tokens. They
all succeed, and the tree is the old one with its leaves at other positions
(`Builder.build_lineEnd`): those before the token stay, those on its line go to the new line, and
all others go one line down (`LineEnd.push`).

Both builders take the same calls. Until the cursor comes to the token, the text before it is the
same in both, and a token that is found there ends before the gap, since it does not end with a
blank. From then on the text after the cursor is the same in both (`Builder.Cursor`).
-/

namespace TreeLayout

open Text (isGap isBlank)
open Builder (advance advanceBy)

/-- Blanks are skipped up to a character that is none. -/
theorem Text.isBlank_of_mem_head?_dropWhile {c : Char} {cs : List Char}
    (h : c ∈ (cs.dropWhile isBlank).head?) : isBlank c = false := by
  have hstop := List.head?_dropWhile_not isBlank cs
  rw [Option.mem_def.1 h] at hstop
  simpa using hstop

/-- The line is ended at a place: spaces and tabs before it give way to a line end and spaces. -/
structure LineEnd where
  /-- Where the text after the gap stands. -/
  place : Position
  /-- The columns that it is indented by. -/
  indent : Nat
  /-- The blanks before it. -/
  gap : List Char
  /-- The text from the place on. -/
  rest : List Char
  /-- The blanks stand on one line. -/
  isGap_gap : ∀ c ∈ gap, isGap c = true
  /-- The text from the place on starts with no blank. -/
  isBlank_rest : ∀ c ∈ rest.head?, isBlank c = false

namespace LineEnd

variable (e : LineEnd) {x : Position}

/-- What is put before the place. -/
def inserted : List Char := '\n' :: Column.spaces e.indent

/-- Where a position goes. -/
def push (x : Position) : Position :=
  if x.Lt e.place then x
  else if x.line = e.place.line then ⟨x.line + 1, x.column - e.place.column + e.indent⟩
  else ⟨x.line + 1, x.column⟩

/-- What stands before the edit stays. -/
theorem push_of_lt (h : x.Lt e.place) : e.push x = x := if_pos h

/-- The token at the edit starts the next line, at the indentation. -/
theorem push_place : e.push e.place = ⟨e.place.line + 1, e.indent⟩ := by
  have hlt : ¬ e.place.Lt e.place := Position.not_lt.2 (.refl _)
  simp [push, hlt]

/-- What stands after the edit comes one line lower, and on the line of the edit moves left with its
token. -/
theorem push_of_le (h : e.place.Le x) :
    e.push x = if x.line = e.place.line then ⟨x.line + 1, x.column - e.place.column + e.indent⟩
      else ⟨x.line + 1, x.column⟩ :=
  if_neg (Position.not_lt.2 h)

/-- Nothing else goes where the place goes. -/
theorem eq_place_of_push (h : e.push x = e.push e.place) : x = e.place := by
  rw [e.push_place] at h
  by_cases hlt : x.Lt e.place
  · rw [e.push_of_lt hlt] at h
    rw [h] at hlt
    unfold Position.Lt at hlt
    simp only at hlt
    omega
  · have hle := Position.not_lt.1 hlt
    rw [e.push_of_le hle] at h
    unfold Position.Le at hle
    rw [Position.eq_iff]
    split at h
    · rw [Position.mk.injEq] at h
      omega
    · rw [Position.mk.injEq] at h
      omega

/-- From the place on, positions go where the cursor goes. -/
theorem advance_push (h : e.place.Le x) (c : Char) :
    advance (e.push x) c = e.push (advance x c) := by
  have hnext := h.trans (Builder.lt_advance x c).le
  rw [e.push_of_le h, e.push_of_le hnext]
  unfold Position.Le at h
  unfold advance
  split
  · -- A line end leads off the line of the place.
    split
    · simp [*]
    · have hline : x.line + 1 ≠ e.place.line := by omega
      simp [hline]
  · split
    · rename_i hline
      have hcolumn : x.column - e.place.column + e.indent + 1 =
          x.column + 1 - e.place.column + e.indent := by omega
      simp [hline, hcolumn]
    · simp [*]

/-- After the edit the cursor goes over a text as before, at the pushed position. -/
theorem advanceBy_push (h : e.place.Le x) (cs : List Char) :
    advanceBy (e.push x) cs = e.push (advanceBy x cs) := by
  induction cs generalizing x with
  | nil => rfl
  | cons c cs ih =>
    have hnext := ih (h.trans (Builder.lt_advance x c).le)
    rw [← e.advance_push h] at hnext
    exact hnext

end LineEnd

namespace Builder

/-- A gap within a line does not end it. -/
theorem line_advanceBy_gap {gap : List Char} (h : ∀ c ∈ gap, isGap c = true) (x : Position) :
    (advanceBy x gap).line = x.line := by
  induction gap generalizing x with
  | nil => rfl
  | cons c gap ih =>
    obtain ⟨hc, hgap⟩ := List.forall_mem_cons.1 h
    have hne : c ≠ '\n' := by
      rintro rfl
      cases hc
    have hadvance : advanceBy x (c :: gap) = advanceBy ⟨x.line, x.column + 1⟩ gap := by
      rw [advanceBy, List.foldl_cons, advance, if_neg hne]
      rfl
    rw [hadvance, ih hgap]

/-- Spaces take the cursor to the right. -/
theorem advanceBy_spaces (x : Position) (n : Nat) :
    advanceBy x (Column.spaces n) = ⟨x.line, x.column + n⟩ := by
  induction n generalizing x with
  | zero => rfl
  | succ n ih =>
    have hadvance : advanceBy x (Column.spaces (n + 1)) =
        advanceBy ⟨x.line, x.column + 1⟩ (Column.spaces n) := rfl
    rw [hadvance, ih]
    simp only [Position.mk.injEq, true_and]
    omega

variable {e : LineEnd}

/-- After the inserted text the cursor stands where the place goes. -/
theorem advanceBy_inserted {x : Position} {text : List Char}
    (h : advanceBy x (text ++ e.gap) = e.place) :
    advanceBy x (text ++ e.inserted) = e.push e.place := by
  rw [advanceBy_append] at h
  have hline := line_advanceBy_gap e.isGap_gap (advanceBy x text)
  rw [h] at hline
  have hnewline : advanceBy (advanceBy x text) e.inserted =
      advanceBy ⟨(advanceBy x text).line + 1, 0⟩ (Column.spaces e.indent) := rfl
  rw [advanceBy_append, hnewline, advanceBy_spaces, e.push_place, hline, Nat.zero_add]

/-! ## Cursors -/

/-- The cursors in both texts: before the place there is the same text in front of them, and from
the place on the same text after them. -/
inductive Cursor (e : LineEnd) : (remaining : List Char) → (pos : Position) →
    (remaining' : List Char) → (pos' : Position) → Prop
  /-- The cursors did not pass the place. -/
  | before {pos : Position} (text : List Char) (h : advanceBy pos (text ++ e.gap) = e.place) :
    Cursor e (text ++ e.gap ++ e.rest) pos (text ++ e.inserted ++ e.rest) pos
  /-- The cursors are at the place or after it. -/
  | after {pos : Position} (remaining : List Char) (h : e.place.Le pos) :
    Cursor e remaining pos remaining (e.push pos)

/-- The blanks before a text are skipped, and no more. -/
theorem skipBlanks_of_append {s : State} {blanks text : List Char}
    (hs : s.remaining = blanks ++ text) (hblanks : ∀ c ∈ blanks, isBlank c = true)
    (htext : ∀ c ∈ text.head?, isBlank c = false) :
    s.skipBlanks.remaining = text ∧ s.skipBlanks.pos = advanceBy s.pos blanks := by
  have hstop : text.takeWhile isBlank = [] ∧ text.dropWhile isBlank = text := by
    cases text with
    | nil => exact ⟨rfl, rfl⟩
    | cons c text => simp [htext c rfl]
  constructor
  · rw [State.skipBlanks, hs, List.dropWhile_append_of_pos hblanks, hstop.2]
  · rw [State.skipBlanks, hs, List.takeWhile_append_of_pos hblanks, hstop.1, List.append_nil]

/-- Blanks are skipped up to the same character, which stands before the place, or up to the place
or beyond. -/
theorem Cursor.skipBlanks {s s' : State} (h : Cursor e s.remaining s.pos s'.remaining s'.pos) :
    (∃ c text, advanceBy s.skipBlanks.pos (c :: text ++ e.gap) = e.place ∧
        s.skipBlanks.remaining = c :: text ++ e.gap ++ e.rest ∧
        s'.skipBlanks.remaining = c :: text ++ e.inserted ++ e.rest ∧
        s'.skipBlanks.pos = s.skipBlanks.pos) ∨
      e.place.Le s.skipBlanks.pos ∧ s'.skipBlanks.remaining = s.skipBlanks.remaining ∧
        s'.skipBlanks.pos = e.push s.skipBlanks.pos := by
  generalize hremaining : s.remaining = remaining at h
  generalize hremaining' : s'.remaining = remaining' at h
  generalize hpos : s.pos = pos at h
  generalize hpos' : s'.pos = pos' at h
  cases h with
  | before text hplace =>
    obtain ⟨blanks, kept, htext, hblanks, hkept⟩ : ∃ blanks kept, text = blanks ++ kept ∧
        (∀ c ∈ blanks, isBlank c = true) ∧ ∀ c ∈ kept.head?, isBlank c = false := by
      refine ⟨text.takeWhile isBlank, text.dropWhile isBlank,
        List.takeWhile_append_dropWhile.symm, List.all_eq_true.1 List.all_takeWhile, ?_⟩
      exact fun c hc => Text.isBlank_of_mem_head?_dropWhile hc
    subst htext
    cases kept with
    | nil =>
      -- Only blanks are left before the place.
      have hgap : ∀ c ∈ blanks ++ e.gap, isBlank c = true := by
        simp only [List.mem_append]
        rintro c (hc | hc)
        · exact hblanks c hc
        · exact Text.isBlank_of_isGap (e.isGap_gap c hc)
      have hinserted : ∀ c ∈ blanks ++ e.inserted, isBlank c = true := by
        simp only [List.mem_append, LineEnd.inserted, List.mem_cons, Column.spaces,
          List.mem_replicate]
        rintro c (hc | rfl | ⟨-, rfl⟩)
        · exact hblanks c hc
        · rfl
        · rfl
      rw [List.append_nil] at hremaining hremaining' hplace
      obtain ⟨hrest, hthere⟩ := skipBlanks_of_append hremaining hgap e.isBlank_rest
      obtain ⟨hrest', hthere'⟩ := skipBlanks_of_append hremaining' hinserted e.isBlank_rest
      rw [hpos, hplace] at hthere
      rw [hpos', advanceBy_inserted hplace] at hthere'
      exact .inr ⟨hthere ▸ .refl _, hrest'.trans hrest.symm, hthere'.trans (by rw [hthere])⟩
    | cons c kept =>
      rw [List.append_assoc, List.append_assoc] at hremaining hremaining'
      obtain ⟨hrest, hthere⟩ := skipBlanks_of_append hremaining hblanks hkept
      obtain ⟨hrest', hthere'⟩ := skipBlanks_of_append hremaining' hblanks hkept
      rw [hpos] at hthere
      rw [hpos', ← hthere] at hthere'
      refine .inl ⟨c, kept, ?_, ?_, ?_, hthere'⟩
      · rw [hthere, ← advanceBy_append, ← List.append_assoc, hplace]
      · rw [hrest, List.append_assoc]
      · rw [hrest', List.append_assoc]
  | after remaining hle =>
    refine .inr ⟨?_, ?_, ?_⟩
    · rw [State.skipBlanks, hpos]
      exact hle.trans (le_advanceBy _ _)
    · rw [State.skipBlanks, State.skipBlanks, hremaining, hremaining']
    · rw [State.skipBlanks, State.skipBlanks, hremaining, hremaining', hpos, hpos',
        e.advanceBy_push hle]

/-- Where blanks are skipped to goes where the place says. -/
theorem Cursor.pos_skipBlanks {s s' : State}
    (h : Cursor e s.remaining s.pos s'.remaining s'.pos) :
    s'.skipBlanks.pos = e.push s.skipBlanks.pos := by
  obtain ⟨c, text, hplace, -, -, hpos⟩ | ⟨-, -, hpos⟩ := h.skipBlanks
  · rw [hpos, e.push_of_lt]
    rw [← hplace]
    exact lt_advanceBy _ (List.cons_ne_nil _ _)
  · exact hpos

/-! ## Trees under construction -/

/-- An open construct with its leaves at other positions. -/
def OpenConstruct.mapPos (σ : Position → Position) (c : OpenConstruct) : OpenConstruct :=
  ⟨c.kind, σ c.pos, c.children.map (Tree.mapPos σ)⟩

/-- An open construct with its leaves moved gives the tree with its leaves moved. -/
theorem OpenConstruct.toTree_mapPos (σ : Position → Position) (c : OpenConstruct) :
    (c.mapPos σ).toTree = c.toTree.mapPos σ := by
  simp only [toTree, mapPos, ← List.map_reverse]
  cases c.children.reverse <;> simp [Tree.construct]

/-- Two trees under construction are the same apart from the positions of their leaves. -/
structure Mirrors (σ : Position → Position) (s s' : State) : Prop where
  /-- The open constructs are the same. -/
  stack : s'.stack = s.stack.map (OpenConstruct.mapPos σ)
  /-- The outermost nodes are the same. -/
  root : s'.root = s.root.map (Tree.mapPos σ)

variable {σ : Position → Position} {s s' u : State}

/-- One more subtree, moved, is attached to the mirrored state. -/
theorem Mirrors.attach (h : Mirrors σ s s') {t : Tree} (hs : s.attach t = .ok u) :
    ∃ u', s'.attach (t.mapPos σ) = .ok u' ∧ Mirrors σ u u' ∧
      (u'.remaining = s'.remaining ∧ u'.pos = s'.pos) := by
  unfold State.attach at hs
  split at hs
  · rename_i c cs hstack
    cases hs
    have hattach : s'.attach (t.mapPos σ) = .ok { s' with
        stack := ⟨c.kind, σ c.pos, t.mapPos σ :: c.children.map (Tree.mapPos σ)⟩ ::
          cs.map (OpenConstruct.mapPos σ) } := by
      rw [State.attach, h.stack, hstack]
      rfl
    exact ⟨_, hattach, ⟨rfl, h.root⟩, rfl, rfl⟩
  · rename_i hstack hroot
    cases hs
    have hattach : s'.attach (t.mapPos σ) = .ok { s' with root := some (t.mapPos σ) } := by
      rw [State.attach, h.stack, hstack, h.root, hroot]
      rfl
    exact ⟨_, hattach, ⟨h.stack, rfl⟩, rfl, rfl⟩
  · cases hs

/-- The mirrored state gives the tree with its leaves moved. -/
theorem Mirrors.finish (h : Mirrors σ s s') {t : Tree} (ht : s.finish = .ok t) :
    s'.finish = .ok (t.mapPos σ) := by
  obtain ⟨hstack, hroot, htoken⟩ := finish_eq_ok ht
  unfold State.finish
  rw [h.stack, hstack, h.root, hroot]
  cases t with
  | token => cases htoken
  | empty | node => simp

/-- The two builders, one on the old text and one on the new one. -/
structure Rebuilds (e : LineEnd) (s s' : State) : Prop where
  /-- The trees are the same apart from positions. -/
  mirrors : Mirrors e.push s s'
  /-- The cursors stand at the same character. -/
  cursor : Cursor e s.remaining s.pos s'.remaining s'.pos

/-- A construct is opened unless the outermost node is complete. -/
theorem open_of_root {k : ConstructKind} (h : s.stack = [] → s.root = none) :
    s.open (.construct k) =
      .ok { s.skipBlanks with stack := ⟨k, s.skipBlanks.pos, []⟩ :: s.stack } := by
  simp only [State.open]
  split
  · rename_i t hstack hroot
    have hnone := h hstack
    simp only [State.skipBlanks] at hroot
    rw [hnone] at hroot
    cases hroot
  · rfl

/-- A token that stands at the cursor after blanks is found. -/
theorem token_of_append {kind : Kind} {text : String} {after : List Char}
    (h : s.skipBlanks.remaining = text.toList ++ after) (htext : text ≠ "") :
    s.token kind text = State.attachToken { s.skipBlanks with
      remaining := after, pos := advanceBy s.skipBlanks.pos text.toList } kind text
        s.skipBlanks.pos := by
  have hdrop : ∀ p : List Char, Text.dropStart? p (p ++ after) = some after := by
    intro p
    induction p with
    | nil => cases after <;> rfl
    | cons c p ih => rw [List.cons_append, Text.dropStart?, if_pos rfl, ih]
  have hempty : text.isEmpty = false := by simpa using htext
  simp only [State.token]
  rw [h, hdrop]
  simp [hempty]

/-- A token before the gap ends before the gap. -/
theorem exists_append_of_trimmed {text before after gap : List Char}
    (hgap : ∀ c ∈ gap, isGap c = true) (htext : ∀ c ∈ text.getLast?, isBlank c = false)
    (h : text ++ after = before ++ gap) : ∃ m, before = text ++ m ∧ after = m ++ gap := by
  rcases List.append_eq_append_iff.1 h with ⟨m, hbefore, hafter⟩ | ⟨m, rfl, rfl⟩
  · exact ⟨m, hbefore, hafter⟩
  · cases hm : m.getLast? with
    | none =>
      obtain rfl := List.getLast?_eq_none_iff.1 hm
      exact ⟨[], by simp, by simp⟩
    | some c =>
      have hblank := htext c (by simp [hm])
      have hmem := List.mem_of_getLast? hm
      rw [Text.isBlank_of_isGap (hgap c (List.mem_append_left _ hmem))] at hblank
      cases hblank

/-- The cursors after a token that was found before the place, or from the place on. -/
theorem Cursor.token (h : Cursor e s.remaining s.pos s'.remaining s'.pos) {text : String}
    (htext : ∀ c ∈ text.toList.getLast?, isBlank c = false) {after : List Char}
    (hafter : s.skipBlanks.remaining = text.toList ++ after)
    (hsafe : e.rest <:+ after ∨ e.place.Le s.skipBlanks.pos) :
    ∃ after', s'.skipBlanks.remaining = text.toList ++ after' ∧
      Cursor e after (advanceBy s.skipBlanks.pos text.toList) after'
        (advanceBy s'.skipBlanks.pos text.toList) := by
  obtain ⟨c, kept, hplace, hrest, hrest', hpos⟩ | ⟨hle, hrest, hpos⟩ := h.skipBlanks
  · obtain ⟨between, rfl⟩ : e.rest <:+ after := by
      refine hsafe.resolve_right fun hle => ?_
      have hne : c :: kept ++ e.gap ≠ [] := List.cons_ne_nil _ _
      have hlt := lt_advanceBy s.skipBlanks.pos hne
      rw [hplace] at hlt
      exact Position.not_lt.2 hle hlt
    -- The token and what is left before the place are the text before the gap and the gap.
    have hsplit : text.toList ++ between = c :: kept ++ e.gap := by
      rw [hrest, ← List.append_assoc] at hafter
      exact (List.append_cancel_right hafter).symm
    obtain ⟨m, hkept, rfl⟩ := exists_append_of_trimmed e.isGap_gap htext hsplit
    rw [hkept] at hrest' hplace
    refine ⟨m ++ e.inserted ++ e.rest, by simpa using hrest', ?_⟩
    rw [hpos]
    refine .before m ?_
    rw [← advanceBy_append, ← List.append_assoc, hplace]
  · refine ⟨after, hrest.trans hafter, ?_⟩
    rw [hpos, e.advanceBy_push hle]
    exact .after after (hle.trans (le_advanceBy _ _))

/-- Cursors after blanks. -/
theorem Cursor.blanks (h : Cursor e s.remaining s.pos s'.remaining s'.pos) :
    Cursor e s.skipBlanks.remaining s.skipBlanks.pos s'.skipBlanks.remaining
      s'.skipBlanks.pos := by
  obtain ⟨c, kept, hplace, hrest, hrest', hpos⟩ | ⟨hle, hrest, hpos⟩ := h.skipBlanks
  · rw [hrest, hrest', hpos]
    exact .before (c :: kept) hplace
  · rw [hrest, hpos]
    exact .after _ hle

/-- A call that succeeds on the old text succeeds on the new one. -/
theorem Rebuilds.step (h : Rebuilds e s s') {call : BuildCall} (hcall : call.IsTrimmed)
    (hs : s.step call = .ok u) (hsafe : e.rest <:+ u.remaining ∨ e.place.Le s.skipBlanks.pos) :
    ∃ u', s'.step call = .ok u' ∧ Rebuilds e u u' := by
  cases call with
  | «open» kind =>
    obtain ⟨k, rfl, hroot, rfl⟩ := open_eq_ok hs
    have hopen : s'.step (.open (.construct k)) =
        .ok { s'.skipBlanks with stack := ⟨k, s'.skipBlanks.pos, []⟩ :: s'.stack } := by
      refine open_of_root fun hstack => ?_
      rw [h.mirrors.stack, List.map_eq_nil_iff] at hstack
      rw [h.mirrors.root, hroot hstack, Option.map_none]
    refine ⟨_, hopen, ⟨⟨?_, h.mirrors.root⟩, h.cursor.blanks⟩⟩
    rw [List.map_cons, OpenConstruct.mapPos, h.mirrors.stack, h.cursor.pos_skipBlanks]
    rfl
  | close =>
    rw [State.step, State.close] at hs ⊢
    split at hs
    · cases hs
    · rename_i c cs hstack
      have hpop : Mirrors e.push { s with stack := cs }
          { s' with stack := cs.map (OpenConstruct.mapPos e.push) } := ⟨rfl, h.mirrors.root⟩
      obtain ⟨u', hu', hmirrors, hremaining, hpos⟩ := hpop.attach hs
      obtain ⟨-, hremaining', hpos'⟩ := held_attach hs
      refine ⟨u', ?_, hmirrors, ?_⟩
      · rw [h.mirrors.stack, hstack, List.map_cons]
        simp only [OpenConstruct.toTree_mapPos]
        exact hu'
      · rw [hremaining, hpos, hremaining', hpos']
        exact h.cursor
  | token kind text =>
    obtain ⟨after, hafter, htext, hs⟩ := token_eq_ok hs
    unfold State.attachToken at hs
    split at hs
    · rename_i k
      obtain ⟨-, hremaining, hpos⟩ := held_attach hs
      rw [hremaining] at hsafe
      obtain ⟨after', hafter', hcursor⟩ := h.cursor.token hcall hafter hsafe
      have hmoved : Mirrors e.push
          { s.skipBlanks with remaining := after, pos := advanceBy s.skipBlanks.pos text.toList }
          { s'.skipBlanks with
            remaining := after', pos := advanceBy s'.skipBlanks.pos text.toList } :=
        ⟨h.mirrors.stack, h.mirrors.root⟩
      obtain ⟨u', hu', hmirrors, hremaining', hpos'⟩ := hmoved.attach hs
      refine ⟨u', ?_, hmirrors, ?_⟩
      · rw [Tree.mapPos_token, ← h.cursor.pos_skipBlanks] at hu'
        rw [State.step, token_of_append hafter' htext, State.attachToken]
        exact hu'
      · rw [hremaining, hpos, hremaining', hpos']
        exact hcursor
    · cases hs
  | tokenAt kind text pos => cases hcall

/-! ## Runs -/

/-- What is left of the text gets shorter from the front. -/
theorem remaining_suffix_of_run {calls : List BuildCall} (hcalls : ∀ call ∈ calls, call.IsTrimmed)
    (h : calls.foldlM State.step s = .ok u) : u.remaining <:+ s.remaining := by
  refine run_invariant (motive := fun v => v.remaining <:+ s.remaining) hcalls ?_ h
    (List.suffix_refl _)
  intro v v' call taken added hv hadvances
  exact List.IsSuffix.trans ⟨taken, hadvances.text.symm⟩ hv

/-- A call moves the cursor only forward, also if blanks are skipped before and after it. -/
theorem pos_skipBlanks_le {call : BuildCall} (hcall : call.IsTrimmed) (h : s.step call = .ok u) :
    s.skipBlanks.pos.Le u.skipBlanks.pos := by
  have hskip : u.pos.Le u.skipBlanks.pos := le_advanceBy _ _
  cases call with
  | «open» kind =>
    obtain ⟨k, -, -, rfl⟩ := open_eq_ok h
    exact hskip
  | close =>
    rw [State.step, State.close] at h
    split at h
    · cases h
    · obtain ⟨-, hremaining, hpos⟩ := held_attach h
      rw [State.skipBlanks, State.skipBlanks, hremaining, hpos]
      exact .refl _
  | token kind text =>
    obtain ⟨after, -, -, hs⟩ := token_eq_ok h
    unfold State.attachToken at hs
    split at hs
    · obtain ⟨-, -, hpos⟩ := held_attach hs
      rw [hpos] at hskip
      exact (le_advanceBy _ _).trans hskip
    · cases hs
  | tokenAt kind text pos => cases hcall

/-- Calls that succeed on the old text succeed on the new one, up to the place and from it on. -/
theorem Rebuilds.run {calls : List BuildCall} (hcalls : ∀ call ∈ calls, call.IsTrimmed)
    (h : Rebuilds e s s') (hs : calls.foldlM State.step s = .ok u)
    (hsafe : e.rest <:+ u.remaining ∨ e.place.Le s.skipBlanks.pos) :
    ∃ u', calls.foldlM State.step s' = .ok u' ∧ Rebuilds e u u' := by
  induction calls generalizing s s' with
  | nil =>
    cases hs
    exact ⟨s', rfl, h⟩
  | cons call calls ih =>
    obtain ⟨hcall, hcalls⟩ := List.forall_mem_cons.1 hcalls
    obtain ⟨next, hnext, hlater⟩ := foldlM_cons_eq_ok hs
    obtain ⟨next', hnext', h'⟩ := h.step hcall hnext
      (hsafe.imp_left fun hrest => hrest.trans (remaining_suffix_of_run hcalls hlater))
    obtain ⟨u', hu', hrebuilds⟩ := ih hcalls h' hlater
      (hsafe.imp_right fun hplace => hplace.trans (pos_skipBlanks_le hcall hnext))
    refine ⟨u', ?_, hrebuilds⟩
    rw [List.foldlM_cons, hnext']
    exact hu'

/-- The tree that the calls build after the line is ended before the text that one of them found. -/
theorem build_lineEnd {source : String} {before after : List BuildCall}
    (hbefore : ∀ call ∈ before, call.IsTrimmed) (hafter : ∀ call ∈ after, call.IsTrimmed)
    {found : State} (hfound : before.foldlM State.step (.start source) = .ok found)
    (hrest : found.skipBlanks.remaining = e.rest) (hplace : found.skipBlanks.pos = e.place)
    {kept : List Char} (hsource : source.toList = kept ++ e.gap ++ e.rest)
    (hkept : advanceBy ⟨1, 0⟩ (kept ++ e.gap) = e.place) {t : Tree}
    (ht : build source (before ++ after) = .ok t) :
    build (String.ofList (kept ++ e.inserted ++ e.rest)) (before ++ after) =
      .ok (t.mapPos e.push) := by
  obtain ⟨s, hrun, hfinish⟩ := build_eq_ok ht
  have hstart : Rebuilds e (.start source)
      (.start (String.ofList (kept ++ e.inserted ++ e.rest))) := by
    refine ⟨⟨rfl, rfl⟩, ?_⟩
    simp only [State.start, hsource, String.toList_ofList]
    exact .before kept hkept
  have hsuffix : e.rest <:+ found.remaining := by
    rw [← hrest]
    exact List.dropWhile_suffix _
  obtain ⟨found', hfound', hrebuilds⟩ := hstart.run hbefore hfound (.inl hsuffix)
  rw [List.foldlM_append, hfound] at hrun
  obtain ⟨s', hs', hrebuilds'⟩ := hrebuilds.run hafter hrun (.inr (hplace ▸ .refl _))
  unfold build
  rw [List.foldlM_append, hfound']
  have hfinish' := hrebuilds'.mirrors.finish hfinish
  change (after.foldlM State.step found' >>= State.finish) = _
  rw [hs']
  exact hfinish'

end Builder

end TreeLayout
