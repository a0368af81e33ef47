import TreeLayout.Proofs.Walk.Findings
import TreeLayout.Proofs.Wrap.Rebuild
import TreeLayout.Proofs.Wrap.Walk

/-!
# Fixes for tokens that should start a line

A finding that asks for a line end before a token has a fix. The edit gives the same tree with the
leaves from the token on moved (`Builder.build_lineEnd`). Where the token shares its line with the
token before it, a walk asks for a line end before it in at most one of the two trees
(`wraps_add_wraps_walkFindings_le`), so the finding is gone.

A run that started on its line asks for line ends before tokens that start a line already. There the
same fix only adds an empty line, and the finding stays (`wraps_walkFindings_le`): the fix resolves
the finding exactly if the line is shared (`mustWrap_fix_resolves_iff`).
-/

namespace TreeLayout

open Builder (advanceBy)

/-- A finding that asks for a line end says how far the token is indented then. -/
theorem pervades_indent (cx : Context) : Pervades cx (fun _ => True) (fun _ => True)
    fun f => f.message.rule = .mustWrap → ∃ indent, f.indent = some indent where
  children _ _ := trivial
  base _ := ⟨trivial, trivial⟩
  here _ := trivial
  structural {t message} _ hmessage := by
    intro hrule
    rw [Message.isStructural, show message.rule = .mustWrap from hrule] at hmessage
    cases hmessage
  sameLine _ := nofun
  column _ _ := fun _ => ⟨_, rfl⟩
  mustWrap _ _ := fun _ => ⟨_, rfl⟩

/-! ## The order of leaves -/

/-- A token in the order of leaves is moved away from those before it. -/
theorem LineEnd.pushed (e : LineEnd) {before after : List Tree} {p q : Tree}
    (hbefore : ∀ y ∈ before ++ [p], y.pos.Lt e.place) (hafter : ∀ x ∈ after, e.place.Lt x.pos)
    (hlast : ∀ y ∈ before, y.pos.Le p.pos) :
    Pushed e.push e.place (p.line = e.place.line) (before ++ p :: q :: after) := by
  have hne : ∀ y ∈ before ++ [p], y.pos ≠ e.place := fun y hy => (hbefore y hy).ne
  have hne' : ∀ x ∈ after, x.pos ≠ e.place := fun x hx => (hafter x hx).ne.symm
  have hvacuous : ∀ (xs : List Tree) (R : Tree → Tree → Prop), (∀ x ∈ xs, x.pos ≠ e.place) →
      xs.Pairwise fun y x => x.pos = e.place → R y x := fun xs R hxs =>
    List.pairwise_of_forall_mem_list fun y _ x hx hplace => absurd hplace (hxs x hx)
  -- Only the token itself can stand at the place.
  have hpairs : ∀ R : Tree → Tree → Prop, (∀ y ∈ before ++ [p], R y q) →
      (before ++ p :: q :: after).Pairwise fun y x => x.pos = e.place → R y x := by
    intro R hR
    rw [List.append_cons, List.pairwise_append, List.pairwise_cons]
    refine ⟨hvacuous _ R hne, ⟨fun x hx hplace => absurd hplace (hne' x hx), hvacuous _ R hne'⟩, ?_⟩
    intro y hy x hx hplace
    rcases List.mem_cons.1 hx with rfl | hx
    · exact hR y hy
    · exact absurd hplace (hne' x hx)
  constructor
  case before =>
    refine hpairs (fun y _ => (e.push y.pos).line = y.line ∧ y.line ≠ (e.push e.place).line) ?_
    intro y hy
    have hlt := hbefore y hy
    rw [e.push_of_lt hlt, e.push_place]
    refine ⟨rfl, ?_⟩
    unfold Position.Lt at hlt
    simp only [Tree.line]
    omega
  case adjacent =>
    rw [List.isChain_append_cons_cons]
    refine ⟨(hvacuous _ _ hne).isChain, fun _ hline => hline, List.Pairwise.isChain ?_⟩
    exact List.pairwise_cons.2
      ⟨fun x hx hplace => absurd hplace (hne' x hx), hvacuous _ _ hne'⟩
  case alone =>
    refine hpairs (fun y _ => y.line = e.place.line → p.line = e.place.line) ?_
    intro y hy hline
    -- The leaf before the place stands between the others and the place.
    have hp := hbefore p (by simp)
    have hle : y.pos.Le p.pos := by
      rcases List.mem_append.1 hy with hy | hy
      · exact hlast y hy
      · obtain rfl := List.mem_singleton.1 hy
        exact .refl _
    unfold Position.Lt at hp
    unfold Position.Le at hle
    rw [Tree.line] at hline ⊢
    omega
  case once =>
    have hzero : ∀ xs : List Tree, (∀ x ∈ xs, x.pos ≠ e.place) →
        (xs.map Tree.pos).count e.place = 0 := by
      intro xs hxs
      rw [List.count_eq_zero, List.mem_map]
      rintro ⟨x, hx, hplace⟩
      exact hxs x hx hplace
    rw [List.append_cons, List.map_append, List.map_cons, List.count_append, List.count_cons,
      hzero _ hne, hzero _ hne']
    split <;> omega
  case apart => exact fun x _ hplace => e.eq_place_of_push hplace

/-- Leaves in the order of the source, seen from a token after a token. -/
theorem Tree.lt_of_ordered {before after : List Tree} {p q : Tree}
    (h : (before ++ p :: q :: after).Pairwise fun a b => a.endPos.Le b.pos)
    (hp : p.pos.Lt p.endPos) (hq : q.pos.Lt q.endPos) :
    (∀ y ∈ before, y.pos.Le p.pos) ∧ (∀ y ∈ before ++ [p], y.pos.Lt q.pos) ∧
      ∀ x ∈ after, q.pos.Lt x.pos := by
  obtain ⟨-, hlater, hacross⟩ := List.pairwise_append.1 h
  obtain ⟨hnext, hlater⟩ := List.pairwise_cons.1 hlater
  have hpq : p.pos.Lt q.pos := hp.trans_le (hnext q List.mem_cons_self)
  have hle : ∀ y ∈ before, y.pos.Le p.pos := fun y hy =>
    (Builder.le_advanceBy y.pos _).trans (hacross y hy p List.mem_cons_self)
  refine ⟨hle, ?_, fun x hx => hq.trans_le ((List.pairwise_cons.1 hlater).1 x hx)⟩
  simp only [List.mem_append, List.mem_singleton]
  rintro y (hy | rfl)
  · exact (hle y hy).trans_lt hpq
  · exact hpq

/-! ## The token after the fix -/

/-- A fix that ends the line before a token can be applied, and the calls build the tree again with
its leaves moved. -/
theorem exists_rebuilt {source : String} {calls : List BuildCall}
    (hcalls : ∀ call ∈ calls, call.IsTrimmed) {t : Tree} (ht : Builder.build source calls = .ok t)
    {q : Tree} (hq : q ∈ t.leaves) (htoken : q.isToken = true) {f : Finding}
    (hrule : f.message.rule = .mustWrap) {indent : Nat} (hindent : f.indent = some indent)
    (hpos : q.pos = ⟨f.line, f.rawColumn⟩) (tabWidth : Nat) :
    ∃ (e : LineEnd) (fix : Fix) (edited : List Char), e.place = q.pos ∧
      suggestFix? f (.ofString source tabWidth) = some fix ∧
      fix.replaceIn? source.toList = some edited ∧
      Builder.build (String.ofList edited) calls = .ok (t.mapPos e.push) := by
  obtain ⟨before, after, found, rest, rfl, hbefore, hlocated, hplace, hne, hremaining⟩ :=
    Builder.exists_call_of_mem_leaves hcalls ht hq htoken
  obtain ⟨passed, hsource, hpassed⟩ := hlocated.skipBlanks
  -- The token starts with a character that is no blank.
  have hblank : ∀ c ∈ found.skipBlanks.remaining.head?, Text.isBlank c = false :=
    fun c hc => Text.isBlank_of_mem_head?_dropWhile hc
  obtain ⟨c, text, htext⟩ : ∃ c text, found.skipBlanks.remaining = c :: text := by
    cases hchars : q.text.toList with
    | nil => exact absurd (by simpa using hchars) hne
    | cons c chars => exact ⟨c, chars ++ rest, by rw [hremaining, hchars]; rfl⟩
  have hc := hblank c (by rw [htext]; rfl)
  have hcut : (SourceText.ofString source tabWidth).text.toList = passed ++ c :: text := by
    rw [← htext]
    exact hsource
  obtain ⟨fix, kept, gap, hfix, hkept, hgap, hedited⟩ := exists_wrap_fix hcut hc hrule hindent
    (by rw [← hpassed, ← hplace, hpos])
  let e : LineEnd := ⟨q.pos, indent, gap, found.skipBlanks.remaining, hgap, hblank⟩
  refine ⟨e, fix, _, rfl, hfix, hedited, ?_⟩
  have hwhole : source.toList = kept ++ e.gap ++ e.rest := by rw [hsource, hkept]
  have hbuild := Builder.build_lineEnd
    (fun call hcall => hcalls call (List.mem_append_left _ hcall))
    (fun call hcall => hcalls call (List.mem_append_right _ hcall)) hbefore rfl hplace.symm hwhole
    (by rw [← hkept, ← hpassed, ← hplace]) ht
  rw [show e.rest = c :: text from htext] at hbuild
  exact hbuild

/-- When the fix for a finding that asks for a line end before a token resolves it. The fix is there
and can be applied, and the tree can be built again by the same calls. After that no finding asks
for a line end before the same token, exactly if it shared its line with the token before it. -/
theorem mustWrap_fix_resolves_iff {source : String} {calls : List BuildCall}
    (hcalls : ∀ call ∈ calls, call.IsTrimmed) {t : Tree} (ht : Builder.build source calls = .ok t)
    {settings : LayoutSettings} {table : ProgramTable}
    (htable : ProgramTable.ofSettings settings = .ok table) (tabWidth : Nat) {f : Finding}
    (hf : f ∈ walkFindings ⟨.ofString source tabWidth, settings⟩ table t)
    (hrule : f.message.rule = .mustWrap) {before after : List Tree} {p q : Tree}
    (hleaves : t.leaves = before ++ p :: q :: after) (hp : p.isToken = true)
    (hq : q.isToken = true) (hpos : q.pos = ⟨f.line, f.rawColumn⟩) :
    ∃ fix edited t' q', suggestFix? f (.ofString source tabWidth) = some fix ∧
      fix.replaceIn? source.toList = some edited ∧
      Builder.build (String.ofList edited) calls = .ok t' ∧
      t'.leaves[before.length + 1]? = some q' ∧ q'.label = q.label ∧
      ((∀ g ∈ walkFindings ⟨.ofString (String.ofList edited) tabWidth, settings⟩ table t',
        g.message.rule = .mustWrap → Position.mk g.line g.rawColumn ≠ q'.pos) ↔
          p.line = q.line) := by
  obtain ⟨indent, hindent⟩ := (pervades_indent _).walkFindings table trivial f hf hrule
  have hpmem : p ∈ t.leaves := by simp [hleaves]
  have hqmem : q ∈ t.leaves := by simp [hleaves]
  obtain ⟨e, fix, edited, hplace, hfix, hedited, hbuild⟩ :=
    exists_rebuilt hcalls ht hqmem hq hrule hindent hpos tabWidth
  -- The leaves stand in order, so the token is moved away from those before it.
  have hordered := Builder.leaves_ordered hcalls ht
  rw [hleaves] at hordered
  obtain ⟨hlast, hbefore, hafter⟩ := Tree.lt_of_ordered hordered
    (Builder.lt_endPos_of_mem_leaves hcalls ht hpmem hp)
    (Builder.lt_endPos_of_mem_leaves hcalls ht hqmem hq)
  have hpushed : Pushed e.push e.place (p.line = e.place.line) t.leaves := by
    rw [hleaves]
    rw [← hplace] at hbefore hafter
    exact e.pushed hbefore hafter hlast
  refine ⟨fix, edited, t.mapPos e.push, q.mapPos e.push, hfix, hedited, hbuild, ?_, ?_, ?_⟩
  · rw [Tree.leaves_mapPos, hleaves]
    simp
  · cases q with
    | token => simp [Tree.label]
    | empty | node => cases hq
  · have hold : 0 < wraps e.place (walkFindings ⟨.ofString source tabWidth, settings⟩ table t) :=
      List.countP_pos_iff.2 ⟨f, hf, by simp [Finding.wrapsAt, hrule, hplace, hpos]⟩
    have hline : q.line = e.place.line := by
      rw [hplace]
      rfl
    rw [Tree.pos_mapPos, ← hplace, ← wraps_eq_zero_iff, hline]
    constructor
    · intro hnone
      by_contra hshared
      have hle := wraps_walkFindings_le htable ⟨.ofString source tabWidth, settings⟩
        ⟨.ofString (String.ofList edited) tabWidth, settings⟩ hshared hpushed
      omega
    · intro hshared
      have hle := wraps_add_wraps_walkFindings_le htable ⟨.ofString source tabWidth, settings⟩
        ⟨.ofString (String.ofList edited) tabWidth, settings⟩ hshared hpushed
      omega

/-- The calls for a block with the statements `a;` and `b;`. -/
def twoStatements : List BuildCall :=
  [.open ConstructKind.block, .token TokenKind.lBrace "\x7b",
    .open ConstructKind.exprStatement, .token TokenKind.identifier "a",
    .token TokenKind.semi ";", .close,
    .open ConstructKind.exprStatement, .token TokenKind.identifier "b",
    .token TokenKind.semi ";", .close,
    .token TokenKind.rBrace "\x7d", .close]

/-- Two statements on one line: the line is ended before the second one. -/
theorem mustWrap_fix_resolves_iff_second_statement :
    ∃ table, ProgramTable.ofSettings .default = .ok table ∧ ∃ fix edited t' q',
      suggestFix? ⟨2, 8, 7, 1, .mustWrap "b", some 4⟩ (.ofString "\x7b\n    a; b;\n\x7d" 4) =
        some fix ∧
      fix.replaceIn? "\x7b\n    a; b;\n\x7d".toList = some edited ∧
      Builder.build (String.ofList edited) twoStatements = .ok t' ∧
      t'.leaves[3]? = some q' ∧ q'.label = (.token .identifier, some "b") ∧
      ∀ g ∈ walkFindings ⟨.ofString (String.ofList edited) 4, .default⟩ table t',
        g.message.rule = .mustWrap → Position.mk g.line g.rawColumn ≠ q'.pos := by
  obtain ⟨table, htable⟩ := ProgramTable.exists_ofSettings .default
  let t : Tree := .node .block (.token .lBrace "\x7b" ⟨1, 0⟩)
    [.node .exprStatement (.token .identifier "a" ⟨2, 4⟩) [.token .semi ";" ⟨2, 5⟩],
      .node .exprStatement (.token .identifier "b" ⟨2, 7⟩) [.token .semi ";" ⟨2, 8⟩],
      .token .rBrace "\x7d" ⟨3, 0⟩]
  have hbuild : Builder.build "\x7b\n    a; b;\n\x7d" twoStatements = .ok t := rfl
  have hfound : (ProgramTable.ofSettings .default).toOption.map (fun table =>
      decide (⟨2, 8, 7, 1, .mustWrap "b", some 4⟩ ∈
        walkFindings ⟨.ofString "\x7b\n    a; b;\n\x7d" 4, .default⟩ table t)) = some true := by
    decide +kernel
  rw [htable] at hfound
  have hcalls : ∀ call ∈ twoStatements, call.IsTrimmed := by
    simp [twoStatements, BuildCall.IsTrimmed, Text.isBlank]
  have hleaves : t.leaves =
      [.token .lBrace "\x7b" ⟨1, 0⟩, .token .identifier "a" ⟨2, 4⟩] ++
        .token .semi ";" ⟨2, 5⟩ :: .token .identifier "b" ⟨2, 7⟩ ::
          [.token .semi ";" ⟨2, 8⟩, .token .rBrace "\x7d" ⟨3, 0⟩] := rfl
  obtain ⟨fix, edited, t', q', hfix, hedited, hrebuilt, hthere, hlabel, hiff⟩ :=
    mustWrap_fix_resolves_iff hcalls hbuild htable 4
      (of_decide_eq_true (Option.some.inj hfound)) rfl hleaves rfl rfl rfl
  exact ⟨table, htable, fix, edited, t', q', hfix, hedited, hrebuilt, hthere, hlabel, hiff.2 rfl⟩

/-- A block whose first statement stands on the line of the brace, and whose second one starts a
line: a line end is asked for before the second statement, and after the fix once more. -/
theorem mustWrap_fix_leaves_finding :
    ∃ table t fix t', ProgramTable.ofSettings .default = .ok table ∧
      (∀ call ∈ twoStatements, call.IsTrimmed) ∧
      Builder.build "\x7b a;\n    b;\n\x7d" twoStatements = .ok t ∧
      t.leaves[3]? = some (.token .identifier "b" ⟨2, 4⟩) ∧
      ⟨2, 5, 4, 1, .mustWrap "b", some 4⟩ ∈
        walkFindings ⟨.ofString "\x7b a;\n    b;\n\x7d" 4, .default⟩ table t ∧
      suggestFix? ⟨2, 5, 4, 1, .mustWrap "b", some 4⟩ (.ofString "\x7b a;\n    b;\n\x7d" 4) =
        some fix ∧
      fix.replaceIn? "\x7b a;\n    b;\n\x7d".toList = some "\x7b a;\n\n    b;\n\x7d".toList ∧
      Builder.build "\x7b a;\n\n    b;\n\x7d" twoStatements = .ok t' ∧
      t'.leaves[3]? = some (.token .identifier "b" ⟨3, 4⟩) ∧
      ⟨3, 5, 4, 1, .mustWrap "b", some 4⟩ ∈
        walkFindings ⟨.ofString "\x7b a;\n\n    b;\n\x7d" 4, .default⟩ table t' := by
  obtain ⟨table, htable⟩ := ProgramTable.exists_ofSettings .default
  let t : Tree := .node .block (.token .lBrace "\x7b" ⟨1, 0⟩)
    [.node .exprStatement (.token .identifier "a" ⟨1, 2⟩) [.token .semi ";" ⟨1, 3⟩],
      .node .exprStatement (.token .identifier "b" ⟨2, 4⟩) [.token .semi ";" ⟨2, 5⟩],
      .token .rBrace "\x7d" ⟨3, 0⟩]
  let t' : Tree := .node .block (.token .lBrace "\x7b" ⟨1, 0⟩)
    [.node .exprStatement (.token .identifier "a" ⟨1, 2⟩) [.token .semi ";" ⟨1, 3⟩],
      .node .exprStatement (.token .identifier "b" ⟨3, 4⟩) [.token .semi ";" ⟨3, 5⟩],
      .token .rBrace "\x7d" ⟨4, 0⟩]
  have hfound : (ProgramTable.ofSettings .default).toOption.map (fun table =>
      decide (⟨2, 5, 4, 1, .mustWrap "b", some 4⟩ ∈
          walkFindings ⟨.ofString "\x7b a;\n    b;\n\x7d" 4, .default⟩ table t ∧
        ⟨3, 5, 4, 1, .mustWrap "b", some 4⟩ ∈
          walkFindings ⟨.ofString "\x7b a;\n\n    b;\n\x7d" 4, .default⟩ table t')) =
      some true := by
    decide +kernel
  rw [htable] at hfound
  obtain ⟨hfirst, hagain⟩ := of_decide_eq_true (Option.some.inj hfound)
  have hcalls : ∀ call ∈ twoStatements, call.IsTrimmed := by
    simp [twoStatements, BuildCall.IsTrimmed, Text.isBlank]
  exact ⟨table, t, ⟨"wrap line", "\n    ", 5, 9, .risky⟩, t', htable, hcalls, rfl, rfl, hfirst,
    by decide +kernel, by decide +kernel, rfl, rfl, hagain⟩

end TreeLayout
