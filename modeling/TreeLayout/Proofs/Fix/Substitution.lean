import Mathlib.Data.List.Basic
import TreeLayout.Fix.Apply
import TreeLayout.Proofs.Files.Plain
import TreeLayout.Proofs.Files.Write
import TreeLayout.Proofs.Text.Bytes

/-!
# Fixes as one substitution

The fixes of a file are applied one after another, each at offsets of the text before all of them.
The outcome is that of replacing all their ranges at once: `Substituted` reads the old and the new
text side by side and lets them differ in the ranges only. A fix that is applied starts before all
fixes applied so far and touches none of them, so the text up to its end is still the old one
(`Substituted.split`), and it can be applied at its old offsets (`Substituted.cons`). What one fix
preserves (`Edit.Accounts`) is carried through the list in `Edit.accounts_foldl`, and the change of
a file is read off it at the end.
-/

namespace TreeLayout

open Text (byteSize splitAtByte? splitAtByte?_eq_some_iff)

namespace Fix

/-- A fix can be applied to a text: its range is not inverted, and both ends lie in the text and
between characters. -/
structure Fits (f : Fix) (cs : List Char) : Prop where
  /-- The range does not end before it starts. -/
  ordered : f.startOffset ≤ f.endOffset
  /-- The range starts in the text and between characters. -/
  isBoundary_start : Text.IsBoundary cs f.startOffset
  /-- The range ends in the text and between characters. -/
  isBoundary_end : Text.IsBoundary cs f.endOffset

variable {f : Fix} {cs new : List Char}

/-- A range that fits a text cuts it in three. -/
theorem Fits.exists_append (h : f.Fits cs) : ∃ before removed after,
    cs = before ++ removed ++ after ∧ byteSize before = f.startOffset
      ∧ f.startOffset + byteSize removed = f.endOffset := by
  obtain ⟨before, rest, hbefore, hstart⟩ := h.isBoundary_start
  obtain ⟨upto, after, hupto, hend⟩ := h.isBoundary_end
  have hle : byteSize before ≤ byteSize upto := by
    have := h.ordered
    omega
  obtain ⟨removed, rfl, -⟩ := Text.exists_append_of_byteSize_le (hbefore.trans hupto.symm) hle
  rw [Text.byteSize_append] at hend
  exact ⟨before, removed, after, hupto.symm, hstart, by omega⟩

/-- Replacing the middle of a text cut in three. -/
theorem replaceIn?_append {before removed : List Char} (after : List Char)
    (hstart : byteSize before = f.startOffset)
    (hend : f.startOffset + byteSize removed = f.endOffset) :
    f.replaceIn? (before ++ removed ++ after) = some (before ++ f.replacement.toList ++ after) := by
  have hcut : splitAtByte? f.startOffset (before ++ removed ++ after) =
      some (before, removed ++ after) :=
    splitAtByte?_eq_some_iff.2 ⟨by simp, hstart⟩
  have hcut' : splitAtByte? f.endOffset (before ++ removed ++ after) =
      some (before ++ removed, after) :=
    splitAtByte?_eq_some_iff.2 ⟨rfl, by simp; omega⟩
  unfold replaceIn?
  rw [if_neg (by omega), hcut, hcut']
  rfl

/-- The range is replaced exactly when the fix fits. -/
theorem isSome_replaceIn? : (f.replaceIn? cs).isSome ↔ f.Fits cs := by
  constructor
  · intro h
    obtain ⟨new, hnew⟩ := Option.isSome_iff_exists.1 h
    unfold replaceIn? at hnew
    split at hnew
    · cases hnew
    · rename_i hordered
      obtain ⟨⟨before, rest⟩, hcut, hnew⟩ := Option.bind_eq_some_iff.1 hnew
      obtain ⟨⟨upto, after⟩, hcut', -⟩ := Option.bind_eq_some_iff.1 hnew
      exact ⟨by omega, ⟨_, _, splitAtByte?_eq_some_iff.1 hcut⟩,
        ⟨_, _, splitAtByte?_eq_some_iff.1 hcut'⟩⟩
  · intro h
    obtain ⟨before, removed, after, rfl, hstart, hend⟩ := h.exists_append
    rw [replaceIn?_append after hstart hend]
    rfl

/-- A fix that touches no byte of one that starts no earlier ends before it. -/
theorem le_of_not_overlaps {f g : Fix} (hle : f.startOffset ≤ g.startOffset)
    (h : g.overlaps f = false) : f.endOffset ≤ g.startOffset ∧ f.startOffset < g.startOffset := by
  unfold overlaps at h
  rw [Bool.and_eq_false_iff, decide_eq_false_iff_not, decide_eq_false_iff_not] at h
  omega

end Fix

/-- `Substituted n old fixes new`: where `old` starts at offset `n` of a file, `new` is `old` with
the ranges of the fixes, which stand in order, replaced all at once, and everything else kept. -/
inductive Substituted : Nat → List Char → List Fix → List Char → Prop
  /-- Without fixes the text stays. -/
  | done (n : Nat) (cs : List Char) : Substituted n cs [] cs
  /-- The text before the first fix stays, its range gets the replacement, and the other fixes lie
  in what follows. -/
  | replace {n : Nat} {old new : List Char} {f : Fix} {fixes : List Fix} (kept removed : List Char)
    (hstart : n + byteSize kept = f.startOffset)
    (hend : f.startOffset + byteSize removed = f.endOffset)
    (rest : Substituted f.endOffset old fixes new) :
    Substituted n (kept ++ removed ++ old) (f :: fixes) (kept ++ f.replacement.toList ++ new)

namespace Substituted

variable {n : Nat} {old new : List Char} {f : Fix} {fixes : List Fix}

/-- Fixes start no earlier than the text that they are for. -/
theorem le_startOffset (h : Substituted n old fixes new) {g : Fix} (hg : g ∈ fixes) :
    n ≤ g.startOffset := by
  induction h with
  | done => cases hg
  | replace kept removed hstart hend _ ih =>
    rcases List.mem_cons.1 hg with rfl | hg
    · omega
    · have := ih hg
      omega

/-- The ranges of the fixes are disjoint and in order. -/
theorem pairwise (h : Substituted n old fixes new) :
    fixes.Pairwise fun f g => f.startOffset ≤ f.endOffset ∧ f.endOffset ≤ g.startOffset := by
  induction h with
  | done => exact .nil
  | replace kept removed hstart hend rest ih =>
    refine List.pairwise_cons.2 ⟨fun g hg => ?_, ih⟩
    exact ⟨by omega, rest.le_startOffset hg⟩

/-- The fixes and the old text determine the new one. -/
theorem unique {new' : List Char} (h : Substituted n old fixes new)
    (h' : Substituted n old fixes new') : new = new' := by
  induction h generalizing new' with
  | done n cs =>
    cases h'
    rfl
  | @replace n old new f fixes kept removed hstart hend rest ih =>
    generalize htext : kept ++ removed ++ old = text at h'
    cases h' with
    | @replace _ old' new' _ _ kept' removed' hstart' hend' rest' =>
      rw [List.append_assoc, List.append_assoc] at htext
      obtain ⟨hkept, htail⟩ := Text.append_inj_of_byteSize_eq htext (by omega)
      obtain ⟨-, htail'⟩ := Text.append_inj_of_byteSize_eq htail (by omega)
      subst hkept htail'
      rw [ih rest']

/-- The old text up to an offset before all fixes stands at the start of the new one, and the fixes
are substituted in what follows. -/
theorem split {a b : List Char} (h : Substituted n (a ++ b) fixes new)
    (hle : ∀ g ∈ fixes, n + byteSize a ≤ g.startOffset) :
    ∃ new', new = a ++ new' ∧ Substituted (n + byteSize a) b fixes new' := by
  generalize htext : a ++ b = text at h
  cases h with
  | done => exact ⟨b, htext.symm, .done _ _⟩
  | @replace _ old new f fixes kept removed hstart hend rest =>
    have hsize : byteSize a ≤ byteSize kept := by
      have := hle f List.mem_cons_self
      omega
    have htext' : a ++ b = kept ++ (removed ++ old) := by rw [htext, List.append_assoc]
    obtain ⟨m, rfl, rfl⟩ := Text.exists_append_of_byteSize_le htext' hsize
    rw [Text.byteSize_append] at hstart
    refine ⟨m ++ f.replacement.toList ++ new, by simp, ?_⟩
    rw [← List.append_assoc]
    exact .replace m removed (by omega) hend rest

/-- A fix of the old text that ends before all others start fits the new text, and applying it there
adds it to the substitution. -/
theorem cons (h : Substituted 0 old fixes new) (hfits : f.Fits old)
    (hle : ∀ g ∈ fixes, f.endOffset ≤ g.startOffset) :
    ∃ new', f.replaceIn? new = some new' ∧ Substituted 0 old (f :: fixes) new' := by
  obtain ⟨before, removed, after, rfl, hstart, hend⟩ := hfits.exists_append
  have hsize : 0 + byteSize (before ++ removed) = f.endOffset := by
    rw [Text.byteSize_append]
    omega
  obtain ⟨after', rfl, hafter⟩ := h.split (hsize ▸ hle)
  rw [hsize] at hafter
  exact ⟨_, Fix.replaceIn?_append after' hstart hend,
    .replace before removed (by omega) hend hafter⟩

end Substituted

namespace Edit

variable {old : List Char} {e : Edit} {f : Fix} {tried : List Fix}

/-- What an edit says about the fixes tried so far: those applied are substituted in the old text,
and of the others each was counted for its reason. -/
structure Accounts (old : List Char) (tried : List Fix) (e : Edit) : Prop where
  /-- The text is the old one with the applied fixes substituted. -/
  substituted : Substituted 0 old e.applied e.content
  /-- The fixes that were not applied touch an applied one or do not fit the old text. -/
  refused : ∃ overlapping misfits, tried.Perm (e.applied ++ (overlapping ++ misfits))
    ∧ overlapping.length = e.overlapping ∧ misfits.length = e.misfits
    ∧ (∀ f ∈ overlapping, f.Fits old ∧ ∃ g ∈ e.applied, g.overlaps f)
    ∧ ∀ f ∈ misfits, ¬ f.Fits old

/-- Before any fix there is nothing to account for. -/
theorem accounts_start (old : List Char) : (start old).Accounts old [] :=
  ⟨.done 0 old, [], [], .nil, rfl, rfl, by simp, by simp⟩

/-- A fix that fits the old text and touches none of the applied ones fits the text so far: they all
start after its end. -/
theorem Accounts.exists_replaceIn? (h : e.Accounts old tried)
    (hle : ∀ g ∈ tried, f.startOffset ≤ g.startOffset) (hfits : f.Fits old)
    (hclear : e.applied.any (·.overlaps f) = false) :
    ∃ content, f.replaceIn? e.content = some content
      ∧ Substituted 0 old (f :: e.applied) content := by
  refine h.substituted.cons hfits fun g hg => ?_
  obtain ⟨overlapping, misfits, hperm, -⟩ := h.refused
  have hmem : g ∈ tried := hperm.mem_iff.2 (List.mem_append_left _ hg)
  have hapart : g.overlaps f = false := by
    rw [List.any_eq_false] at hclear
    exact Bool.eq_false_iff.2 (hclear g hg)
  exact (Fix.le_of_not_overlaps (hle g hmem) hapart).1

/-- One more fix, with no greater offset than those before it, is applied or counted. -/
theorem Accounts.apply (h : e.Accounts old tried)
    (hle : ∀ g ∈ tried, f.startOffset ≤ g.startOffset) :
    (e.apply old f).Accounts old (f :: tried) := by
  obtain ⟨overlapping, misfits, hperm, hoverlapping, hmisfits, htouch, hmisfit⟩ := h.refused
  unfold Edit.apply
  split
  · rename_i hnone
    have hunfit : ¬ f.Fits old := by
      rw [← Fix.isSome_replaceIn?]
      simpa using hnone
    refine ⟨h.substituted, overlapping, f :: misfits, ?_, hoverlapping, by simp [hmisfits], htouch,
      ?_⟩
    · rw [← List.append_assoc] at hperm ⊢
      exact (hperm.cons f).trans List.perm_middle.symm
    · simpa [hunfit] using hmisfit
  · rename_i hsome
    have hfits : f.Fits old := by
      rw [← Fix.isSome_replaceIn?]
      simpa [Option.isSome_iff_ne_none] using hsome
    split
    · rename_i hany
      refine ⟨h.substituted, f :: overlapping, misfits, ?_, by simp [hoverlapping], hmisfits, ?_,
        hmisfit⟩
      · exact (hperm.cons f).trans List.perm_middle.symm
      · simpa [hfits] using ⟨by simpa using hany, htouch⟩
    · rename_i hclear
      obtain ⟨content, hcontent, hnew⟩ := h.exists_replaceIn? hle hfits (Bool.eq_false_iff.2 hclear)
      rw [hcontent]
      refine ⟨hnew, overlapping, misfits, hperm.cons f, hoverlapping, hmisfits, ?_, hmisfit⟩
      intro g hg
      obtain ⟨hg, k, hk, hover⟩ := htouch g hg
      exact ⟨hg, k, List.mem_cons_of_mem _ hk, hover⟩

/-- An edit accounts for fixes that were tried in the order of falling offsets. -/
theorem accounts_foldl {fixes : List Fix} (h : e.Accounts old tried)
    (hle : ∀ g ∈ tried, ∀ f ∈ fixes, f.startOffset ≤ g.startOffset)
    (hsorted : fixes.Pairwise fun a b => b.startOffset ≤ a.startOffset) :
    (fixes.foldl (Edit.apply old) e).Accounts old (fixes.reverse ++ tried) := by
  induction fixes generalizing e tried with
  | nil => exact h
  | cons f fixes ih =>
    rw [List.pairwise_cons] at hsorted
    have hstep := h.apply fun g hg => hle g hg f List.mem_cons_self
    have hrest : ∀ g ∈ f :: tried, ∀ k ∈ fixes, k.startOffset ≤ g.startOffset := by
      intro g hg k hk
      rcases List.mem_cons.1 hg with rfl | hg
      · exact hsorted.1 k hk
      · exact hle g hg k (List.mem_cons_of_mem _ hk)
    simpa using ih hstep hrest hsorted.2

/-- Fixes in the order in which they are tried: those of the greatest offsets first. -/
def fromEnd (fixes : List Fix) : List Fix :=
  fixes.mergeSort fun a b => decide (b.startOffset ≤ a.startOffset)

/-- All fixes are applied from the end of the text. -/
theorem applyAll_eq (old : List Char) (fixes : List Fix) :
    applyAll old fixes = (fromEnd fixes).foldl (Edit.apply old) (start old) := rfl

/-- From the end, later starts come first. -/
theorem pairwise_fromEnd (fixes : List Fix) :
    (fromEnd fixes).Pairwise fun a b => b.startOffset ≤ a.startOffset := by
  have htrans : ∀ a b c : Fix, decide (b.startOffset ≤ a.startOffset) →
      decide (c.startOffset ≤ b.startOffset) → decide (c.startOffset ≤ a.startOffset) := by
    intro a b c hab hbc
    simp only [decide_eq_true_eq] at *
    omega
  have htotal : ∀ a b : Fix,
      decide (b.startOffset ≤ a.startOffset) || decide (a.startOffset ≤ b.startOffset) := by
    intro a b
    simp only [Bool.or_eq_true, decide_eq_true_eq]
    omega
  simpa only [fromEnd, decide_eq_true_eq] using List.pairwise_mergeSort htrans htotal fixes

/-- After all fixes, each of them is accounted for. -/
theorem accounts_applyAll (old : List Char) (fixes : List Fix) :
    (applyAll old fixes).Accounts old fixes := by
  have hfold := accounts_foldl (accounts_start old) (by simp) (pairwise_fromEnd fixes)
  obtain ⟨hsubstituted, overlapping, misfits, hperm, hrest⟩ := hfold
  refine ⟨hsubstituted, overlapping, misfits, ?_, hrest⟩
  rw [List.append_nil] at hperm
  exact (List.mergeSort_perm fixes _).symm.trans ((List.reverse_perm _).symm.trans hperm)

/-- No fix is cut out of range or inside a character: whenever one fits the old text and touches
none of the fixes applied before it, it fits the text as it is by then. -/
theorem fits_of_fromEnd_eq {fixes before rest : List Fix} (h : fromEnd fixes = before ++ f :: rest)
    (hfits : f.Fits old)
    (hclear : (before.foldl (Edit.apply old) (start old)).applied.any (·.overlaps f) = false) :
    f.Fits (before.foldl (Edit.apply old) (start old)).content := by
  have hsorted := pairwise_fromEnd fixes
  rw [h, List.pairwise_append] at hsorted
  have hbefore := accounts_foldl (accounts_start old) (by simp) hsorted.1
  have hle : ∀ g ∈ before.reverse ++ [], f.startOffset ≤ g.startOffset := by
    intro g hg
    simp only [List.append_nil, List.mem_reverse] at hg
    exact hsorted.2.2 g hg f List.mem_cons_self
  obtain ⟨content, hcontent, -⟩ := hbefore.exists_replaceIn? hle hfits hclear
  rw [← Fix.isSome_replaceIn?, hcontent]
  rfl

end Edit

namespace FixOutcome

variable {p : FixPolicy} {o o' : FixOutcome} {file content : String} {e : Edit}

/-- What it means to carry out a change: nothing if there is none or it is only counted; else it is
shown or written. -/
theorem carryOut_cases {old : List Char} (h : carryOut p file old e o = .ok o') :
    ((e.applied = [] ∨ p.mode ≠ .diff ∧ p.dryRun = true) ∧ o' = o) ∨
    (e.applied ≠ [] ∧ p.mode = .diff ∧
      o' = { o with diffs := o.diffs ++ [FileDiff.between file old e.content] }) ∨
    (p.mode ≠ .diff ∧ ∃ files, o.files.write file (String.ofList e.content) = .ok files ∧
      o' = { o with files }) := by
  unfold carryOut at h
  by_cases hnone : e.applied = []
  · rw [if_pos (List.isEmpty_iff.2 hnone)] at h
    cases h
    exact .inl ⟨.inl hnone, rfl⟩
  rw [if_neg (by simpa using hnone)] at h
  by_cases hmode : p.mode = .diff
  · rw [if_pos hmode] at h
    cases h
    exact .inr (.inl ⟨hnone, hmode, rfl⟩)
  rw [if_neg hmode] at h
  split at h
  · rename_i hdry
    cases h
    exact .inl ⟨.inr ⟨hmode, hdry⟩, rfl⟩
  · cases hfiles : o.files.write file (String.ofList e.content) with
    | error err =>
      rw [hfiles] at h
      cases h
    | ok files =>
      rw [hfiles] at h
      cases h
      exact .inr (.inr ⟨hmode, files, rfl, rfl⟩)

/-- Unless the file fails, what its fixes make of it is carried out. -/
theorem exists_carryOut {pending : List PendingFix} (hread : o.files.read file = .ok content)
    (herrors : (applyFile p o (file, pending)).errors = o.errors) :
    let edit := Edit.applyAll content.toList ((pending.map (·.fix)).filter p.allows)
    ∃ counted after, counted.files = o.files ∧ counted.diffs = o.diffs ∧ counted.applied = o.applied
      ∧ carryOut p file content.toList edit counted = .ok after
      ∧ applyFile p o (file, pending) = after.done edit := by
  unfold applyFile at herrors ⊢
  simp only [hread] at herrors ⊢
  generalize (pending.map (·.fix)).filter p.allows = fixes at herrors ⊢
  split at herrors
  · rename_i hnone
    have hstart : Edit.applyAll content.toList fixes = .start content.toList := by
      rw [List.isEmpty_iff.1 hnone, Edit.applyAll_eq, Edit.fromEnd, List.mergeSort_nil]
      rfl
    rw [if_pos hnone, hstart]
    let counted := { o with skipped := o.skipped + (pending.length - fixes.length) }
    exact ⟨counted, counted, rfl, rfl, rfl, rfl, rfl⟩
  · rename_i hsome
    rw [if_neg hsome]
    split at herrors
    · rename_i after hafter
      refine ⟨_, after, ?_, ?_, ?_, hafter, rfl⟩ <;> rfl
    · -- A failed file adds a text to the errors.
      have hlength := congrArg List.length herrors
      simp [fail, tried] at hlength

/-- A change that was carried out adds its applied fixes. -/
theorem applied_done (o : FixOutcome) (e : Edit) :
    (o.done e).applied = o.applied + e.applied.length := by
  unfold done
  split
  · rename_i hnone
    rw [List.isEmpty_iff.1 hnone]
    rfl
  · rfl

/-- A change that was carried out adds no error. -/
theorem errors_done (o : FixOutcome) (e : Edit) : (o.done e).errors = o.errors := by
  unfold done
  split <;> rfl

/-- Counting a change leaves the files as they are. -/
theorem files_done (o : FixOutcome) (e : Edit) : (o.done e).files = o.files := by
  unfold done
  split <;> rfl

/-- Counting a change shows nothing more. -/
theorem diffs_done (o : FixOutcome) (e : Edit) : (o.done e).diffs = o.diffs := by
  unfold done
  split <;> rfl

/-- Carrying out a change adds no error. -/
theorem errors_of_carryOut {old : List Char} (h : carryOut p file old e o = .ok o') :
    o'.errors = o.errors := by
  obtain ⟨-, rfl⟩ | ⟨-, -, rfl⟩ | ⟨-, files, -, rfl⟩ := carryOut_cases h
  · rfl
  · rfl
  · rfl

/-- Where a file can be written, its change is carried out. -/
theorem carryOut_ne_error {old : List Char} {err : FileError}
    (hwrite : ∀ new, ∃ files, o.files.write file new = .ok files) :
    carryOut p file old e o ≠ .error err := by
  obtain ⟨files, hfiles⟩ := hwrite (String.ofList e.content)
  intro h
  unfold carryOut at h
  rw [hfiles] at h
  split_ifs at h
  cases h

/-- A file that can be read and written does not fail. -/
theorem errors_applyFile {pending : List PendingFix} (hread : o.files.read file = .ok content)
    (hwrite : ∀ new, ∃ files, o.files.write file new = .ok files) :
    (applyFile p o (file, pending)).errors = o.errors := by
  unfold applyFile
  simp only [hread]
  split
  · rfl
  · split
    · rename_i after hafter
      exact (errors_done after _).trans ((errors_of_carryOut hafter).trans rfl)
    · rename_i err herror
      exact absurd herror (carryOut_ne_error hwrite)

/-- Applying the fixes of a file is one substitution. A fix that fits the text of the file and
touches no fix applied before it fits the text as it is by then; the ranges of the applied fixes are
disjoint; the new text is the old one with these ranges replaced and all else kept; and a fix that
is not applied does not fit the text of the file or touches an applied one. Unless the file fails,
the applied fixes are counted and the new text is the one that is shown or written. -/
theorem applyFile_substitutes (p : FixPolicy) (o : FixOutcome) (file content : String)
    (pending : List PendingFix) (hread : o.files.read file = .ok content) :
    let old := content.toList
    let fixes := (pending.map (·.fix)).filter p.allows
    let edit := Edit.applyAll old fixes
    let after := applyFile p o (file, pending)
    (∀ before f rest, Edit.fromEnd fixes = before ++ f :: rest → f.Fits old →
      (before.foldl (Edit.apply old) (.start old)).applied.any (·.overlaps f) = false →
      f.Fits (before.foldl (Edit.apply old) (.start old)).content)
    ∧ edit.applied.Pairwise
      (fun f g => f.startOffset ≤ f.endOffset ∧ f.endOffset ≤ g.startOffset)
    ∧ (∀ new, Substituted 0 old edit.applied new ↔ new = edit.content)
    ∧ (∃ refused, fixes.Perm (edit.applied ++ refused) ∧
      ∀ f ∈ refused, ¬ f.Fits old ∨ ∃ g ∈ edit.applied, g.overlaps f)
    ∧ (after.errors = o.errors → after.applied = o.applied + edit.applied.length
      ∧ (p.mode = .diff → edit.applied ≠ [] →
        after.diffs = o.diffs ++ [FileDiff.between file old edit.content])
      ∧ (p.mode ≠ .diff → p.dryRun = false →
        after.files.read file = .ok (String.ofList edit.content))) := by
  intro old fixes edit after
  have haccounts : edit.Accounts old fixes := Edit.accounts_applyAll old fixes
  refine ⟨?_, haccounts.substituted.pairwise, ?_, ?_, ?_⟩
  · intro before f rest horder hfits hclear
    exact Edit.fits_of_fromEnd_eq horder hfits hclear
  · intro new
    constructor
    · exact fun h => h.unique haccounts.substituted
    · rintro rfl
      exact haccounts.substituted
  · obtain ⟨overlapping, misfits, hperm, -, -, htouch, hmisfit⟩ := haccounts.refused
    refine ⟨overlapping ++ misfits, hperm, fun f hf => ?_⟩
    rcases List.mem_append.1 hf with hf | hf
    · exact .inr (htouch f hf).2
    · exact .inl (hmisfit f hf)
  · intro herrors
    obtain ⟨counted, o', hfiles, hdiffs, happlied, hcarry, hafter⟩ := exists_carryOut hread herrors
    have hafter : after = o'.done edit := hafter
    rw [hafter, applied_done, diffs_done, files_done, ← happlied, ← hdiffs]
    rw [← hfiles] at hread
    obtain ⟨hidle, rfl⟩ | ⟨hsome, hmode, rfl⟩ | ⟨hmode, files, hwrite, rfl⟩ := carryOut_cases hcarry
    · refine ⟨rfl, fun hmode hsome => ?_, fun hmode hwrite => ?_⟩
      · rcases hidle with hnone | ⟨hother, -⟩
        · exact absurd hnone hsome
        · exact absurd hmode hother
      · -- Without an applied fix the new text is the old one.
        have hnone : edit.applied = [] := by simpa [hwrite] using hidle
        have hsame := haccounts.substituted
        rw [hnone] at hsame
        rw [hread, ← Substituted.unique (.done 0 old) hsame, String.ofList_toList]
    · exact ⟨rfl, fun _ _ => rfl, fun hother _ => absurd hmode hother⟩
    · exact ⟨rfl, fun hother _ => absurd hother hmode, fun _ _ => Files.read_write hwrite⟩

/-- Three of six fixes are applied, two of them at one place: the others touch an inserted text, cut
a character in two, or end before they start. -/
theorem applyFile_substitutes_insertions :
    let insert (text : String) (i j : Nat) : Fix := ⟨"", text, i, j, .safe⟩
    let o : FixOutcome := .start { entries := [("a", "é;\n  b;")] }
    let pending := [("    ", 4, 6), ("x", 5, 5), ("y", 1, 2), (",", 3, 3), ("!", 2, 3),
      ("z", 6, 4)].map fun (text, i, j) => (⟨"a", 1, "layout", insert text i j⟩ : PendingFix)
    let after := applyFile ⟨false, .all, false⟩ o ("a", pending)
    o.files.read "a" = .ok "é;\n  b;"
    ∧ Substituted 0 "é;\n  b;".toList [insert "!" 2 3, insert "," 3 3, insert "x" 5 5]
      "é!,\n x b;".toList
    ∧ after.files.read "a" = .ok "é!,\n x b;" := by
  intro insert o pending after
  have hname : Path.IsName "a" := ⟨by decide, by decide, by decide, by decide⟩
  have hread : o.files.read "a" = .ok "é;\n  b;" :=
    Files.read_of_lookup (List.forall_mem_singleton.2 hname) hname (by decide) (by decide) rfl
  obtain ⟨-, -, hsubst, -, hafter⟩ :=
    applyFile_substitutes ⟨false, .all, false⟩ o "a" "é;\n  b;" pending hread
  have hfixes : (pending.map (·.fix)).filter (FixPolicy.allows ⟨false, .all, false⟩) =
      [insert "    " 4 6, insert "x" 5 5, insert "y" 1 2, insert "," 3 3, insert "!" 2 3,
        insert "z" 6 4] := rfl
  have hsort : [insert "    " 4 6, insert "x" 5 5, insert "y" 1 2, insert "," 3 3,
      insert "!" 2 3, insert "z" 6 4].mergeSort
        (fun a b => decide (b.startOffset ≤ a.startOffset)) =
      [insert "z" 6 4, insert "x" 5 5, insert "    " 4 6, insert "," 3 3, insert "!" 2 3,
        insert "y" 1 2] := by
    simp [insert, List.mergeSort, List.MergeSort.Internal.splitInTwo]
  have happlied : (Edit.applyAll "é;\n  b;".toList ((pending.map (·.fix)).filter
      (FixPolicy.allows ⟨false, .all, false⟩))).applied =
        [insert "!" 2 3, insert "," 3 3, insert "x" 5 5] := by
    rw [hfixes, Edit.applyAll, hsort]
    decide +kernel
  have hcontent : (Edit.applyAll "é;\n  b;".toList ((pending.map (·.fix)).filter
      (FixPolicy.allows ⟨false, .all, false⟩))).content = "é!,\n x b;".toList := by
    rw [hfixes, Edit.applyAll, hsort]
    decide +kernel
  have hsystem : o.files.systemContent? "a" = none := if_neg (by simp [hname.not_isAbsolute])
  have hnoerror : (applyFile ⟨false, .all, false⟩ o ("a", pending)).errors = o.errors :=
    errors_applyFile hread (Files.exists_write hsystem hread rfl)
  rw [happlied, hcontent] at hsubst
  refine ⟨hread, (hsubst _).2 rfl, ?_⟩
  rw [(hafter hnoerror).2.2 (by decide) rfl, hcontent, String.ofList_toList]

end FixOutcome

end TreeLayout
