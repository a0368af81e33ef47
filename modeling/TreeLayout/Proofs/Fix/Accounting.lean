import Mathlib.Algebra.Order.BigOperators.Group.List
import Mathlib.Algebra.Order.Group.Nat
import Mathlib.Algebra.Ring.Nat
import TreeLayout.Proofs.Fix.Substitution

/-!
# The counts of a run of fixes

Each pending fix ends in one of four counts: it is skipped, fails, overlaps or is applied, and an
applied one is counted once more by its safety. An edit makes its counts before its text is written;
if the file then cannot be written, all its fixes are counted as failed on top of them.
`FixOutcome.unwritten` lists the edits of a run to which that happens, and `FixOutcome.Balanced`
says that the counts are right but for these. It is kept by one file (`Balanced.applyFile`), through
the three ways that a file can end, and so by a run (`Balanced.foldl`).
-/

namespace TreeLayout

/-! ## Groups -/

namespace Path

variable {α : Type}

/-- An element that is put into its group makes the groups one element longer. -/
theorem sum_length_insertGroup (p : String) (a : α) (groups : List (String × List α)) :
    ((insertGroup p a groups).map (·.2.length)).sum = (groups.map (·.2.length)).sum + 1 := by
  induction groups with
  | nil => rfl
  | cons group groups ih =>
    obtain ⟨first, items⟩ := group
    rw [insertGroup]
    split
    · simp only [List.map_cons, List.sum_cons, List.length_append, List.length_singleton]
      omega
    · simp only [List.map_cons, List.sum_cons, ih]
      omega

/-- Grouping loses no item and makes none. -/
theorem sum_length_group (path : α → String) (items : List α) :
    ((group path items).map (·.2.length)).sum = items.length := by
  have hfold : ∀ groups : List (String × List α),
      ((items.foldl (fun groups a => insertGroup (path a) a groups) groups).map
        (·.2.length)).sum = (groups.map (·.2.length)).sum + items.length := by
    induction items with
    | nil => exact fun _ => rfl
    | cons a items ih =>
      intro groups
      rw [List.foldl_cons, ih, sum_length_insertGroup, List.length_cons]
      omega
  rw [group, ((List.mergeSort_perm _ _).map _).sum_eq, hfold]
  simp

end Path

/-! ## One edit -/

/-- Each fix that is tried on a text is applied, overlaps or does not fit. -/
theorem Edit.length_applyAll (old : List Char) (fixes : List Fix) :
    (applyAll old fixes).applied.length + (applyAll old fixes).overlapping
      + (applyAll old fixes).misfits = fixes.length := by
  obtain ⟨overlapping, misfits, hperm, hoverlapping, hmisfits, -⟩ :=
    (accounts_applyAll old fixes).refused
  have hlength := hperm.length_eq
  rw [List.length_append, List.length_append] at hlength
  omega

namespace FixOutcome

variable {p : FixPolicy} {o : FixOutcome} {n : Nat} {lost : List Edit}

/-! ## Edits that are not written -/

/-- An edit changes its file: at least one fix is applied, and files are written. -/
def Writes (p : FixPolicy) (e : Edit) : Prop :=
  e.applied ≠ [] ∧ p.mode ≠ .diff ∧ p.dryRun = false

instance (p : FixPolicy) (e : Edit) : Decidable (Writes p e) :=
  inferInstanceAs (Decidable (_ ∧ _ ∧ _))

/-- The edit of a file whose new text is to be written, and cannot be. -/
def unwritten? (p : FixPolicy) (files : Files) (group : String × List PendingFix) : Option Edit := do
  let content ← (files.read group.1).toOption
  let edit := Edit.applyAll content.toList ((group.2.map (·.fix)).filter p.allows)
  match files.write group.1 (String.ofList edit.content) with
  | .ok _ => none
  | .error _ => if Writes p edit then some edit else none

/-- The edits of several files that are not written; later files are read as the earlier ones left
them. -/
def unwritten (p : FixPolicy) (o : FixOutcome) : List (String × List PendingFix) → List Edit
  | [] => []
  | group :: groups =>
    (unwritten? p o.files group).toList ++ unwritten p (applyFile p o group) groups

/-- An edit that is not written was to be written. -/
theorem writes_of_unwritten? {files : Files} {group : String × List PendingFix} {e : Edit}
    (h : unwritten? p files group = some e) : Writes p e := by
  obtain ⟨content, -, h⟩ := Option.bind_eq_some_iff.1 h
  dsimp only at h
  split at h
  · cases h
  · obtain ⟨hwrites, h⟩ := Option.ite_none_right_eq_some.1 h
    exact Option.some.inj h ▸ hwrites

/-- All edits that are not written were to be written. -/
theorem writes_of_mem_unwritten {groups : List (String × List PendingFix)} {e : Edit}
    (h : e ∈ unwritten p o groups) : Writes p e := by
  induction groups generalizing o with
  | nil => cases h
  | cons group groups ih =>
    rcases List.mem_append.1 h with h | h
    · exact writes_of_unwritten? (Option.mem_toList.1 h)
    · exact ih h

/-- The change of a file fails exactly if its edit is to be written and cannot be. -/
theorem carryOut_eq_error_iff {file : String} {old : List Char} {e : Edit} {err : FileError} :
    carryOut p file old e o = .error err ↔
      Writes p e ∧ o.files.write file (String.ofList e.content) = .error err := by
  unfold carryOut Writes
  by_cases hnone : e.applied = []
  · simp [hnone]
  by_cases hmode : p.mode = .diff
  · simp [hnone, hmode]
  by_cases hdry : p.dryRun = true
  · simp [hnone, hmode, hdry]
  cases o.files.write file (String.ofList e.content) with
  | error _ => simp [hnone, hmode, hdry, Except.map]
  | ok _ => simp [hnone, hmode, hdry, Except.map]

/-- Where a change is carried out, nothing is left unwritten. -/
theorem not_writes_of_carryOut {file : String} {old : List Char} {e : Edit} {o' : FixOutcome}
    {err : FileError} (hcarry : carryOut p file old e o = .ok o')
    (hwrite : o.files.write file (String.ofList e.content) = .error err) : ¬Writes p e := by
  intro hwrites
  rw [carryOut_eq_error_iff.2 ⟨hwrites, hwrite⟩] at hcarry
  cases hcarry

/-! ## The balance -/

/-- The counts after `n` pending fixes, where the edits of `lost` were not written: each fix is in
one of the four counts and each applied one is counted by its safety, but what the lost edits
counted before the write counts a second time. -/
structure Balanced (o : FixOutcome) (n : Nat) (lost : List Edit) : Prop where
  /-- What became of the fixes. -/
  fate : o.applied + o.failed + o.overlapping + o.skipped
    = n + (lost.map fun e => e.overlapping + e.misfits).sum
  /-- The safety of the applied ones. -/
  safety : o.safeApplied + o.riskyApplied = o.applied + (lost.map fun e => e.applied.length).sum

/-- Before any fix the counts are balanced. -/
theorem balanced_start (files : Files) : (start files).Balanced 0 [] := ⟨rfl, rfl⟩

section Steps

variable {edit : Edit} {k : Nat}

/-- Fixes that are not allowed are skipped. -/
theorem Balanced.skip (h : o.Balanced n lost) (k : Nat) :
    Balanced { o with skipped := o.skipped + k } (n + k) lost := by
  obtain ⟨hfate, hsafety⟩ := h
  exact ⟨by dsimp only; omega, hsafety⟩

/-- A file that cannot be read fails all its fixes. -/
theorem Balanced.fail (h : o.Balanced n lost) (file : String) (k : Nat) (e : FileError) :
    (o.fail file k e).Balanced (n + k) lost := by
  obtain ⟨hfate, hsafety⟩ := h
  exact ⟨by dsimp only [FixOutcome.fail]; omega, hsafety⟩

/-- The applied fixes of an edit are safe or risky. -/
theorem countP_isSafe_add (edit : Edit) :
    edit.applied.countP Fix.isSafe + edit.applied.countP (fun f => !f.isSafe)
      = edit.applied.length := by
  have hlength := List.length_eq_countP_add_countP Fix.isSafe (l := edit.applied)
  simp only [Bool.not_eq_true, Bool.decide_eq_false] at hlength
  exact hlength.symm

/-- A file whose change is carried out counts each of its fixes once. -/
theorem Balanced.carriedOut (h : o.Balanced n lost) {file : String} {old : List Char}
    {o' : FixOutcome} (hcarry : carryOut p file old edit (o.tried edit) = .ok o')
    (hk : edit.applied.length + edit.overlapping + edit.misfits = k) :
    (o'.done edit).Balanced (n + k) lost := by
  obtain ⟨hfate, hsafety⟩ := h
  have hsafe := countP_isSafe_add edit
  have hcounts : o'.applied = o.applied ∧ o'.failed = o.failed + edit.misfits
      ∧ o'.overlapping = o.overlapping + edit.overlapping ∧ o'.skipped = o.skipped
      ∧ o'.safeApplied + o'.riskyApplied
        = o.safeApplied + o.riskyApplied + edit.applied.length := by
    obtain ⟨-, rfl⟩ | ⟨-, -, rfl⟩ | ⟨-, files, -, rfl⟩ := carryOut_cases hcarry <;>
      exact ⟨rfl, rfl, rfl, rfl, by dsimp only [FixOutcome.tried]; omega⟩
  obtain ⟨happlied, hfailed, hoverlapping, hskipped, hclasses⟩ := hcounts
  have hdone : (o'.done edit).failed = o'.failed ∧ (o'.done edit).overlapping = o'.overlapping
      ∧ (o'.done edit).skipped = o'.skipped ∧ (o'.done edit).safeApplied = o'.safeApplied
      ∧ (o'.done edit).riskyApplied = o'.riskyApplied := by
    unfold FixOutcome.done
    split <;> exact ⟨rfl, rfl, rfl, rfl, rfl⟩
  obtain ⟨hf, ho, hs, hsafeApplied, hriskyApplied⟩ := hdone
  constructor
  · rw [applied_done, hf, ho, hs]
    omega
  · rw [applied_done, hsafeApplied, hriskyApplied]
    omega

/-- A file that cannot be written counts what its edit did and then all its fixes as failed. -/
theorem Balanced.unwritten (h : o.Balanced n lost) (file : String) (e : FileError)
    (hk : edit.applied.length + edit.overlapping + edit.misfits = k) :
    ((o.tried edit).fail file k e).Balanced (n + k) (lost ++ [edit]) := by
  obtain ⟨hfate, hsafety⟩ := h
  have hsafe := countP_isSafe_add edit
  constructor <;>
  · simp only [FixOutcome.fail, FixOutcome.tried, List.map_append, List.sum_append, List.map_cons,
      List.map_nil, List.sum_cons, List.sum_nil]
    omega

end Steps

/-- One file adds its pending fixes, and its edit if that is not written. -/
theorem Balanced.applyFile (h : o.Balanced n lost) (group : String × List PendingFix) :
    (applyFile p o group).Balanced (n + group.2.length)
      (lost ++ (unwritten? p o.files group).toList) := by
  obtain ⟨file, pending⟩ := group
  have hle : ((pending.map (·.fix)).filter p.allows).length ≤ pending.length :=
    (List.length_filter_le _ _).trans_eq (List.length_map _)
  unfold FixOutcome.applyFile unwritten?
  dsimp only
  generalize (pending.map (·.fix)).filter p.allows = fixes at hle ⊢
  have hskip := h.skip (pending.length - fixes.length)
  have hn : n + pending.length = n + (pending.length - fixes.length) + fixes.length := by omega
  rw [hn]
  generalize hskipped : { o with skipped := o.skipped + (pending.length - fixes.length) } = skipped
    at hskip ⊢
  have hfiles : skipped.files = o.files := by rw [← hskipped]
  rw [← hfiles]
  cases skipped.files.read file with
  | error e =>
    rw [Except.toOption, Option.bind_eq_bind, Option.bind_none, Option.toList_none, List.append_nil]
    split
    · rename_i hnone
      obtain rfl := List.isEmpty_iff.1 hnone
      exact hskip
    · exact hskip.fail file fixes.length e
  | ok content =>
    rw [Except.toOption, Option.bind_eq_bind, Option.bind_some]
    have hedit := Edit.length_applyAll content.toList fixes
    dsimp only
    generalize Edit.applyAll content.toList fixes = edit at hedit ⊢
    split
    · rename_i hnone
      obtain rfl := List.isEmpty_iff.1 hnone
      rw [List.length_nil] at hedit
      have hidle : ¬Writes p edit := fun hwrites => hwrites.1 (List.length_eq_zero_iff.1 (by omega))
      rw [if_neg hidle]
      split <;> simpa using hskip
    cases hcarry : carryOut p file content.toList edit (skipped.tried edit) with
    | ok o' =>
      have hdone := hskip.carriedOut hcarry hedit
      cases hwrite : skipped.files.write file (String.ofList edit.content) with
      | ok files => simpa using hdone
      | error e =>
        have hidle : ¬Writes p edit := not_writes_of_carryOut hcarry hwrite
        simpa [hidle] using hdone
    | error e =>
      obtain ⟨hwrites, hwrite⟩ := carryOut_eq_error_iff.1 hcarry
      have hwrite : skipped.files.write file (String.ofList edit.content) = .error e := hwrite
      rw [hwrite]
      dsimp only
      rw [if_pos hwrites, Option.toList_some]
      exact hskip.unwritten file e hedit

/-- Several files add all their pending fixes, and the edits that are not written. -/
theorem Balanced.foldl (h : o.Balanced n lost) (groups : List (String × List PendingFix)) :
    (groups.foldl (FixOutcome.applyFile p) o).Balanced (n + (groups.map (·.2.length)).sum)
      (lost ++ FixOutcome.unwritten p o groups) := by
  induction groups generalizing o n lost with
  | nil => simpa [FixOutcome.unwritten] using h
  | cons group groups ih =>
    have hrest := ih (h.applyFile (p := p) group)
    rw [List.append_assoc, Nat.add_assoc] at hrest
    exact hrest

/-- A run of fixes counts each pending fix once, as skipped, failed, overlapping or applied, and
each applied one once by its safety, whatever the policy and whether files can be read; only the
edits that are to be written and cannot be are counted a second time, by what they did before the
write. So the counts add up exactly if every edit that is to be written can be, and in a run that
writes nothing they always do. -/
theorem applyFixes_accounts (p : FixPolicy) (files : Files) (pending : List PendingFix) :
    let o := applyFixes p files pending
    let lost := unwritten p (.start files) (Path.group (·.file) pending)
    o.applied + o.failed + o.overlapping + o.skipped
        = pending.length + (lost.map fun e => e.overlapping + e.misfits).sum
      ∧ o.safeApplied + o.riskyApplied = o.applied + (lost.map fun e => e.applied.length).sum
      ∧ (o.applied + o.failed + o.overlapping + o.skipped = pending.length
          ∧ o.safeApplied + o.riskyApplied = o.applied ↔ lost = [])
      ∧ (p.mode = .diff ∨ p.dryRun = true → lost = []) := by
  intro o lost
  have hbalance : o.Balanced pending.length lost := by
    have hrun := (balanced_start files).foldl (p := p) (Path.group (·.file) pending)
    rwa [Nat.zero_add, Path.sum_length_group, List.nil_append] at hrun
  obtain ⟨hfate, hsafety⟩ := hbalance
  have hwrites : ∀ e ∈ lost, Writes p e := fun e he => writes_of_mem_unwritten he
  refine ⟨hfate, hsafety, ⟨fun hadds => ?_, fun hnone => ?_⟩, fun hidle => ?_⟩
  · -- A lost edit has an applied fix, so the safety of the applied ones does not add up.
    by_contra hsome
    obtain ⟨e, he⟩ := List.exists_mem_of_ne_nil lost hsome
    have hpos := List.length_pos_iff.2 (hwrites e he).1
    have hle := List.le_sum_of_mem (List.mem_map_of_mem (f := fun e => e.applied.length) he)
    omega
  · rw [hnone] at hfate hsafety
    exact ⟨hfate, hsafety⟩
  · refine List.eq_nil_iff_forall_not_mem.2 fun e he => ?_
    obtain ⟨-, hmode, hdry⟩ := hwrites e he
    rcases hidle with hidle | hidle
    · exact hmode hidle
    · rw [hdry] at hidle
      cases hidle

/-- A file whose change is not written counts what was tried, and then all its fixes as failed. -/
theorem applyFile_eq_fail {file content : String} {pending : List PendingFix} {fixes : List Fix}
    {edit : Edit} {err : FileError} (hread : o.files.read file = .ok content)
    (hfixes : (pending.map (·.fix)).filter p.allows = fixes)
    (hedit : Edit.applyAll content.toList fixes = edit) (hwrites : Writes p edit)
    (hwrite : o.files.write file (String.ofList edit.content) = .error err) :
    applyFile p o (file, pending) =
      (FixOutcome.tried { o with skipped := o.skipped + (pending.length - fixes.length) }
        edit).fail file fixes.length err := by
  have hsome : ¬ fixes.isEmpty = true := by
    intro hnone
    have hlength := Edit.length_applyAll content.toList fixes
    rw [hedit, List.isEmpty_iff.1 hnone, List.length_nil] at hlength
    exact hwrites.1 (List.length_eq_zero_iff.1 (by omega))
  have hcarry : carryOut p file content.toList edit
      (FixOutcome.tried { o with skipped := o.skipped + (pending.length - fixes.length) } edit) =
        .error err := carryOut_eq_error_iff.2 ⟨hwrites, hwrite⟩
  unfold applyFile
  simp only [hfixes, hread, hedit, hcarry, if_neg hsome]

/-- Two fixes at the start of a file of the system, which can be read and not written, are counted as
one that is applied safely, one that overlaps and two that failed. -/
theorem applyFixes_counts_unwritten :
    let path := "/proc/self/uid_map"
    let files : Files := { entries := [], system := [(path, "         0          0 4294967295\n")] }
    let insert : Fix := ⟨"d", " ", 0, 0, .safe⟩
    let pending : List PendingFix := [⟨path, 1, "column", insert⟩, ⟨path, 1, "column", insert⟩]
    let o := applyFixes (.start false) files pending
    o.applied + o.failed + o.overlapping + o.skipped ≠ pending.length
      ∧ o.safeApplied + o.riskyApplied ≠ o.applied := by
  intro path files insert pending o
  have hgroup : Path.group (·.file) pending = [(path, pending)] := by
    simp [Path.group, Path.insertGroup, Path.same, pending]
  have ho : o = applyFile (.start false) (.start files) (path, pending) := by
    unfold o applyFixes
    rw [hgroup]
    rfl
  have hread : files.read path = .ok "         0          0 4294967295\n" := by
    decide +kernel
  obtain ⟨edit, hedit, happlied, hoverlapping, hmisfits⟩ :
      ∃ edit, Edit.applyAll "         0          0 4294967295\n".toList [insert, insert] = edit ∧
        edit.applied = [insert] ∧ edit.overlapping = 1 ∧ edit.misfits = 0 := by
    refine ⟨_, rfl, ?_⟩
    rw [Edit.applyAll, List.mergeSort_of_pairwise (by simp [insert])]
    decide +kernel
  have hfixes : (pending.map (·.fix)).filter (FixPolicy.allows (.start false)) = [insert, insert] :=
    rfl
  have hwrites : Writes (.start false) edit :=
    ⟨by rw [happlied]; exact List.cons_ne_nil _ _, by decide, rfl⟩
  have hsystem : (files.systemContent? path).isSome = true := by decide +kernel
  have hfile := ho.trans (applyFile_eq_fail hread hfixes hedit hwrites (if_pos hsystem))
  -- Both fixes fail after one of them was counted as applied and the other one as overlapping.
  have hfate : o.applied + o.failed + o.overlapping + o.skipped = 3 := by
    rw [hfile]
    simp [FixOutcome.fail, FixOutcome.tried, FixOutcome.start, pending, hoverlapping, hmisfits]
  have hsafety : o.safeApplied + o.riskyApplied = 1 := by
    rw [hfile]
    simp [FixOutcome.fail, FixOutcome.tried, FixOutcome.start, happlied, insert, Fix.isSafe]
  have hnone : o.applied = 0 := by
    rw [hfile]
    rfl
  rw [hfate, hsafety, hnone]
  exact ⟨by decide, by decide⟩

end FixOutcome

end TreeLayout
