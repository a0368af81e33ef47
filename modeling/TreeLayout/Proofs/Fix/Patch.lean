import TreeLayout.Fix.Diff
import TreeLayout.Proofs.Text.Lines

/-!
# Differences are patches

`WrittenHunk` is the hunk that the text of a difference spells out: the four numbers of its header
and its marked lines. `WrittenHunk.Patches` is what a patch tool asks of it: the numbers fit the
lines, the lines of the old side stand at the start that the header gives, and with the new side in
their place the old lines become the new ones. `Hunk.between?_cases` cuts two lists of lines into a
common beginning, what differs, and a common ending; the hunk that is computed keeps one line of
each of the common parts, and is a patch because of it (`Hunk.written_patches`).
-/

namespace TreeLayout

/-! ## Hunks as they are written -/

/-- What a line of a hunk is. -/
inductive LineMark where
  /-- A line of both texts. -/
  | context
  /-- A line of the old text only. -/
  | removed
  /-- A line of the new text only. -/
  | added
  deriving DecidableEq

/-- The sign before a line. -/
def LineMark.sign : LineMark → String
  | .context => " "
  | .removed => "-"
  | .added => "+"

/-- A hunk as it is written. -/
structure WrittenHunk where
  /-- The number of the first line in the old text, from one. -/
  oldStart : Nat
  /-- The number of lines that are said to be of the old text. -/
  oldCount : Nat
  /-- The number of the first line in the new text, from one. -/
  newStart : Nat
  /-- The number of lines that are said to be of the new text. -/
  newCount : Nat
  /-- The lines. -/
  body : List (LineMark × String)

namespace WrittenHunk

/-- The text of a hunk: its header, and each line behind its sign. -/
def text (h : WrittenHunk) : String :=
  "@@ -" ++ toString h.oldStart ++ "," ++ toString h.oldCount
    ++ " +" ++ toString h.newStart ++ "," ++ toString h.newCount ++ " @@\n"
    ++ String.join (h.body.map fun (mark, line) => mark.sign ++ line ++ "\n")

/-- The lines of the old text. -/
def oldSide (h : WrittenHunk) : List String :=
  (h.body.filter (·.1 ≠ .added)).map (·.2)

/-- The lines of the new text. -/
def newSide (h : WrittenHunk) : List String :=
  (h.body.filter (·.1 ≠ .removed)).map (·.2)

/-- A hunk turns old lines into new ones. -/
structure Patches (h : WrittenHunk) (old new : List String) : Prop where
  /-- No line of the body has a line end in it, so each is one line of the written text. -/
  unbroken : ∀ line ∈ h.body, '\n' ∉ line.2.toList
  /-- The header counts the lines of the old side. -/
  oldCount_eq : h.oldCount = h.oldSide.length
  /-- The header counts the lines of the new side. -/
  newCount_eq : h.newCount = h.newSide.length
  /-- Lines are counted from one, and none before the hunk change. -/
  start : 1 ≤ h.oldStart ∧ h.newStart = h.oldStart
  /-- The old side stands in the old text where the header says. -/
  stretch : (old.drop (h.oldStart - 1)).take h.oldCount = h.oldSide
  /-- With the new side in the place of the old one, the old lines are the new ones. -/
  replaced :
    old.take (h.oldStart - 1) ++ h.newSide ++ old.drop (h.oldStart - 1 + h.oldCount) = new

end WrittenHunk

/-! ## Common beginnings and endings -/

namespace Hunk

variable {old new : List String}

/-- The lines in common are the first ones of both texts. -/
theorem take_commonPrefix (old new : List String) :
    old.take (commonPrefix old new) = new.take (commonPrefix old new) := by
  induction old generalizing new with
  | nil => simp [commonPrefix]
  | cons a old ih =>
    cases new with
    | nil => simp [commonPrefix]
    | cons b new =>
      rw [commonPrefix]
      split
      · rename_i hab
        rw [List.take_succ_cons, List.take_succ_cons, hab, ih]
      · rfl

/-- No more lines are in common than there are. -/
theorem commonPrefix_le_length (old new : List String) : commonPrefix old new ≤ old.length := by
  induction old generalizing new with
  | nil => simp [commonPrefix]
  | cons a old ih =>
    cases new with
    | nil => simp [commonPrefix]
    | cons b new =>
      have hrest := ih new
      rw [commonPrefix, List.length_cons]
      split <;> omega

/-- All lines are in common with themselves. -/
theorem commonPrefix_self (lines : List String) : commonPrefix lines lines = lines.length := by
  induction lines with
  | nil => rfl
  | cons line lines ih => rw [commonPrefix, if_pos rfl, ih, List.length_cons]

/-- Two lists end in common in what their reversals begin with in common. -/
theorem drop_commonPrefix_reverse (old new : List String) :
    let tail := commonPrefix old.reverse new.reverse
    old.drop (old.length - tail) = new.drop (new.length - tail) := by
  intro tail
  have hreverse : ∀ lines : List String,
      lines.drop (lines.length - tail) = (lines.reverse.take tail).reverse := by
    intro lines
    rw [List.take_reverse, List.reverse_reverse]
  rw [hreverse, hreverse, take_commonPrefix]

/-- Two lists of lines in parts: what they begin with in common, of which the last line is context,
what differs, and what they end with in common, of which the first line is context. -/
theorem between?_cases (old new : List String) : ∃ first before removed added after rest,
    old = first ++ (before ++ removed ++ after) ++ rest
      ∧ new = first ++ (before ++ added ++ after) ++ rest
      ∧ (old = new → removed = [] ∧ added = [])
      ∧ between? old new =
        if removed = [] ∧ added = [] then none
        else some ⟨first.length, before, removed, added, after⟩ := by
  unfold between?
  dsimp only
  have hle := commonPrefix_le_length old new
  have htake := take_commonPrefix old new
  have hself : old = new → commonPrefix old new = old.length := by
    rintro rfl
    exact commonPrefix_self old
  generalize commonPrefix old new = common at hle htake hself ⊢
  have hdrop := drop_commonPrefix_reverse (old.drop common) (new.drop common)
  dsimp only at hdrop
  generalize commonPrefix (old.drop common).reverse (new.drop common).reverse = tail at hdrop ⊢
  -- The common beginning is cut before its last line, the common ending after its first.
  obtain ⟨first, before, hhead, hfirst, hbefore⟩ : ∃ first before,
      old.take common = first ++ before ∧ first.length = common - 1
        ∧ before = (old.take common).drop (common - 1) := by
    refine ⟨(old.take common).take (common - 1), _, (List.take_append_drop _ _).symm, ?_, rfl⟩
    rw [List.length_take, List.length_take]
    omega
  obtain ⟨after, rest, hending, hafter⟩ : ∃ after rest,
      (old.drop common).drop ((old.drop common).length - tail) = after ++ rest
        ∧ after = ((old.drop common).drop ((old.drop common).length - tail)).take 1 :=
    ⟨_, _, (List.take_append_drop _ _).symm, rfl⟩
  have hparts : ∀ lines : List String, lines.take common = first ++ before →
      (lines.drop common).drop ((lines.drop common).length - tail) = after ++ rest →
      lines = first ++ (before ++ (lines.drop common).take ((lines.drop common).length - tail)
        ++ after) ++ rest := by
    intro lines hlines hlast
    calc
      lines = lines.take common ++ ((lines.drop common).take ((lines.drop common).length - tail)
          ++ (lines.drop common).drop ((lines.drop common).length - tail)) := by
        rw [List.take_append_drop, List.take_append_drop]
      _ = _ := by
        rw [hlines, hlast]
        simp only [List.append_assoc]
  refine ⟨first, before, (old.drop common).take ((old.drop common).length - tail),
    (new.drop common).take ((new.drop common).length - tail), after, rest,
    hparts old hhead hending, hparts new (htake ▸ hhead) (hdrop ▸ hending), fun heq => ?_, ?_⟩
  · subst heq
    rw [hself rfl, List.drop_length]
    exact ⟨List.take_nil, List.take_nil⟩
  · rw [← hbefore, ← hafter, hfirst]
    simp only [Bool.and_eq_true, List.isEmpty_iff]

/-- Two texts have no hunk exactly if their lines are equal. -/
theorem between?_eq_none_iff : between? old new = none ↔ old = new := by
  obtain ⟨first, before, removed, added, after, rest, hold, hnew, hequal, hbetween⟩ :=
    between?_cases old new
  rw [hbetween]
  constructor
  · intro hnone
    split at hnone
    · rename_i hempty
      rw [hold, hnew, hempty.1, hempty.2]
    · cases hnone
  · intro heq
    rw [if_pos (hequal heq)]

/-! ## The computed hunk -/

/-- A hunk as it is written. -/
def written (h : Hunk) : WrittenHunk where
  oldStart := h.start + 1
  oldCount := h.oldCount
  newStart := h.start + 1
  newCount := h.newCount
  body := h.before.map (.context, ·) ++ h.removed.map (.removed, ·) ++ h.added.map (.added, ·)
    ++ h.after.map (.context, ·)

/-- What is written of a hunk is its text. -/
theorem text_written (h : Hunk) : h.written.text = h.render := by
  have hmarked : ∀ mark lines, String.join ((lines.map (mark, ·)).map
      fun (mark, line) => LineMark.sign mark ++ line ++ "\n") = marked mark.sign lines := by
    intro mark lines
    rw [List.map_map]
    rfl
  unfold WrittenHunk.text written render
  rw [List.map_append, List.map_append, List.map_append, String.join_append, String.join_append,
    String.join_append, hmarked, hmarked, hmarked, hmarked]
  simp only [String.append_assoc]
  rfl

/-- Lines of one mark are all of a side or none of it. -/
theorem map_filter_map (mark other : LineMark) (lines : List String) :
    ((lines.map (mark, ·)).filter (·.1 ≠ other)).map (·.2) =
      if mark = other then [] else lines := by
  induction lines with
  | nil => simp
  | cons line lines ih =>
    rw [List.map_cons, List.filter_cons]
    split <;> simp_all

/-- The old side of a written hunk is its context and what it removes. -/
theorem oldSide_written (h : Hunk) : h.written.oldSide = h.before ++ h.removed ++ h.after := by
  unfold WrittenHunk.oldSide written
  simp only [List.filter_append, List.map_append, map_filter_map]
  simp

/-- The new side of a written hunk is its context and what it adds. -/
theorem newSide_written (h : Hunk) : h.written.newSide = h.before ++ h.added ++ h.after := by
  unfold WrittenHunk.newSide written
  simp only [List.filter_append, List.map_append, map_filter_map]
  simp

/-- The header of a written hunk counts the lines of the old side. -/
theorem oldCount_written (h : Hunk) : h.written.oldCount = h.written.oldSide.length := by
  rw [oldSide_written, List.length_append, List.length_append]
  rfl

/-- The header of a written hunk counts the lines of the new side. -/
theorem newCount_written (h : Hunk) : h.written.newCount = h.written.newSide.length := by
  rw [newSide_written, List.length_append, List.length_append]
  rfl

/-- The computed hunk turns the old lines into the new ones. -/
theorem written_patches {h : Hunk} (hbetween : between? old new = some h)
    (hold : ∀ line ∈ old, '\n' ∉ line.toList) (hnew : ∀ line ∈ new, '\n' ∉ line.toList) :
    h.written.Patches old new := by
  obtain ⟨first, before, removed, added, after, rest, rfl, rfl, -, hcases⟩ :=
    between?_cases old new
  rw [hbetween] at hcases
  split at hcases
  · cases hcases
  obtain rfl := Option.some.inj hcases
  generalize hh : (⟨first.length, before, removed, added, after⟩ : Hunk) = h
  have hstart : h.written.oldStart - 1 = first.length := by rw [← hh]; rfl
  have holdSide : h.written.oldSide = before ++ removed ++ after := by rw [oldSide_written, ← hh]
  have hnewSide : h.written.newSide = before ++ added ++ after := by rw [newSide_written, ← hh]
  refine ⟨?_, oldCount_written h, newCount_written h, ⟨Nat.succ_pos _, rfl⟩, ?_, ?_⟩
  · intro line hline
    rw [← hh] at hline
    simp only [written, List.mem_append, List.mem_map] at hline
    obtain ((⟨l, hl, rfl⟩ | ⟨l, hl, rfl⟩) | ⟨l, hl, rfl⟩) | ⟨l, hl, rfl⟩ := hline
    · exact hold l (by simp [hl])
    · exact hold l (by simp [hl])
    · exact hnew l (by simp [hl])
    · exact hold l (by simp [hl])
  · rw [oldCount_written, hstart, ← holdSide, List.append_assoc, List.drop_left, List.take_left]
  · rw [oldCount_written, hstart, ← holdSide, ← hnewSide, ← List.length_append, List.drop_left,
      List.append_assoc first, List.take_left]

/-- A line between two equal lines is put in; it is not taken for one of them. -/
example : between? ["a;", "a;"] ["a;", "b;", "a;"] =
    some ⟨0, ["a;"], [], ["b;"], ["a;"]⟩ := by
  decide

end Hunk

/-! ## The text of a difference -/

namespace FileDiff

/-- The lines of a text have no line end in them. -/
theorem newline_not_mem_of_mem_linesOf {content : List Char} {line : String}
    (h : line ∈ linesOf content) : '\n' ∉ line.toList := by
  obtain ⟨cs, hcs, rfl⟩ := List.mem_map.1 h
  rw [String.toList_ofList]
  exact Text.newline_not_mem_of_mem_lines hcs

/-- A text with a hunk after it is another text. -/
theorem append_text_ne (s : String) (h : WrittenHunk) : s ++ h.text ≠ s := by
  intro heq
  have hlength := congrArg String.length heq
  have hsign : 0 < "@@ -".length := by decide
  unfold WrittenHunk.text at hlength
  simp only [String.length_append] at hlength
  omega

/-- The lines at the start of a difference, which name the file. -/
def heading (file : String) : String := "--- a/" ++ file ++ "\n+++ b/" ++ file ++ "\n"

/-- The text of a difference ends after the two lines that name the file exactly if both texts have
the same lines. Else one hunk follows, and it turns the lines of the original into those of the
modified text. -/
theorem render_between_patches (file original modified : String) :
    ((between file original.toList modified.toList).render = heading file ↔
        linesOf original.toList = linesOf modified.toList)
      ∧ (linesOf original.toList = linesOf modified.toList
        ∨ ∃ h : WrittenHunk,
          (between file original.toList modified.toList).render = heading file ++ h.text
            ∧ h.Patches (linesOf original.toList) (linesOf modified.toList)) := by
  have htext : (between file original.toList modified.toList).render = heading file ++
      ((Hunk.between? (linesOf original.toList) (linesOf modified.toList)).map
        Hunk.render).getD "" :=
    rfl
  cases hbetween : Hunk.between? (linesOf original.toList) (linesOf modified.toList) with
  | none =>
    have heq := Hunk.between?_eq_none_iff.1 hbetween
    rw [hbetween] at htext
    exact ⟨⟨fun _ => heq, fun _ => htext.trans String.append_empty⟩, .inl heq⟩
  | some h =>
    have hne : linesOf original.toList ≠ linesOf modified.toList := fun heq => by
      rw [Hunk.between?_eq_none_iff.2 heq] at hbetween
      cases hbetween
    have hhunk : (between file original.toList modified.toList).render =
        heading file ++ h.written.text := by
      rw [htext, hbetween, Hunk.text_written]
      rfl
    refine ⟨⟨fun hhead => ?_, fun heq => absurd heq hne⟩, .inr ⟨h.written, hhunk, ?_⟩⟩
    · exact absurd (hhunk.symm.trans hhead) (append_text_ne (heading file) h.written)
    · exact Hunk.written_patches hbetween (fun _ => newline_not_mem_of_mem_linesOf)
        fun _ => newline_not_mem_of_mem_linesOf

end FileDiff

end TreeLayout
