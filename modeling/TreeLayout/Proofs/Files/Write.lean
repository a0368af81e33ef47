import TreeLayout.Files

/-!
# Files after a write

Writing to a file changes its content and no name, so paths lead where they led before
(`resolve_write`), and the file reads as what was written to it (`read_write`).
-/

namespace TreeLayout.Files

variable {fs fs' : Files} {path content : String}

/-- The files with a new content for every entry at one place. -/
def replaced (fs : Files) (names : List String) (content : String) : Files :=
  { fs with
    entries := fs.entries.map fun (file, old) =>
      if namesOf file == names then (file, content) else (file, old) }

/-- Files of the system are not written. -/
theorem systemContent?_of_write (h : fs.write path content = .ok fs') :
    fs.systemContent? path = none := by
  rw [write] at h
  split at h
  · cases h
  · rename_i hsystem
    exact Option.not_isSome_iff_eq_none.1 hsystem

/-- A write replaces the content of all entries at one place. -/
theorem write_eq_ok (h : fs.write path content = .ok fs') :
    ∃ names old, fs.locate path = .ok (names, old) ∧ fs' = fs.replaced names content := by
  rw [write, systemContent?_of_write h, if_neg (by simp)] at h
  cases hlocate : fs.locate path with
  | error e =>
    rw [hlocate] at h
    cases h
  | ok found =>
    obtain ⟨names, old⟩ := found
    rw [hlocate] at h
    simp only [bind, Except.bind] at h
    split at h
    · cases h
    · cases h
      exact ⟨names, old, rfl, rfl⟩

/-- A file that is read can be written, unless it is a file of the system or some files may not be
written. -/
theorem exists_write {old : String} (hsystem : fs.systemContent? path = none)
    (hread : fs.read path = .ok old) (hwritable : fs.readOnly = []) (content : String) :
    ∃ fs', fs.write path content = .ok fs' := by
  rw [read, find, hsystem] at hread
  cases hlocate : fs.locate path with
  | error e =>
    rw [hlocate] at hread
    cases hread
  | ok found =>
    rw [write, hsystem, hlocate, hwritable]
    exact ⟨_, rfl⟩

section Names

/-- Both collections have the same names, in the same order. -/
def SameNames (fs fs' : Files) : Prop := fs'.entries.map Prod.fst = fs.entries.map Prod.fst

/-- A write keeps the names. -/
theorem sameNames_write (h : fs.write path content = .ok fs') : SameNames fs fs' := by
  obtain ⟨names, old, -, rfl⟩ := write_eq_ok h
  unfold SameNames replaced
  rw [List.map_map]
  refine List.map_congr_left fun entry _ => ?_
  simp only [Function.comp_apply]
  split <;> rfl

/-- The names say where directories are. -/
theorem isDirAt_eq (h : SameNames fs fs') (names : List String) :
    fs'.isDirAt names = fs.isDirAt names := by
  have hany : ∀ files : Files, files.isDirAt names = (names.isEmpty ||
      (files.entries.map Prod.fst).any fun file =>
        names.isPrefixOf (namesOf file) && decide (names.length < (namesOf file).length)) := by
    intro files
    rw [isDirAt, List.any_map]
    rfl
  rw [hany, hany, h]

/-- The names say where files are. -/
theorem isNone_contentAt?_eq (h : SameNames fs fs') (names : List String) :
    (fs'.contentAt? names).isNone = (fs.contentAt? names).isNone := by
  have hany : ∀ files : Files, (files.contentAt? names).isNone =
      !(files.entries.map Prod.fst).any fun file => namesOf file == names := by
    intro files
    rw [contentAt?, Option.isNone_map, ← Option.not_isSome, List.isSome_find?, List.any_map]
    rfl
  rw [hany, hany, h]

/-- The names say where paths lead. -/
theorem follow_eq (h : SameNames fs fs') (place : Place) (pieces : List String) :
    fs'.follow place pieces = fs.follow place pieces := by
  induction pieces generalizing place with
  | nil => rw [follow, follow]
  | cons piece rest ih =>
    rw [follow.eq_def fs', follow.eq_def fs]
    simp only [isDirAt_eq h, isNone_contentAt?_eq h, ih]

/-- A path leads to the same place among files with the same names. -/
theorem resolve_eq (h : SameNames fs fs') (path : String) : fs'.resolve path = fs.resolve path := by
  unfold resolve
  simp only [follow_eq h]

end Names

/-- The first entry at a place gets the new content. -/
theorem contentAt?_replaced {names : List String} {old : String}
    (h : fs.contentAt? names = some old) :
    (fs.replaced names content).contentAt? names = some content := by
  obtain ⟨entry, hentry, -⟩ := Option.map_eq_some_iff.1 h
  have hname := List.find?_some hentry
  simp only at hname
  unfold contentAt? replaced
  rw [List.find?_map]
  -- A replaced entry keeps its name, so the search finds the same entry.
  have hkeeps : ∀ e : String × String,
      (namesOf (if namesOf e.1 == names then (e.1, content) else e).1 == names) =
        (namesOf e.1 == names) := by
    intro e
    split <;> rfl
  simp only [Function.comp_def, hkeeps, hentry, Option.map_some, if_pos hname]

/-- A file reads as what was written to it. -/
theorem read_write (h : fs.write path content = .ok fs') : fs'.read path = .ok content := by
  have hresolve := resolve_eq (sameNames_write h) path
  have hsystem := systemContent?_of_write h
  obtain ⟨names, old, hlocate, rfl⟩ := write_eq_ok h
  unfold locate at hlocate
  split at hlocate
  · cases hlocate
  · cases hlocate
  · rename_i hplace
    split at hlocate
    · rename_i hcontent
      cases hlocate
      have hnew : (fs.replaced names content).contentAt? names = some content :=
        contentAt?_replaced hcontent
      -- The files of the system are the same before and after.
      have hfind : (fs.replaced names content).systemContent? path = none := hsystem
      unfold read find locate
      rw [hfind, hresolve, hplace]
      simp only [hnew]
      rfl
    · cases hlocate

end TreeLayout.Files
