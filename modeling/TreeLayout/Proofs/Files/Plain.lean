import TreeLayout.Files
import TreeLayout.Proofs.Text.Pieces

/-!
# Files in the directory itself

A name that is no path leads to the file of that name in the directory. `Files.read_of_isName` reads
such a file, and `Path.IsName.parent?` says that names next to each other need no directory.
-/

namespace TreeLayout

/-- A text that names something in a directory. -/
structure Path.IsName (s : String) : Prop where
  /-- The text has no slashes. -/
  no_slash : '/' ∉ s.toList
  /-- The text is not empty. -/
  ne_empty : s ≠ ""
  /-- The text does not stand for the directory. -/
  ne_current : s ≠ "."
  /-- The text does not stand for the directory above. -/
  ne_parent : s ≠ ".."

namespace Path.IsName

variable {s : String}

/-- A name is its only piece. -/
theorem splitOn (h : IsName s) : s.splitOn "/" = [s] := by
  rw [Text.splitOn_slash, List.splitOn_eq_singleton h.no_slash]
  exact congrArg (fun text => [text]) String.ofList_toList

/-- A name has characters. -/
theorem isEmpty (h : IsName s) : s.isEmpty = false := by
  rw [Bool.eq_false_iff, ne_eq, String.isEmpty_iff]
  exact h.ne_empty

/-- A name does not start at the root. -/
theorem not_isAbsolute (h : IsName s) : isAbsolute s = false := by
  rw [isAbsolute, Bool.eq_false_iff, ne_eq, String.startsWith_string_iff]
  rintro ⟨rest, hrest⟩
  exact h.no_slash (hrest ▸ List.mem_cons_self)

/-- A name is a component of its own. -/
theorem componentOf? (h : IsName s) (start : Bool) :
    Path.componentOf? start s = some (.name s) := by
  simp only [Path.componentOf?, h.isEmpty, beq_false_of_ne h.ne_current,
    beq_false_of_ne h.ne_parent, Bool.false_eq_true, if_false]

/-- A name is its own file name. -/
theorem fileName? (h : IsName s) : Path.fileName? s = some s := by
  have hcomponents : components s = [.name s] := by
    rw [components, h.splitOn]
    simp [h.isEmpty, h.componentOf?]
  rw [Path.fileName?, hcomponents]
  rfl

/-- The extension of a name is its last piece between dots. -/
theorem extension? (h : IsName s) :
    Path.extension? s =
      match ((s.toList.splitOn '.').map String.ofList).reverse with
      | last :: before => if before.isEmpty || before == [""] then none else some last
      | [] => none := by
  rw [← Text.splitOn_dot]
  change (Path.fileName? s >>= _) = _
  rw [h.fileName?]
  rfl

/-- A name lies in the directory itself. -/
theorem parent? (h : IsName s) : Path.parent? s = some "" := by
  have hpieces : markedPieces s = [(s, true)] := by
    rw [markedPieces, h.splitOn]
    simp only [h.componentOf?, Option.isSome_some, List.map_nil]
  rw [Path.parent?, hpieces]
  simp [trimPieces, h.not_isAbsolute]

end Path.IsName

namespace Files

variable {fs : Files} {name path content : String}

/-- The way to a name is the name. -/
theorem namesOf_of_isName (h : Path.IsName name) : namesOf name = [name] := by
  rw [namesOf, h.splitOn]
  simp [h.isEmpty, h.ne_current]

/-- A name is looked for in the directory itself. -/
theorem resolve_of_isName (h : Path.IsName name) (hnul : '\x00' ∉ name.toList) :
    fs.resolve name = fs.follow (.inside []) [name] := by
  have hnone : ¬ name.contains '\x00' = true := by
    simpa using hnul
  have hempty : ¬ name.isEmpty = true := Bool.not_eq_true _ ▸ h.isEmpty
  rw [resolve, if_neg hnone, if_neg hempty, h.not_isAbsolute, h.splitOn]
  rfl

/-- What is relative to the directory is no file of the system. -/
theorem find_of_not_isAbsolute (h : Path.isAbsolute path = false) :
    fs.find path = (fs.locate path).map fun (names, content) => (.below names, content) := by
  rw [find, systemContent?, h]
  rfl

/-- A name leads to the file of that name. -/
theorem read_of_isName (h : Path.IsName name) (hnul : '\x00' ∉ name.toList)
    (hsize : name.utf8ByteSize ≤ nameBound) (hdir : fs.isDirAt [name] = false)
    (hcontent : fs.contentAt? [name] = some content) : fs.read name = .ok content := by
  have hresolve : fs.resolve name = .ok (.inside [name]) := by
    rw [resolve_of_isName h hnul]
    simp [follow, h.isEmpty, h.ne_current, h.ne_parent, Nat.not_lt.2 hsize, hdir, hcontent]
  rw [read, find_of_not_isAbsolute h.not_isAbsolute, locate, hresolve]
  simp only [hcontent, Except.map]

/-- A name that neither a file nor a directory has leads to nothing. -/
theorem read_of_isName_of_eq_none (h : Path.IsName name) (hnul : '\x00' ∉ name.toList)
    (hsize : name.utf8ByteSize ≤ nameBound) (hdir : fs.isDirAt [name] = false)
    (hcontent : fs.contentAt? [name] = none) : fs.read name = .error .notFound := by
  have hresolve : fs.resolve name = .error .notFound := by
    rw [resolve_of_isName h hnul]
    simp [follow, h.isEmpty, h.ne_current, h.ne_parent, Nat.not_lt.2 hsize, hdir, hcontent]
  rw [read, find_of_not_isAbsolute h.not_isAbsolute, locate, hresolve]
  rfl

section Entries

variable (h : ∀ entry ∈ fs.entries, Path.IsName entry.1)

include h

/-- Where all names are plain, there are no further directories. -/
theorem isDirAt_of_isName (name : String) : fs.isDirAt [name] = false := by
  have hnone : ∀ entry ∈ fs.entries, ¬ ([name].isPrefixOf (namesOf entry.1) &&
      decide ([name].length < (namesOf entry.1).length)) = true := by
    intro entry hentry
    rw [namesOf_of_isName (h entry hentry)]
    simp
  rw [isDirAt, List.any_eq_false.2 hnone]
  rfl

/-- Where all names are plain, a name has the content of the first entry under it. -/
theorem contentAt?_of_isName (name : String) : fs.contentAt? [name] = fs.entries.lookup name := by
  rw [contentAt?]
  revert h
  induction fs.entries with
  | nil => exact fun _ => rfl
  | cons entry entries ih =>
    intro h
    obtain ⟨file, content⟩ := entry
    have hfile : namesOf file = [file] := namesOf_of_isName (h _ List.mem_cons_self)
    have hrest := ih fun entry hentry => h entry (List.mem_cons_of_mem _ hentry)
    simp only [List.find?_cons, List.lookup_cons, hfile]
    by_cases hname : name = file
    · simp [hname]
    · have hne : (([file] : List String) == [name]) = false := by
        simpa using Ne.symm hname
      rw [hne, beq_false_of_ne hname]
      exact hrest

end Entries

/-- In a directory where all names are plain, a name reads as the first entry under it. -/
theorem read_of_lookup (hentries : ∀ entry ∈ fs.entries, Path.IsName entry.1)
    (h : Path.IsName name) (hnul : '\x00' ∉ name.toList) (hsize : name.utf8ByteSize ≤ nameBound)
    (hlookup : fs.entries.lookup name = some content) : fs.read name = .ok content :=
  read_of_isName h hnul hsize (isDirAt_of_isName hentries name)
    ((contentAt?_of_isName hentries name).trans hlookup)

/-- In a directory where all names are plain, a name without an entry leads to nothing. -/
theorem read_of_lookup_eq_none (hentries : ∀ entry ∈ fs.entries, Path.IsName entry.1)
    (h : Path.IsName name) (hnul : '\x00' ∉ name.toList) (hsize : name.utf8ByteSize ≤ nameBound)
    (hlookup : fs.entries.lookup name = none) : fs.read name = .error .notFound :=
  read_of_isName_of_eq_none h hnul hsize (isDirAt_of_isName hentries name)
    ((contentAt?_of_isName hentries name).trans hlookup)

end Files

end TreeLayout
