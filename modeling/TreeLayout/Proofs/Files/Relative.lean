import TreeLayout.Proofs.Files.Paths

/-!
# Paths relative to a file

A file can be reached by many paths, since pieces of a path may lead nowhere, and two dots lead
back. What a file names relative to itself is joined to the directory of the path under which the
file was found. The spelling of this path does not count: all paths of a file lead to its directory
(`Files.exists_dir_of_locate`), and what is joined to them is followed from there
(`Files.SameFile.join`). A file of the system has only its full path.
-/

namespace TreeLayout

/-- The place above a place. -/
def Place.above : Place → Place
  | .inside (name :: names) => .inside (name :: names).dropLast
  | _ => .outside

namespace Files

variable {fs : Files} {start place : Place} {piece : String}

/-- The place to which a name leads; only the last name of a path may lead to a file. -/
def enterName (fs : Files) (name : String) (last : Bool) : Place → Except FileError Place
  | .outside => .error .notFound
  | .inside dir =>
    if fs.isDirAt (dir ++ [name]) then .ok (.inside (dir ++ [name]))
    else if (fs.contentAt? (dir ++ [name])).isNone then .error .notFound
    else if last then .ok (.inside (dir ++ [name]))
    else .error .notDirectory

/-- The place to which one piece of a path leads. -/
def enter (fs : Files) (piece : String) (last : Bool) (place : Place) : Except FileError Place :=
  if piece.isEmpty || piece == "." then .ok place
  else if piece == ".." then .ok place.above
  else if piece.utf8ByteSize > nameBound then .error .nameTooLong
  else fs.enterName piece last place

/-- A path is followed piece by piece. -/
theorem follow_cons (fs : Files) (start : Place) (piece : String) (rest : List String) :
    fs.follow start (piece :: rest) =
      (fs.enter piece rest.isEmpty start).bind fun next => fs.follow next rest := by
  rw [follow.eq_def, enter]
  dsimp only
  cases start with
  | outside => split_ifs <;> rfl
  | inside dir =>
    have hname : (if fs.isDirAt (dir ++ [piece]) then fs.follow (.inside (dir ++ [piece])) rest
        else if (fs.contentAt? (dir ++ [piece])).isNone then .error .notFound
        else if rest.isEmpty then .ok (.inside (dir ++ [piece]))
        else .error .notDirectory) =
        (fs.enterName piece rest.isEmpty (.inside dir)).bind fun next => fs.follow next rest := by
      rw [enterName]
      split_ifs with hdir hnone hlast
      · rfl
      · rfl
      -- The file is the end of the way.
      · rw [List.isEmpty_iff.1 hlast]
        rfl
      · rfl
    dsimp only
    rw [hname]
    cases dir <;> split_ifs <;> rfl

/-- A blank piece leads nowhere else. -/
theorem enter_of_isBlank (h : Path.IsBlank piece) (last : Bool) (place : Place) :
    fs.enter piece last place = .ok place := by
  obtain rfl | rfl := h <;> rfl

/-- What a piece leads to if more follow, it leads to as well if none do. -/
theorem enter_eq_ok (h : fs.enter piece false start = .ok place) (last : Bool) :
    fs.enter piece last start = .ok place := by
  have hname : fs.enterName piece false start = .ok place →
      fs.enterName piece last start = .ok place := by
    intro h
    cases start with
    | outside => cases h
    | inside dir =>
      rw [enterName] at h ⊢
      split_ifs at h ⊢ <;> first | exact h | contradiction
  unfold enter at h ⊢
  split_ifs at h ⊢
  · exact h
  · exact h
  · exact hname h

/-- Blank pieces lead nowhere. -/
theorem follow_append_of_isBlank {gap : List String} (hgap : ∀ piece ∈ gap, Path.IsBlank piece)
    (start : Place) (rest : List String) :
    fs.follow start (gap ++ rest) = fs.follow start rest := by
  induction gap with
  | nil => rfl
  | cons piece gap ih =>
    obtain ⟨hpiece, hgap⟩ := List.forall_mem_cons.1 hgap
    rw [List.cons_append, follow_cons, enter_of_isBlank hpiece]
    exact ih hgap

/-- A name leads to the entry of this name, and blank pieces after it stay there. -/
theorem exists_of_follow_isName (hpiece : Path.IsName piece) {rest : List String}
    (hrest : ∀ piece ∈ rest, Path.IsBlank piece)
    (h : fs.follow start (piece :: rest) = .ok place) :
    ∃ dir, start = .inside dir ∧ place = .inside (dir ++ [piece]) := by
  have hstay : ∀ next, fs.follow next rest = .ok next := by
    intro next
    have hnil : fs.follow next (rest ++ []) = .ok next := follow_append_of_isBlank hrest next []
    rwa [List.append_nil] at hnil
  rw [follow_cons, enter, if_neg (by simp [hpiece.isEmpty, hpiece.ne_current]),
    if_neg (by simp [hpiece.ne_parent])] at h
  split_ifs at h
  · cases h
  · cases start with
    | outside => cases h
    | inside dir =>
      refine ⟨dir, rfl, ?_⟩
      rw [enterName] at h
      split_ifs at h
      · exact (Except.ok.inj ((hstay _).symm.trans h)).symm
      · cases h
      · exact (Except.ok.inj ((hstay _).symm.trans h)).symm
      · cases h

/-- What the last of some pieces lead to is found from the place to which the first ones lead. -/
theorem exists_of_follow_append {front rest : List String} (hrest : rest ≠ [])
    (h : fs.follow start (front ++ rest) = .ok place) :
    ∃ between, fs.follow start front = .ok between ∧ fs.follow between rest = .ok place := by
  induction front generalizing start with
  | nil => exact ⟨start, rfl, h⟩
  | cons piece front ih =>
    have hmore : (front ++ rest).isEmpty = false := by
      simp [hrest]
    rw [List.cons_append, follow_cons, hmore] at h
    cases hnext : fs.enter piece false start with
    | error e =>
      rw [hnext] at h
      cases h
    | ok next =>
      rw [hnext] at h
      obtain ⟨between, hfront, hplace⟩ := ih h
      refine ⟨between, ?_, hplace⟩
      rw [follow_cons, enter_eq_ok hnext]
      exact hfront

/-- No path leads back into the directory from outside. -/
theorem eq_outside_of_follow {pieces : List String} (h : fs.follow .outside pieces = .ok place) :
    place = .outside := by
  induction pieces with
  | nil => exact (Except.ok.inj h).symm
  | cons piece pieces ih =>
    rw [follow_cons] at h
    unfold enter at h
    split_ifs at h
    · exact ih h
    · exact ih h
    · cases h
    · cases h

/-- The place of a path is found by its pieces, from the directory or from outside. -/
theorem follow_of_resolve {path : String} (h : fs.resolve path = .ok place) :
    fs.follow (if Path.isAbsolute path then .outside else .inside []) (path.splitOn "/") =
      .ok place := by
  rw [resolve] at h
  split at h
  · cases h
  · split at h
    · cases h
    · exact h

variable {path name : String} {file : List String × String}

/-- A file that is located lies at its place, with its content. -/
theorem resolve_of_locate (h : fs.locate path = .ok file) :
    fs.resolve path = .ok (.inside file.1) ∧ fs.contentAt? file.1 = some file.2 := by
  rw [locate] at h
  split at h
  · cases h
  · cases h
  · rename_i names hresolve
    split at h
    · rename_i content hcontent
      cases h
      exact ⟨hresolve, hcontent⟩
    · cases h

/-- The path of a file does not start at the root. -/
theorem not_isAbsolute_of_locate (h : fs.locate path = .ok file) :
    Path.isAbsolute path = false := by
  by_contra habsolute
  have hfollow := follow_of_resolve (resolve_of_locate h).1
  rw [if_pos (by simpa using habsolute)] at hfollow
  cases eq_outside_of_follow hfollow

/-- The file at the end of a path lies under its name in the directory to which the other pieces
lead. -/
theorem exists_dir_of_locate (h : fs.locate path = .ok file)
    (hname : Path.fileName? path = some name) :
    ∃ way dir, Path.LeadsTo path way name ∧ fs.follow (.inside []) way = .ok (.inside dir) ∧
      file.1 = dir ++ [name] := by
  have hrelative := not_isAbsolute_of_locate h
  obtain ⟨way, hway⟩ := Path.exists_leadsTo hrelative hname
  obtain ⟨gap, rest, hblank, hpieces⟩ := hway.pieces
  have hfollow := follow_of_resolve (resolve_of_locate h).1
  rw [hrelative, hpieces] at hfollow
  obtain ⟨start, hdir, hfile⟩ := exists_of_follow_append (by simp) hfollow
  -- Of the pieces after those of the directory only the name leads anywhere.
  rw [follow_append_of_isBlank fun piece hpiece => hblank piece (List.mem_append_left _ hpiece)]
    at hfile
  obtain ⟨dir, rfl, hplace⟩ := exists_of_follow_isName hway.isName
    (fun piece hpiece => hblank piece (List.mem_append_right _ hpiece)) hfile
  exact ⟨way, dir, hway, hdir, Place.inside.inj hplace⟩

section Join

variable {way dir : List String} {base : String} (hway : Path.LeadsTo path way name)
  (hrelative : Path.isAbsolute path = false) (hbase : Path.isAbsolute base = false)
include hway hrelative hbase

omit hrelative in
/-- A path that is relative to a file has the pieces of the directory of the file, and its own. -/
theorem splitOn_join :
    (Path.join ("/".intercalate way) base).splitOn "/" = way ++ base.splitOn "/" := by
  obtain ⟨gap, rest, -, hpieces⟩ := hway.pieces
  have hslash : ∀ piece ∈ way, '/' ∉ piece.toList := by
    intro piece hpiece
    have hmem : piece ∈ path.splitOn "/" := by
      rw [hpieces]
      exact List.mem_append_left _ hpiece
    exact Path.no_slash_of_mem_splitOn hmem
  exact Path.splitOn_join hslash hway.last hbase

/-- A path that is relative to a file does not start at the root if the path of the file does not. -/
theorem not_isAbsolute_join : Path.isAbsolute (Path.join ("/".intercalate way) base) = false := by
  obtain ⟨gap, rest, -, hpieces⟩ := hway.pieces
  by_contra habsolute
  obtain ⟨pieces, hmore, heq⟩ := Path.isAbsolute_iff.1 (by simpa using habsolute)
  rw [splitOn_join hway hbase] at heq
  cases way with
  | nil =>
    rw [List.nil_append] at heq
    exact absurd (Path.isAbsolute_iff.2 ⟨pieces, hmore, heq⟩) (by simp [hbase])
  | cons piece way =>
    -- The path of the file would start at the root as well.
    obtain rfl : piece = "" := (List.cons.inj heq).1
    exact absurd (Path.isAbsolute_iff.2 ⟨_, by simp, hpieces⟩) (by simp [hrelative])

/-- A path that is relative to a file is followed from the directory of the file. -/
theorem follow_of_resolve_join (hdir : fs.follow (.inside []) way = .ok (.inside dir))
    (h : fs.resolve (Path.join ("/".intercalate way) base) = .ok place) :
    fs.follow (.inside dir) (base.splitOn "/") = .ok place := by
  have hfollow := follow_of_resolve h
  rw [not_isAbsolute_join hway hrelative hbase, if_neg Bool.false_ne_true,
    splitOn_join hway hbase] at hfollow
  obtain ⟨start, hstart, hplace⟩ := exists_of_follow_append (Path.splitOn_ne_nil base) hfollow
  rw [hdir] at hstart
  cases hstart
  exact hplace

end Join

/-- Whether two paths lead to the same file. -/
def SameFile (fs : Files) (path other : String) : Prop :=
  ∃ file, fs.find path = .ok file ∧ fs.find other = .ok file

/-- A file reads the same under all its paths. -/
theorem SameFile.read_eq {other : String} (h : fs.SameFile path other) :
    fs.read path = fs.read other := by
  obtain ⟨file, hfile, hfile'⟩ := h
  rw [read, read, hfile, hfile']

/-- A path leads to a file of the system, which it names in full, or to a file below the directory. -/
theorem find_eq_ok {file : FileId × String} (h : fs.find path = .ok file) :
    (file.1 = .system path ∧ Path.isAbsolute path = true) ∨
      ∃ names, file.1 = .below names ∧ fs.locate path = .ok (names, file.2) := by
  unfold find at h
  split at h
  · rename_i content hcontent
    cases h
    refine .inl ⟨rfl, ?_⟩
    by_contra habsolute
    rw [systemContent?, if_neg habsolute] at hcontent
    cases hcontent
  · cases hlocate : fs.locate path with
    | error e =>
      rw [hlocate] at h
      cases h
    | ok found =>
      rw [hlocate] at h
      cases h
      exact .inr ⟨found.1, rfl, rfl⟩

/-- Two paths of one file are the same path, or lead to the same place below the directory. -/
theorem SameFile.eq_or_locate {other : String} (h : fs.SameFile path other) :
    path = other ∨ ∃ file, fs.locate path = .ok file ∧ fs.locate other = .ok file := by
  obtain ⟨⟨id, content⟩, hfile, hfile'⟩ := h
  obtain ⟨rfl, -⟩ | ⟨names, rfl, hlocate⟩ := find_eq_ok hfile
  · obtain ⟨hid, -⟩ | ⟨names, hid, -⟩ := find_eq_ok hfile'
    · exact .inl (FileId.system.inj hid)
    · cases hid
  · obtain ⟨hid, -⟩ | ⟨names', hid, hlocate'⟩ := find_eq_ok hfile'
    · cases hid
    · cases FileId.below.inj hid
      exact .inr ⟨_, hlocate, hlocate'⟩

/-- Two paths of one file have the same last name. -/
theorem SameFile.fileName?_eq {other name' : String} (h : fs.SameFile path other)
    (hname : Path.fileName? path = some name) (hname' : Path.fileName? other = some name') :
    name = name' := by
  obtain rfl | ⟨file, hfile, hfile'⟩ := h.eq_or_locate
  · exact Option.some.inj (hname.symm.trans hname')
  · obtain ⟨-, dir, -, -, hnames⟩ := exists_dir_of_locate hfile hname
    obtain ⟨-, dir', -, -, hnames'⟩ := exists_dir_of_locate hfile' hname'
    exact List.singleton_injective (List.append_inj_right' (hnames.symm.trans hnames') rfl)

/-- What is relative to a file is one file, whatever path of the first file it is joined to. -/
theorem SameFile.join {other name' base : String} {below below' : FileId × String}
    (h : fs.SameFile path other) (hname : Path.fileName? path = some name)
    (hname' : Path.fileName? other = some name')
    (hbelow : fs.find (Path.join ((Path.parent? path).getD ".") base) = .ok below)
    (hbelow' : fs.find (Path.join ((Path.parent? other).getD ".") base) = .ok below') :
    fs.SameFile (Path.join ((Path.parent? path).getD ".") base)
      (Path.join ((Path.parent? other).getD ".") base) := by
  obtain rfl | ⟨file, hfile, hfile'⟩ := h.eq_or_locate
  · exact ⟨below, hbelow, hbelow⟩
  cases hbase : Path.isAbsolute base with
  | true =>
    -- A path from the root is not relative to anything.
    have hjoin : ∀ dir, Path.join dir base = base := fun dir => by simp [Path.join, hbase]
    rw [hjoin] at hbelow ⊢
    rw [hjoin]
    exact ⟨below, hbelow, hbelow⟩
  | false =>
    obtain ⟨way, dir, hway, hdir, hnames⟩ := exists_dir_of_locate hfile hname
    obtain ⟨way', dir', hway', hdir', hnames'⟩ := exists_dir_of_locate hfile' hname'
    obtain rfl : dir = dir' := List.append_inj_left' (hnames.symm.trans hnames') rfl
    have hrelative := not_isAbsolute_of_locate hfile
    have hrelative' := not_isAbsolute_of_locate hfile'
    rw [hway.parent, Option.getD_some] at hbelow ⊢
    rw [hway'.parent, Option.getD_some] at hbelow' ⊢
    -- Both paths are followed from the directory of the file, so they lead to the same place.
    have hplace (names : List String) :
        fs.resolve (Path.join ("/".intercalate way) base) = .ok (.inside names) →
          fs.follow (.inside dir) (base.splitOn "/") = .ok (.inside names) :=
      follow_of_resolve_join hway hrelative hbase hdir
    have hplace' (names : List String) :
        fs.resolve (Path.join ("/".intercalate way') base) = .ok (.inside names) →
          fs.follow (.inside dir) (base.splitOn "/") = .ok (.inside names) :=
      follow_of_resolve_join hway' hrelative' hbase hdir'
    obtain ⟨-, habsolute⟩ | ⟨names, hid, hlocate⟩ := find_eq_ok hbelow
    · rw [not_isAbsolute_join hway hrelative hbase] at habsolute
      cases habsolute
    obtain ⟨-, habsolute⟩ | ⟨names', hid', hlocate'⟩ := find_eq_ok hbelow'
    · rw [not_isAbsolute_join hway' hrelative' hbase] at habsolute
      cases habsolute
    obtain ⟨hresolve, hcontent⟩ := resolve_of_locate hlocate
    obtain ⟨hresolve', hcontent'⟩ := resolve_of_locate hlocate'
    obtain rfl : names = names' := Place.inside.inj
      (Except.ok.inj ((hplace names hresolve).symm.trans (hplace' names' hresolve')))
    have hsame : below = below' :=
      Prod.ext (hid.trans hid'.symm) (Option.some.inj (hcontent.symm.trans hcontent'))
    exact ⟨below, hbelow, hsame ▸ hbelow'⟩

end Files

end TreeLayout
