import TreeLayout.Proofs.Files.Plain
import Mathlib.Data.List.DropRight

/-!
# The directory of a path

A path is taken apart at its slashes. Pieces that are empty or a dot lead nowhere (`Path.IsBlank`),
and the last of the others is the last component. If this is a name, `Path.LeadsTo` gives the pieces
of the directory before it, and `Path.splitOn_join` those of a path that is joined to the directory.
-/

namespace TreeLayout

namespace Path

variable {path : String}

/-- A piece that leads nowhere. -/
def IsBlank (piece : String) : Prop := piece = "" ∨ piece = "."

/-- The pieces of a path with the components for which they stand. -/
def parts (path : String) : List (String × Option Component) :=
  match path.splitOn "/" with
  | [] => []
  | piece :: pieces =>
    (piece, componentOf? true piece) :: pieces.map fun piece => (piece, componentOf? false piece)

/-- The marked pieces of a path are its parts. -/
theorem markedPieces_eq (path : String) :
    markedPieces path = (parts path).map fun part => (part.1, part.2.isSome) := by
  unfold markedPieces parts
  cases path.splitOn "/" with
  | nil => rfl
  | cons piece pieces => simp [Function.comp_def]

/-- The pieces of a path are its marked pieces. -/
theorem splitOn_eq (path : String) : path.splitOn "/" = (markedPieces path).map (·.1) := by
  unfold markedPieces
  cases path.splitOn "/" with
  | nil => rfl
  | cons piece pieces => simp [Function.comp_def]

/-- A path starts at the root exactly if nothing stands before its first slash. -/
theorem isAbsolute_iff : isAbsolute path = true ↔
    ∃ pieces, pieces ≠ [] ∧ path.splitOn "/" = "" :: pieces := by
  rw [isAbsolute, String.startsWith_string_iff, Text.splitOn_slash]
  change ['/'] <+: path.toList ↔ _
  cases path.toList with
  | nil => simp
  | cons c cs =>
    rw [List.splitOn_cons_eq_if_modifyHead]
    by_cases hc : c = '/'
    · subst hc
      simp
    · obtain ⟨first, rest, hcs⟩ := List.exists_cons_of_ne_nil (List.splitOn_ne_nil '/' cs)
      rw [if_neg (by simpa using hc), hcs]
      simp [Ne.symm hc]

/-- The components of a path that does not start at the root are those of its pieces. -/
theorem components_eq (h : isAbsolute path = false) :
    components path = (parts path).filterMap (·.2) := by
  unfold components parts
  cases hpieces : path.splitOn "/" with
  | nil => rfl
  | cons piece pieces =>
    have hfirst : (if piece.isEmpty = true then (if pieces.isEmpty = true then none
        else some Component.root) else componentOf? true piece) = componentOf? true piece := by
      split
      · rename_i hempty
        split
        · rw [componentOf?, if_pos hempty]
        · rename_i hne
          -- Nothing stands before the first slash, so the path would start at the root.
          rw [String.isEmpty_iff.1 hempty] at hpieces
          exact absurd (isAbsolute_iff.2 ⟨pieces, mt List.isEmpty_iff.2 hne, hpieces⟩) (by simp [h])
      · rfl
    dsimp only
    rw [hfirst, List.filterMap_cons]
    cases componentOf? true piece <;> simp [List.filterMap_map]

/-- A part has the component that its piece stands for. -/
theorem exists_componentOf?_of_mem_parts {part : String × Option Component}
    (h : part ∈ parts path) : ∃ start, part.2 = componentOf? start part.1 := by
  unfold parts at h
  cases hpieces : path.splitOn "/" with
  | nil => simp [hpieces] at h
  | cons piece pieces =>
    rw [hpieces] at h
    obtain rfl | ⟨other, -, rfl⟩ := (List.mem_cons.1 h).imp_right List.mem_map.1
    · exact ⟨true, rfl⟩
    · exact ⟨false, rfl⟩

/-- Only a piece that is a plain name stands for a name, and for itself. -/
theorem eq_of_componentOf?_eq_name {start : Bool} {piece name : String}
    (h : componentOf? start piece = some (.name name)) :
    piece = name ∧ piece ≠ "" ∧ piece ≠ "." ∧ piece ≠ ".." := by
  unfold componentOf? at h
  split_ifs at h with hempty hcurrent hstart hparent
  iterate 2 cases h
  cases h
  exact ⟨rfl, mt String.isEmpty_iff.2 hempty, mt beq_iff_eq.2 hcurrent, mt beq_iff_eq.2 hparent⟩

/-- A piece that is no component leads nowhere. -/
theorem isBlank_of_mem_markedPieces {piece : String × Bool} (h : piece ∈ markedPieces path)
    (hpiece : piece.2 = false) : IsBlank piece.1 := by
  rw [markedPieces_eq] at h
  obtain ⟨part, hpart, rfl⟩ := List.mem_map.1 h
  obtain ⟨start, hstart⟩ := exists_componentOf?_of_mem_parts hpart
  have hnone : componentOf? start part.1 = none := by
    rw [← hstart]
    simpa using hpiece
  unfold componentOf? at hnone
  split_ifs at hnone with hempty hdot
  · exact .inl (String.isEmpty_iff.1 hempty)
  · exact .inr (beq_iff_eq.1 hdot)

/-- A piece that is a component is not empty. -/
theorem ne_empty_of_mem_markedPieces {piece : String × Bool} (h : piece ∈ markedPieces path)
    (hpiece : piece.2 = true) : piece.1 ≠ "" := by
  rw [markedPieces_eq] at h
  obtain ⟨part, hpart, rfl⟩ := List.mem_map.1 h
  obtain ⟨start, hstart⟩ := exists_componentOf?_of_mem_parts hpart
  intro hempty
  dsimp only at hpiece hempty
  rw [hstart, hempty] at hpiece
  cases hpiece

/-- A path has pieces. -/
theorem splitOn_ne_nil (path : String) : path.splitOn "/" ≠ [] := by
  rw [Text.splitOn_slash, ne_eq, List.map_eq_nil_iff]
  exact List.splitOn_ne_nil '/' path.toList

/-- The extension of a path is one of its last name. -/
theorem extension?_congr {other : String} (h : fileName? path = fileName? other) :
    extension? path = extension? other := by
  unfold extension?
  rw [h]

/-- Pieces between slashes have no slashes. -/
theorem no_slash_of_mem_splitOn {piece : String} (h : piece ∈ path.splitOn "/") :
    '/' ∉ piece.toList := by
  rw [Text.splitOn_slash] at h
  obtain ⟨chars, hchars, rfl⟩ := List.mem_map.1 h
  rw [String.toList_ofList]
  exact Text.not_mem_of_mem_splitOn hchars

/-- A list of pieces is its trimmed part and pieces that are no components. -/
theorem exists_append_trimPieces (pieces : List (String × Bool)) :
    ∃ gap, pieces = trimPieces pieces ++ gap ∧ ∀ piece ∈ gap, piece.2 = false :=
  ⟨pieces.rtakeWhile fun piece => !piece.2, List.rdropWhile_append_rtakeWhile.symm,
    fun _ hpiece => by simpa using List.mem_rtakeWhile_imp hpiece⟩

/-- A trimmed list of pieces ends with a component. -/
theorem eq_true_of_getLast?_trimPieces {pieces : List (String × Bool)} {piece : String × Bool}
    (h : (trimPieces pieces).getLast? = some piece) : piece.2 = true := by
  change (List.rdropWhile (fun piece : String × Bool => !piece.2) pieces).getLast? = _ at h
  obtain ⟨hne, rfl⟩ := List.mem_getLast?_eq_getLast h
  simpa using List.rdropWhile_last_not _ _ hne

/-- Pieces after the last component are trimmed. -/
theorem trimPieces_append {before after : List (String × Bool)} {piece : String × Bool}
    (hpiece : piece.2 = true) (hafter : ∀ other ∈ after, other.2 = false) :
    trimPieces (before ++ piece :: after) = before ++ [piece] := by
  change List.rdropWhile (fun piece : String × Bool => !piece.2) _ = _
  induction after using List.reverseRecOn with
  | nil => exact List.rdropWhile_concat_neg _ _ _ (by simp [hpiece])
  | append_singleton after other ih =>
    obtain ⟨hrest, hother⟩ := List.forall_mem_append.1 hafter
    rw [← List.cons_append, ← List.append_assoc,
      List.rdropWhile_concat_pos _ _ _ (by simp [hother]), ih hrest]

/-- How a path leads to a file: the pieces of its directory, blank pieces, the name of the file, and
blank pieces again. -/
structure LeadsTo (path : String) (way : List String) (name : String) : Prop where
  /-- The file has a name. -/
  isName : IsName name
  /-- Only blank pieces stand between the directory and the name, and after the name. -/
  pieces : ∃ gap rest, (∀ piece ∈ gap ++ rest, IsBlank piece) ∧
    path.splitOn "/" = way ++ (gap ++ name :: rest)
  /-- The directory is the one that the path lies in. -/
  parent : parent? path = some ("/".intercalate way)
  /-- The directory does not end with a slash. -/
  last : ∀ piece, way.getLast? = some piece → piece ≠ ""

/-- The last component of a path that ends with a name is this name. -/
theorem exists_markedPieces_of_fileName? {name : String} (hrelative : isAbsolute path = false)
    (h : fileName? path = some name) : ∃ front after,
      markedPieces path = front ++ (name, true) :: after ∧
        (∀ piece ∈ after, piece.2 = false) ∧ IsName name := by
  obtain ⟨before, hcomponents⟩ : ∃ before,
      (parts path).filterMap (·.2) = before ++ [Component.name name] := by
    rw [fileName?, components_eq hrelative] at h
    split at h
    · rename_i hlast
      cases h
      exact List.getLast?_eq_some_iff.1 hlast
    · cases h
  obtain ⟨front, others, hparts, -, hlast⟩ := List.filterMap_eq_append_iff.1 hcomponents
  obtain ⟨skipped, part, after, rfl, -, hpart, hafter⟩ := List.filterMap_eq_cons_iff.1 hlast
  have hmem : part ∈ parts path := by
    simp [hparts]
  obtain ⟨start, hstart⟩ := exists_componentOf?_of_mem_parts hmem
  obtain ⟨rfl, hempty, hcurrent, hparent⟩ := eq_of_componentOf?_eq_name (hstart.symm.trans hpart)
  have hpieces := markedPieces_eq path
  rw [hparts, ← List.append_assoc, List.map_append, List.map_cons, hpart] at hpieces
  have hpiece : part.1 ∈ path.splitOn "/" := by
    rw [splitOn_eq, hpieces]
    simp
  refine ⟨_, _, hpieces, ?_, no_slash_of_mem_splitOn hpiece, hempty, hcurrent, hparent⟩
  intro piece hpiece
  obtain ⟨other, hother, rfl⟩ := List.mem_map.1 hpiece
  rw [List.filterMap_eq_nil_iff.1 hafter other hother]
  rfl

/-- A path with a last name leads to a file of this name in its directory. -/
theorem exists_leadsTo {name : String} (hrelative : isAbsolute path = false)
    (h : fileName? path = some name) : ∃ way, LeadsTo path way name := by
  obtain ⟨front, after, hpieces, hafter, hname⟩ := exists_markedPieces_of_fileName? hrelative h
  obtain ⟨gap, hgap, hgapped⟩ := exists_append_trimPieces front
  generalize hway : trimPieces front = way at hgap
  have hmarked : markedPieces path = way ++ (gap ++ (name, true) :: after) := by
    rw [hpieces, hgap, List.append_assoc]
  refine ⟨way.map (·.1), hname, ⟨gap.map (·.1), after.map (·.1), ?_, ?_⟩, ?_, ?_⟩
  · intro text htext
    rw [← List.map_append] at htext
    obtain ⟨piece, hpiece, rfl⟩ := List.mem_map.1 htext
    have hmem : piece ∈ markedPieces path := by
      rw [hmarked]
      grind
    obtain hpiece | hpiece := List.mem_append.1 hpiece
    · exact isBlank_of_mem_markedPieces hmem (hgapped piece hpiece)
    · exact isBlank_of_mem_markedPieces hmem (hafter piece hpiece)
  · rw [splitOn_eq, hmarked]
    simp
  · have htrim : trimPieces (markedPieces path) = front ++ [(name, true)] := by
      rw [hpieces, trimPieces_append rfl hafter]
    simp [parent?, htrim, hrelative, hway]
  · intro text htext
    rw [List.getLast?_map, Option.map_eq_some_iff] at htext
    obtain ⟨piece, hpiece, rfl⟩ := htext
    have hmem : piece ∈ markedPieces path := by
      rw [hmarked]
      exact List.mem_append_left _ (List.mem_of_getLast? hpiece)
    exact ne_empty_of_mem_markedPieces hmem (eq_true_of_getLast?_trimPieces (hway ▸ hpiece))

/-- A list of pieces ends with the last of them. -/
theorem exists_toList_intercalate_concat (before : List String) (last : String) :
    ∃ front, ("/".intercalate (before ++ [last])).toList = front ++ last.toList := by
  cases before with
  | nil => exact ⟨[], by simp⟩
  | cons piece before =>
    refine ⟨("/".intercalate (piece :: before) ++ "/").toList, ?_⟩
    rw [String.intercalate_append_of_ne_nil (by simp) (by simp), String.intercalate_singleton,
      String.toList_append]

/-- A path is joined to a directory with a slash between them. -/
theorem join_of_ne_empty {dir last base : String} {front : List Char} (hlast : last ≠ "")
    (hslash : '/' ∉ last.toList) (hdir : dir.toList = front ++ last.toList)
    (hbase : isAbsolute base = false) : join dir base = dir ++ "/" ++ base := by
  obtain ⟨before, c, hchars⟩ : ∃ before c, last.toList = before ++ [c] :=
    (List.eq_nil_or_concat' last.toList).resolve_left (by simpa using hlast)
  have hempty : ¬ dir.isEmpty = true := by
    rintro h
    rw [String.isEmpty_iff.1 h, hchars] at hdir
    simp at hdir
  have hend : ¬ dir.endsWith "/" = true := by
    rw [← String.endsWith_toSlice, String.Slice.endsWith_string_iff, String.copy_toSlice, hdir]
    rintro ⟨rest, hrest⟩
    -- The last characters are the same, so a slash stands in the last piece.
    rw [hchars, ← List.append_assoc] at hrest
    obtain rfl : '/' = c := List.singleton_injective (List.append_inj_right' hrest rfl)
    exact hslash (by simp [hchars])
  rw [join, if_neg (by simp [hbase, hempty]), if_neg hend]

/-- The pieces of a path that is joined to a directory are those of the directory and those of the
path. -/
theorem splitOn_join {way : List String} {base : String}
    (hslash : ∀ piece ∈ way, '/' ∉ piece.toList)
    (hlast : ∀ piece, way.getLast? = some piece → piece ≠ "")
    (hbase : isAbsolute base = false) :
    (join ("/".intercalate way) base).splitOn "/" = way ++ base.splitOn "/" := by
  obtain rfl | ⟨before, last, rfl⟩ := List.eq_nil_or_concat' way
  · simp [join]
  · have hpieces : ("/".intercalate (before ++ [last])).toList.splitOn '/' =
        (before ++ [last]).map String.toList := by
      rw [String.toList_intercalate]
      refine List.splitOn_intercalate '/' ?_ (by simp)
      intro chars hmem
      obtain ⟨piece, hpiece, rfl⟩ := List.mem_map.1 hmem
      exact hslash piece hpiece
    obtain ⟨front, hfront⟩ := exists_toList_intercalate_concat before last
    rw [join_of_ne_empty (hlast last List.getLast?_concat) (hslash last (by simp)) hfront hbase,
      Text.splitOn_slash, Text.splitOn_slash, String.toList_append, String.toList_append,
      List.append_assoc]
    change List.map _ (List.splitOn '/' (_ ++ '/' :: _)) = _
    rw [List.splitOn_append_cons_self, hpieces]
    simp

end Path

end TreeLayout
