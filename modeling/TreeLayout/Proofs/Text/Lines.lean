import TreeLayout.SourceText

/-!
# Sources with their lines replaced

`SourceText.mapLines` replaces each line of a source and keeps the line ends. If the replacement
adds no line end and lets the carriage returns before one alone (`Text.KeepsEnds`), the new source
has the replaced lines under the same numbers (`SourceText.line_mapLines`).

Before that come the pieces of a text between its line ends: what they are where two texts are put
together (`Text.segments_append_of_not_mem`), and how the text changes with one of them
(`Text.joinSegments_concat_append`).
-/

namespace TreeLayout

namespace Text

/-! ## Pieces between line ends -/

/-- No piece between line ends contains one. -/
theorem newline_not_mem_of_mem_segments {cs s : List Char} (h : s ∈ segments cs) : '\n' ∉ s := by
  induction cs generalizing s with
  | nil =>
    rw [segments, List.mem_singleton] at h
    simp [h]
  | cons c cs ih =>
    rw [segments] at h
    split at h
    · obtain rfl | h := List.mem_cons.1 h
      · exact List.not_mem_nil
      · exact ih h
    · rename_i hc
      cases hs : segments cs with
      | nil => exact absurd hs (segments_ne_nil cs)
      | cons first rest =>
        rw [hs] at h
        rw [hs] at ih
        obtain rfl | h := List.mem_cons.1 h
        · exact List.not_mem_cons_of_ne_of_not_mem (Ne.symm hc) (ih List.mem_cons_self)
        · exact ih (List.mem_cons_of_mem first h)

/-- No line of a text contains a line end. -/
theorem newline_not_mem_of_mem_lines {cs line : List Char} (h : line ∈ lines cs) : '\n' ∉ line := by
  have hdropped : ∀ s ∈ (segments cs).dropLast, '\n' ∉ dropReturn s := by
    intro s hs hnewline
    refine newline_not_mem_of_mem_segments (List.dropLast_subset _ hs) ?_
    unfold dropReturn at hnewline
    split at hnewline
    · exact List.dropLast_subset _ hnewline
    · exact hnewline
  unfold lines at h
  dsimp only at h
  split at h
  · obtain ⟨s, hs, rfl⟩ := List.mem_map.1 h
    exact hdropped s hs
  · rename_i last _ hlast
    rcases List.mem_append.1 h with h | h
    · obtain ⟨s, hs, rfl⟩ := List.mem_map.1 h
      exact hdropped s hs
    · obtain rfl := List.mem_singleton.1 h
      exact newline_not_mem_of_mem_segments (List.mem_of_getLast? hlast)
  · cases h

/-- A text without a line end is one piece. -/
theorem segments_of_not_mem {s : List Char} (h : '\n' ∉ s) : segments s = [s] := by
  induction s with
  | nil => rfl
  | cons c s ih =>
    have hc : c ≠ '\n' := fun hc => h (hc ▸ List.mem_cons_self)
    have hs : '\n' ∉ s := fun hs => h (List.mem_cons_of_mem c hs)
    rw [segments, if_neg hc, ih hs]

/-- The text before the first line end is the first piece. -/
theorem segments_append_newline {s : List Char} (h : '\n' ∉ s) (cs : List Char) :
    segments (s ++ '\n' :: cs) = s :: segments cs := by
  induction s with
  | nil => rw [List.nil_append, segments, if_pos rfl]
  | cons c s ih =>
    have hc : c ≠ '\n' := fun hc => h (hc ▸ List.mem_cons_self)
    have hs : '\n' ∉ s := fun hs => h (List.mem_cons_of_mem c hs)
    rw [List.cons_append, segments, if_neg hc, ih hs]

/-- A text without a line end stands at the start of the first piece. -/
theorem segments_append_of_not_mem {a b head : List Char} {tail : List (List Char)}
    (h : '\n' ∉ a) (hb : segments b = head :: tail) : segments (a ++ b) = (a ++ head) :: tail := by
  induction a with
  | nil => exact hb
  | cons c a ih =>
    have hc : c ≠ '\n' := fun hc => h (hc ▸ List.mem_cons_self)
    rw [List.cons_append, segments, if_neg hc, ih fun ha => h (List.mem_cons_of_mem c ha)]
    rfl

/-- Pieces without line ends are found again when they are put together. -/
theorem segments_joinSegments {ss : List (List Char)} (hne : ss ≠ []) (h : ∀ s ∈ ss, '\n' ∉ s) :
    segments (joinSegments ss) = ss := by
  induction ss with
  | nil => exact absurd rfl hne
  | cons s ss ih =>
    obtain ⟨hs, hss⟩ := List.forall_mem_cons.1 h
    cases ss with
    | nil => exact segments_of_not_mem hs
    | cons next ss =>
      rw [joinSegments, segments_append_newline hs, ih (List.cons_ne_nil next ss) hss]
      exact List.cons_ne_nil next ss

/-! ## Pieces put together -/

/-- Joined pieces are the first one, a line end, and the others joined. -/
theorem joinSegments_cons {ss : List (List Char)} (s : List Char) (h : ss ≠ []) :
    joinSegments (s :: ss) = s ++ '\n' :: joinSegments ss := by
  cases ss with
  | nil => exact absurd rfl h
  | cons next ss => rfl

/-- Pieces put together are cut inside one of them. -/
theorem exists_joinSegments_append (ss : List (List Char)) (a b : List Char)
    (ss' : List (List Char)) : ∃ more,
      joinSegments (ss ++ (a ++ b) :: ss') = joinSegments (ss ++ [a]) ++ (b ++ more) := by
  induction ss with
  | nil =>
    cases ss' with
    | nil => exact ⟨[], by simp [joinSegments]⟩
    | cons next ss' => exact ⟨'\n' :: joinSegments (next :: ss'), by simp [joinSegments]⟩
  | cons s ss ih =>
    obtain ⟨more, hmore⟩ := ih
    refine ⟨more, ?_⟩
    rw [List.cons_append, joinSegments_cons s (by simp), hmore, List.cons_append,
      joinSegments_cons s (by simp), List.append_assoc, List.cons_append]

/-- Joined pieces end with a line end and the last one. -/
theorem joinSegments_concat {ss : List (List Char)} (hne : ss ≠ []) (s : List Char) :
    joinSegments (ss ++ [s]) = joinSegments ss ++ '\n' :: s := by
  induction ss with
  | nil => exact absurd rfl hne
  | cons first ss ih =>
    cases ss with
    | nil => rfl
    | cons next ss =>
      rw [List.cons_append, joinSegments_cons first (by simp), ih (by simp),
        joinSegments_cons first (by simp), List.append_assoc, List.cons_append]

/-- A text after the last piece stands after all of them joined. -/
theorem joinSegments_concat_append (ss : List (List Char)) (a b : List Char) :
    joinSegments (ss ++ [a ++ b]) = joinSegments (ss ++ [a]) ++ b := by
  induction ss with
  | nil => rfl
  | cons s ss ih =>
    rw [List.cons_append, joinSegments_cons s (by simp), ih, List.cons_append,
      joinSegments_cons s (by simp), List.append_assoc, List.cons_append]

/-- Joined pieces take the bytes of full lines, and of the last piece. -/
theorem byteSize_joinSegments_concat (ss : List (List Char)) (last : List Char) :
    byteSize (joinSegments (ss ++ [last])) = linesSize ss + byteSize last := by
  induction ss with
  | nil => simp [joinSegments, linesSize]
  | cons s ss ih =>
    have hnewline : '\n'.utf8Size = 1 := rfl
    rw [List.cons_append, joinSegments_cons s (by simp), byteSize_append, byteSize_cons, ih,
      linesSize, hnewline]
    omega

/-! ## Trimmed endings -/

/-- A character to trim at the end is trimmed. -/
theorem trimEnd_append_of_pos {p : Char → Bool} {c : Char} (h : p c = true) (cs : List Char) :
    trimEnd p (cs ++ [c]) = trimEnd p cs := by
  simp [trimEnd, h]

/-- Nothing is trimmed before another character. -/
theorem trimEnd_append_of_neg {p : Char → Bool} {c : Char} (h : p c = false) (cs : List Char) :
    trimEnd p (cs ++ [c]) = cs ++ [c] := by
  simp [trimEnd, h]

/-- A replacement of lines that leaves line ends alone, with the carriage returns before them. -/
structure KeepsEnds (g : List Char → List Char) : Prop where
  /-- No line end is added. -/
  newline : ∀ cs, '\n' ∉ cs → '\n' ∉ g cs
  /-- The carriage returns that end a line are those that end its replacement. -/
  trimEnd : ∀ cs, trimEnd (· = '\r') (g cs) = g (trimEnd (· = '\r') cs)

end Text

namespace SourceText

variable {g : List Char → List Char}

/-- A tab width is not read as one, since it is not zero. -/
theorem max_tabWidth (s : SourceText) : max s.tabWidth 1 = s.tabWidth :=
  Nat.max_eq_left s.tabWidth_pos

/-- A tab width that is read as it is can be counted. -/
theorem max_tabWidth_holds (s : SourceText) : s.arithmetic.Holds (max s.tabWidth 1) :=
  s.max_tabWidth.symm ▸ s.tabWidth_holds

/-- Another text with the same tab width, counted in the same arithmetic. -/
def withText (s : SourceText) (text : String) : SourceText :=
  { ofString text s.tabWidth with
    tabWidth := s.tabWidth
    arithmetic := s.arithmetic
    tabWidth_pos := s.tabWidth_pos
    tabWidth_holds := s.tabWidth_holds }

/-- A source with each of its lines replaced. -/
def mapLines (s : SourceText) (g : List Char → List Char) : SourceText :=
  s.withText (String.ofList (Text.joinSegments (s.segments.map g)))

/-- Replacing lines keeps the tab width. -/
@[simp] theorem tabWidth_mapLines (s : SourceText) : (s.mapLines g).tabWidth = s.tabWidth := rfl

/-- Replacing lines keeps the arithmetic. -/
@[simp] theorem arithmetic_mapLines (s : SourceText) :
    (s.mapLines g).arithmetic = s.arithmetic := rfl

/-- The pieces of a source with replaced lines are the replaced pieces. -/
theorem segments_mapLines (hg : Text.KeepsEnds g) (s : SourceText) :
    (s.mapLines g).segments = s.segments.map g := by
  have hne : s.segments.map g ≠ [] := by
    rw [s.segments_eq]
    simp [Text.segments_ne_nil]
  have hlines : ∀ line ∈ s.segments.map g, '\n' ∉ line := by
    intro line hline
    obtain ⟨segment, hsegment, rfl⟩ := List.mem_map.1 hline
    rw [s.segments_eq] at hsegment
    exact hg.newline _ (Text.newline_not_mem_of_mem_segments hsegment)
  rw [(s.mapLines g).segments_eq]
  simp only [mapLines, withText, ofString, String.toList_ofList]
  exact Text.segments_joinSegments hne hlines

/-- The lines of the new source are the replaced lines. -/
theorem lines_mapLines (hg : Text.KeepsEnds g) (s : SourceText) :
    (s.mapLines g).lines = s.lines.map g := by
  rw [lines, lines, segments_mapLines hg, List.map_map, List.map_map]
  congr 1
  exact funext hg.trimEnd

/-- Outside of the source lines are empty. -/
theorem line_eq_nil {s : SourceText} {n : Nat} (h : ¬(1 ≤ n ∧ n ≤ s.lineCount)) :
    s.line n = [] := by
  cases n with
  | zero => rfl
  | succ n =>
    have hn : s.segments.length ≤ n := by
      rw [lineCount] at h
      omega
    rw [line, List.getElem?_eq_none hn]
    rfl

/-- A line of the source is replaced; where there is none, there is none in the new source. -/
theorem line_mapLines (hg : Text.KeepsEnds g) (s : SourceText) (n : Nat) :
    (s.mapLines g).line n = if 1 ≤ n ∧ n ≤ s.lineCount then g (s.line n) else [] := by
  have hcount : (s.mapLines g).lineCount = s.lineCount := by
    rw [lineCount, segments_mapLines hg, List.length_map, lineCount]
  split
  · rename_i hn
    obtain ⟨n, rfl⟩ : ∃ i, n = i + 1 := ⟨n - 1, by omega⟩
    have hlt : n < s.segments.length := hn.2
    rw [line, line, segments_mapLines hg, List.getElem?_map, List.getElem?_eq_getElem hlt]
    exact hg.trimEnd _
  · rename_i hn
    exact line_eq_nil (hcount ▸ hn)

end SourceText

end TreeLayout
