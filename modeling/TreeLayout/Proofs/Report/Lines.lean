import Mathlib.Algebra.Order.BigOperators.Group.List
import Mathlib.Algebra.Ring.Nat
import TreeLayout.Proofs.Files.Plain
import TreeLayout.Proofs.Lint.Rules
import TreeLayout.Proofs.Text.Lines
import TreeLayout.Report.Compact
import TreeLayout.Report.Github

/-!
# Reports by lines

A report for scripts and a report of workflow commands are meant to be read line by line, with one
line for each diagnostic (`Text.ShowsLines`). Each diagnostic is written with a line end after it,
so the report can be read in this way exactly if no diagnostic is written with a line end of its own
(`Text.showsLines_iff`).

Of the parts of a diagnostic, severities and numbers have no line ends, and neither have the rules
under which a linter reports. A report for scripts writes the file and the message as they are, and
a workflow command escapes the message and writes the file as it is. So there are as many lines too
many as there are line ends in these parts (`Linter.render_showsLines_iff`). A message names texts
of tokens, which may go on over several lines, and a file may have a line end in its name
(`Linter.render_breaks_lines`).
-/

namespace TreeLayout

namespace Text

/-- The number of line ends in a text. -/
def lineEnds (s : String) : Nat := s.toList.count '\n'

/-- Two texts have the line ends of both. -/
@[simp] theorem lineEnds_append (a b : String) : lineEnds (a ++ b) = lineEnds a + lineEnds b := by
  unfold lineEnds
  rw [String.toList_append, List.count_append]

/-- A text without line ends has no newline character. -/
theorem lineEnds_eq_zero {s : String} : lineEnds s = 0 ↔ '\n' ∉ s.toList :=
  List.count_eq_zero

/-- A number is written on one line. -/
@[simp] theorem lineEnds_toString (n : Nat) : lineEnds (toString n) = 0 := by
  rw [lineEnds_eq_zero]
  intro hmem
  change '\n' ∈ (Nat.repr n).toList at hmem
  rw [Nat.repr_eq_ofList_toDigits, String.toList_ofList] at hmem
  exact absurd (Nat.isDigit_of_mem_toDigits (by decide) (by decide) hmem) (by decide)

/-- Line ends add up over the parts of a list, if there are none between the parts. -/
theorem lineEnds_intercalate {sep : String} (hsep : lineEnds sep = 0) (parts : List String) :
    lineEnds (sep.intercalate parts) = (parts.map lineEnds).sum := by
  induction parts with
  | nil => rfl
  | cons part parts ih =>
    cases parts with
    | nil => simp
    | cons next parts =>
      rw [String.intercalate_cons_cons, lineEnds_append, lineEnds_append, hsep, ih, Nat.add_zero]
      rfl

/-- A text in which line ends are replaced by a text without any has no line ends. -/
theorem lineEnds_replaceChar {text : String} (htext : lineEnds text = 0) (s : String) :
    lineEnds (replaceChar '\n' text s) = 0 := by
  rw [lineEnds_eq_zero] at htext ⊢
  unfold replaceChar
  rw [String.toList_join, List.mem_flatMap]
  rintro ⟨piece, hpiece, hmem⟩
  obtain ⟨c, -, rfl⟩ := List.mem_map.1 hpiece
  split at hmem
  · exact htext hmem
  · rename_i hc
    rw [String.toList_singleton, List.mem_singleton] at hmem
    exact hc hmem.symm

/-- A text shows some items on lines of their own: it has as many line ends as there are items, and
on each line stands the item of the same number. -/
structure ShowsLines (text : String) (items : List String) : Prop where
  /-- There is one line end for each item. -/
  count : lineEnds text = items.length
  /-- A line is an item. -/
  line : ∀ (i : Nat) (item : String), items[i]? = some item →
    (segments text.toList)[i]? = some item.toList

/-- Items with a line end after each. -/
def terminated (items : List String) : String := String.join (items.map (· ++ "\n"))

/-- Terminated items are the first one, a line end, and the others terminated. -/
theorem terminated_cons (item : String) (items : List String) :
    terminated (item :: items) = item ++ "\n" ++ terminated items := by
  unfold terminated
  rw [List.map_cons, String.join_cons]

/-- Terminated items have one line end each, besides those inside of them. -/
theorem lineEnds_terminated (items : List String) :
    lineEnds (terminated items) = items.length + (items.map lineEnds).sum := by
  induction items with
  | nil => rfl
  | cons item items ih =>
    have hnewline : lineEnds "\n" = 1 := by decide
    rw [terminated_cons, lineEnds_append, lineEnds_append, ih, hnewline, List.length_cons,
      List.map_cons, List.sum_cons]
    omega

/-- Items without line ends are the lines of the text that ends each of them with one. -/
theorem segments_terminated {items : List String} (h : ∀ item ∈ items, lineEnds item = 0) :
    segments (terminated items).toList = items.map String.toList ++ [[]] := by
  induction items with
  | nil => rfl
  | cons item items ih =>
    obtain ⟨hitem, hitems⟩ := List.forall_mem_cons.1 h
    have htext : (terminated (item :: items)).toList =
        item.toList ++ '\n' :: (terminated items).toList := by
      rw [terminated_cons, String.toList_append, String.toList_append, List.append_assoc]
      rfl
    rw [htext, segments_append_newline (lineEnds_eq_zero.1 hitem), ih hitems, List.map_cons,
      List.cons_append]

/-- A text that ends each item with a line end shows the items on lines of their own exactly if no
item has a line end. -/
theorem showsLines_iff (items : List String) :
    ShowsLines (terminated items) items ↔ ∀ item ∈ items, lineEnds item = 0 := by
  constructor
  · intro h item hitem
    have hcount := h.count
    rw [lineEnds_terminated] at hcount
    -- The line ends of the items are surplus, so there are none.
    have hle : lineEnds item ≤ (items.map lineEnds).sum :=
      List.le_sum_of_mem (List.mem_map_of_mem hitem)
    omega
  · intro h
    constructor
    · rw [lineEnds_terminated, List.sum_eq_zero, Nat.add_zero]
      intro count hcount
      obtain ⟨item, hitem, rfl⟩ := List.mem_map.1 hcount
      exact h item hitem
    · intro i item hget
      obtain ⟨hi, -⟩ := List.getElem?_eq_some_iff.1 hget
      rw [segments_terminated h, List.getElem?_append_left (by rwa [List.length_map]),
        List.getElem?_map, hget, Option.map_some]

end Text

open Text (lineEnds ShowsLines terminated)

/-! ## Diagnostics as texts -/

/-- No severity has a line end in its name. -/
theorem Severity.lineEnds_name (severity : Severity) : lineEnds severity.name = 0 := by
  cases severity <;> decide

/-- No level of a workflow command has a line end. -/
theorem GithubStyle.lineEnds_level (severity : Severity) : lineEnds (level severity) = 0 := by
  cases severity <;> decide

/-- No rule has a line end in its name. -/
theorem Rule.lineEnds_id (rule : Rule) : lineEnds rule.id = 0 := by
  cases rule <;> decide

/-- For scripts a diagnostic is written with the line ends of its file and of its message. -/
theorem CompactStyle.lineEnds_renderDiagnostic (style : CompactStyle) {d : Diagnostic}
    (hrule : lineEnds d.rule = 0) :
    lineEnds (style.renderDiagnostic d) = lineEnds d.location.file + lineEnds d.message := by
  have hcolon : lineEnds ":" = 0 := by decide
  have hplace : lineEnds (d.location.file ++ ":" ++ toString d.location.line ++ ":" ++
      toString d.location.column) = lineEnds d.location.file := by
    simp only [Text.lineEnds_append, Text.lineEnds_toString, hcolon, Nat.add_zero]
  -- The parts that can be left out add no line ends.
  have hseverity :
      ((if style.showSeverity then [d.severity.name] else []).map lineEnds).sum = 0 := by
    split <;> simp [d.severity.lineEnds_name]
  have hshown : ((if style.showRule then [d.rule] else []).map lineEnds).sum = 0 := by
    split <;> simp [hrule]
  unfold renderDiagnostic
  rw [Text.lineEnds_intercalate (by decide)]
  simp only [List.map_append, List.sum_append, hseverity, hshown, List.map_cons, List.map_nil,
    List.sum_cons, List.sum_nil, hplace, Nat.add_zero]

/-- As a workflow command a diagnostic is written with the line ends of its file. -/
theorem GithubStyle.lineEnds_renderDiagnostic {d : Diagnostic} (hrule : lineEnds d.rule = 0) :
    lineEnds (renderDiagnostic d) = lineEnds d.location.file := by
  have hmessage : lineEnds (escape d.message) = 0 := Text.lineEnds_replaceChar (by decide) _
  have hmarks : lineEnds "::" = 0 ∧ lineEnds " file=" = 0 ∧ lineEnds ",line=" = 0 ∧
      lineEnds ",col=" = 0 ∧ lineEnds ",title=" = 0 := by
    decide
  obtain ⟨hstart, hfile, hline, hcolumn, htitle⟩ := hmarks
  unfold renderDiagnostic
  simp only [Text.lineEnds_append, Text.lineEnds_toString, lineEnds_level, hrule, hmessage, hstart,
    hfile, hline, hcolumn, htitle, Nat.zero_add, Nat.add_zero]

/-! ## Reports as texts -/

namespace CompactStyle

variable {report : Report} (style : CompactStyle)

/-- A report for scripts is its diagnostics, each terminated. -/
theorem render_eq (report : Report) :
    style.render report = terminated (report.diagnostics.map style.renderDiagnostic) := by
  unfold render terminated
  rw [List.map_map]
  rfl

variable (hrule : ∀ d ∈ report.diagnostics, lineEnds d.rule = 0)

include hrule

/-- A report for scripts has one line end for each diagnostic, besides those in files and messages.
-/
theorem lineEnds_render :
    lineEnds (style.render report) = report.diagnostics.length +
      (report.diagnostics.map fun d => lineEnds d.location.file + lineEnds d.message).sum := by
  have hshown : report.diagnostics.map (lineEnds ∘ style.renderDiagnostic) =
      report.diagnostics.map fun d => lineEnds d.location.file + lineEnds d.message := by
    apply List.map_congr_left
    intro d hd
    rw [Function.comp_apply, style.lineEnds_renderDiagnostic (hrule d hd)]
  rw [render_eq, Text.lineEnds_terminated, List.length_map, List.map_map, hshown]

/-- A report for scripts shows each diagnostic on a line exactly if no file and no message has a
line end. -/
theorem showsLines_render_iff :
    ShowsLines (style.render report) (report.diagnostics.map style.renderDiagnostic) ↔
      ∀ d ∈ report.diagnostics, lineEnds d.location.file = 0 ∧ lineEnds d.message = 0 := by
  rw [render_eq, Text.showsLines_iff, List.forall_mem_map]
  apply forall₂_congr
  intro d hd
  rw [style.lineEnds_renderDiagnostic (hrule d hd), Nat.add_eq_zero_iff]

end CompactStyle

namespace GithubStyle

variable {report : Report}

/-- Without the notice at its end a report is its commands. -/
theorem render_eq (report : Report) :
    render ⟨false⟩ report = terminated (report.diagnostics.map renderDiagnostic) := by
  unfold render terminated
  rw [List.map_map]
  exact String.append_empty

variable (hrule : ∀ d ∈ report.diagnostics, lineEnds d.rule = 0)

include hrule

/-- A report of workflow commands has one line end for each diagnostic, besides those in files. -/
theorem lineEnds_render :
    lineEnds (render ⟨false⟩ report) = report.diagnostics.length +
      (report.diagnostics.map fun d => lineEnds d.location.file).sum := by
  have hshown : report.diagnostics.map (lineEnds ∘ renderDiagnostic) =
      report.diagnostics.map fun d => lineEnds d.location.file := by
    apply List.map_congr_left
    intro d hd
    rw [Function.comp_apply, lineEnds_renderDiagnostic (hrule d hd)]
  rw [render_eq, Text.lineEnds_terminated, List.length_map, List.map_map, hshown]

/-- A report of workflow commands shows each diagnostic on a line exactly if no file has a line end.
-/
theorem showsLines_render_iff :
    ShowsLines (render ⟨false⟩ report) (report.diagnostics.map renderDiagnostic) ↔
      ∀ d ∈ report.diagnostics, lineEnds d.location.file = 0 := by
  rw [render_eq, Text.showsLines_iff, List.forall_mem_map]
  apply forall₂_congr
  intro d hd
  rw [lineEnds_renderDiagnostic (hrule d hd)]

end GithubStyle

namespace Linter

variable {l : Linter} {host : Host} {files : Files} {paths : List String}

/-- A linter reports under rules without line ends. -/
theorem lineEnds_rule {d : Diagnostic} (h : d ∈ (l.lint host files paths).diagnostics) :
    lineEnds d.rule = 0 := by
  obtain ⟨path, -, doc, -, hd⟩ | ⟨path, -, e, -, rfl⟩ := mem_diagnostics_lint.1 h
  · unfold diagnosticsOf at hd
    rw [List.mem_mergeSort, List.mem_map] at hd
    obtain ⟨f, -, rfl⟩ := hd
    rw [(diagnose_fields l doc _ f).1]
    exact f.message.rule.lineEnds_id
  · change lineEnds loadErrorRule = 0
    decide

/-- A report for scripts has one line for each diagnostic, and one more for each line end in a file
or a message; a report of workflow commands has one for each diagnostic, and one more for each line
end in a file. So each line shows its diagnostic exactly if there are no such line ends. -/
theorem render_showsLines_iff (l : Linter) (host : Host) (files : Files)
    (paths : List String) :
    let report := l.lint host files paths
    (∀ style : CompactStyle,
        lineEnds (style.render report) = report.diagnostics.length +
            (report.diagnostics.map fun d => lineEnds d.location.file + lineEnds d.message).sum ∧
          (ShowsLines (style.render report) (report.diagnostics.map style.renderDiagnostic) ↔
            ∀ d ∈ report.diagnostics, lineEnds d.location.file = 0 ∧ lineEnds d.message = 0)) ∧
      lineEnds (GithubStyle.render ⟨false⟩ report) = report.diagnostics.length +
        (report.diagnostics.map fun d => lineEnds d.location.file).sum ∧
      (ShowsLines (GithubStyle.render ⟨false⟩ report)
          (report.diagnostics.map GithubStyle.renderDiagnostic) ↔
        ∀ d ∈ report.diagnostics, lineEnds d.location.file = 0) := by
  intro report
  have hrule : ∀ d ∈ report.diagnostics, lineEnds d.rule = 0 := fun d hd => lineEnds_rule hd
  refine ⟨?_, GithubStyle.lineEnds_render hrule, GithubStyle.showsLines_render_iff hrule⟩
  intro style
  exact ⟨style.lineEnds_render hrule, style.showsLines_render_iff hrule⟩

/-! ## A text block and a name with a line end -/

/-- A text block, which is a literal that goes on over a line end. -/
def textBlock : String := "\"\"\"\nhi\"\"\""

/-- A statement that is a text block. -/
def textBlockTree : Tree :=
  .node .exprStatement (.token .literal textBlock ⟨1, 0⟩) [.token .semi ";" ⟨2, 5⟩]

/-- A tree document that holds the statement and its source. -/
def textBlockFile : String :=
  "\x7b\"text\":\"\\\"\\\"\\\"\\nhi\\\"\\\"\\\";\",\"root\":\x7b\"kind\":\"expr_statement\"," ++
    "\"children\":[\x7b\"kind\":\"literal\",\"text\":\"\\\"\\\"\\\"\\nhi\\\"\\\"\\\"\"," ++
    "\"line\":1,\"column\":0\x7d," ++
    "\x7b\"kind\":\"semi\",\"text\":\";\",\"line\":2,\"column\":5\x7d]\x7d\x7d"

/-- The value that the document holds. -/
def textBlockValue : Value :=
  .map
    [("text", .text (textBlock ++ ";")),
     ("root", .map
       [("kind", .text "expr_statement"),
        ("children", .seq
          [.map [("kind", .text "literal"), ("text", .text textBlock), ("line", .nat 1),
            ("column", .nat 0)],
           .map [("kind", .text "semi"), ("text", .text ";"), ("line", .nat 2),
            ("column", .nat 5)]])])]

/-- A directory with the document. -/
def textBlockFiles : Files := { entries := [("t.json", textBlockFile)] }

/-- The document reads as its value. -/
theorem parse?_textBlockFile :
    Json.parse? Json.documentDepth textBlockFile = some textBlockValue := by
  cbv

/-- The document has a plain name. -/
theorem isName_of_mem_textBlockFiles : ∀ entry ∈ textBlockFiles.entries, Path.IsName entry.1 := by
  intro entry hentry
  rw [List.mem_singleton.1 hentry]
  exact ⟨by decide, by decide, by decide, by decide⟩

/-- The document is loaded with the statement. -/
theorem load_textBlockFile : Document.load .standard textBlockFiles "t.json" 4 =
    .ok ⟨"t.json", none, textBlockTree, .ofString (textBlock ++ ";") 4⟩ := by
  have hname : Path.IsName "t.json" := ⟨by decide, by decide, by decide, by decide⟩
  have hread : textBlockFiles.read "t.json" = .ok textBlockFile :=
    Files.read_of_lookup isName_of_mem_textBlockFiles hname (by decide) (by decide) rfl
  have hextension : Path.extension? "t.json" = some "json" := by
    rw [hname.extension?]
    decide +kernel
  have hjson : TreeFile.isJson "t.json" = true := by
    rw [TreeFile.isJson, hextension]
    decide +kernel
  obtain ⟨file, hfile⟩ : ∃ file, TreeFile.ofValue? textBlockValue = some file := ⟨_, rfl⟩
  have hcontent : TreeFile.parseJson? textBlockFile = some file := by
    rw [TreeFile.parseJson?, parse?_textBlockFile, Option.bind_some, hfile]
  have htree : Host.standard.treeJson textBlockFile = .ok file := by
    rw [Host.standard_treeJson, hcontent, orFault]
  have hparse : TreeFile.parse .standard textBlockFile "t.json" = .ok file := by
    rw [TreeFile.parse, if_pos hjson, htree, Except.mapError]
  have hdocument : Document.ofTreeFile textBlockFiles file "t.json" 4 =
      .ok ⟨"t.json", none, textBlockTree, .ofString (textBlock ++ ";") 4⟩ := by
    rw [← Option.some.inj hfile]
    rfl
  rw [Document.load, Document.readFile, hread]
  change TreeFile.parse .standard textBlockFile "t.json" >>= _ = _
  rw [hparse]
  exact hdocument

/-- The name of a file that does not exist is looked up as it is. -/
theorem load_missing :
    Document.load .standard textBlockFiles "a\nb" 4 = .error (.file "a\nb" .notFound) := by
  have hname : Path.IsName "a\nb" := ⟨by decide, by decide, by decide, by decide⟩
  have hread : textBlockFiles.read "a\nb" = .error .notFound :=
    Files.read_of_lookup_eq_none isName_of_mem_textBlockFiles hname (by decide) (by decide) rfl
  rw [Document.load, Document.readFile, hread]
  rfl

/-- The lines of a report are broken by a message that names a text block, in a report for scripts,
and by the name of a file with a line end, also in a report of workflow commands. -/
theorem render_breaks_lines :
    ∃ l, Linter.ofConfig Config.default 0 = .ok l ∧
      (∀ style : CompactStyle,
        let report := l.lint .standard textBlockFiles ["t.json"]
        ¬ ShowsLines (style.render report) (report.diagnostics.map style.renderDiagnostic)) ∧
      let report := l.lint .standard textBlockFiles ["a\nb"]
      ¬ ShowsLines (GithubStyle.render ⟨false⟩ report)
        (report.diagnostics.map GithubStyle.renderDiagnostic) := by
  have hlayout : Config.default.layout = LayoutSettings.default := rfl
  obtain ⟨table, htable, hconfig⟩ := exists_ofConfig Config.default rfl 0
  rw [hlayout] at htable
  let l : Linter := ⟨Config.default, table, 0⟩
  refine ⟨l, hconfig, ?_, ?_⟩
  · intro style report hlines
    let doc : Document := ⟨"t.json", none, textBlockTree, .ofString (textBlock ++ ";") 4⟩
    let f : Finding := ⟨2, 6, 5, 1, .sameLine textBlock ";", none⟩
    -- The walk asks for the semicolon on the line on which the text block starts.
    have hfound : (ProgramTable.ofSettings .default).toOption.map (fun table =>
        decide (f ∈ walkFindings ⟨doc.source, .default⟩ table textBlockTree)) = some true := by
      decide +kernel
    rw [htable] at hfound
    have hverify : f ∈ verify ⟨doc.source, .default⟩ table textBlockTree :=
      List.mem_mergeSort.2 (of_decide_eq_true (Option.some.inj hfound))
    obtain ⟨d, hd, hmessage⟩ : ∃ d ∈ l.diagnosticsOf .standard doc, d.message = f.message.text := by
      obtain ⟨-, -, -, hmessage⟩ := diagnose_fields l doc _ f
      exact ⟨_, List.mem_mergeSort.2 (List.mem_map.2 ⟨f, List.mem_filter.2 ⟨hverify, rfl⟩, rfl⟩),
        hmessage⟩
    have hmem : d ∈ report.diagnostics := mem_diagnostics_lint.2
      (.inl ⟨_, List.mem_singleton_self _, doc, load_textBlockFile, hd⟩)
    have hnone := ((style.showsLines_render_iff fun d hd => lineEnds_rule hd).1 hlines d hmem).2
    rw [hmessage] at hnone
    exact absurd hnone (by decide)
  · intro report hlines
    have hmem : loadError "a\nb" (.file "a\nb" .notFound) ∈ report.diagnostics :=
      mem_diagnostics_lint.2 (.inr ⟨_, List.mem_singleton_self _, _, load_missing, rfl⟩)
    have hnone := (GithubStyle.showsLines_render_iff fun d hd => lineEnds_rule hd).1 hlines _ hmem
    exact absurd hnone (by decide)

end Linter

end TreeLayout
