import Mathlib.Data.List.Induction
import TreeLayout.Host.Standard
import TreeLayout.Lint
import TreeLayout.Proofs.Files.Plain
import TreeLayout.Proofs.Table.Programs

/-!
# Rule settings and reported diagnostics

The settings of rules admit a diagnostic if its rule is reported, its file is not exempt from that
rule, and its severity is the one that they give to the rule (`RuleSettings.Admits`). Which files a
pattern matches is given. Every diagnostic that comes from a finding is admitted. A document that
cannot be loaded is reported without a look at the settings: as an error, under a rule of its own. So
all diagnostics of a run are admitted exactly if the settings happen to admit these errors, and they
need not.

Threads change nothing of this. They finish their tasks in an order of their own, but a report
stands at the place of its task (`ThreadPool.map_eq`).
-/

namespace TreeLayout

/-! ## Threads -/

namespace ThreadPool

variable {α β : Type}

/-- Among results with the numbers of their tasks, the number of a task that is finished leads to its
result. -/
theorem lookup_filterMap (f : α → β) (as : List α) (order : List Nat) (i : Nat) :
    (order.filterMap fun j => as[j]?.map fun a => (j, f a)).lookup i =
      if i ∈ order then as[i]?.map f else none := by
  induction order with
  | nil => rfl
  | cons j order ih =>
    by_cases hij : i = j
    · subst hij
      cases hget : as[i]? with
      | none => simp [hget, ih]
      | some a => simp [hget]
    · have hother : i ∈ j :: order ↔ i ∈ order := by simp [hij]
      simp only [hother, ← ih]
      cases hget : as[j]? with
      | none => simp [hget]
      | some a => simp [hget, List.lookup_cons, beq_false_of_ne hij]

/-- A list read number by number is the list. -/
theorem filterMap_range_getElem? (as : List α) :
    ((List.range as.length).filterMap fun i => as[i]?) = as := by
  induction as using List.reverseRecOn with
  | nil => rfl
  | append_singleton as a ih =>
    have hbefore : ∀ i ∈ List.range as.length, (as ++ [a])[i]? = as[i]? := fun i hi =>
      List.getElem?_append_left (List.mem_range.1 hi)
    rw [List.length_append, List.length_singleton, List.range_succ, List.filterMap_append,
      List.filterMap_congr hbefore, ih]
    simp

/-- Threads give the results of one task after the other, whatever the order in which they finish. -/
theorem map_eq (pool : ThreadPool) (f : α → β) (as : List α) : pool.map f as = as.map f := by
  have hlookup : ∀ i ∈ List.range as.length, (pool.finished f as).lookup i = (as.map f)[i]? := by
    intro i hi
    rw [List.getElem?_map, finished, lookup_filterMap,
      if_pos ((pool.order_perm as.length).mem_iff.2 hi)]
  calc pool.map f as = (List.range as.length).filterMap fun i => (as.map f)[i]? :=
        List.filterMap_congr hlookup
    _ = (List.range (as.map f).length).filterMap fun i => (as.map f)[i]? := by
        rw [List.length_map]
    _ = as.map f := filterMap_range_getElem? _

end ThreadPool

/-! ## Settings of rules -/

namespace RuleSettings

/-- The settings admit a diagnostic, given which files a pattern matches. -/
structure Admits (r : RuleSettings) (isMatch : String → String → Bool) (d : Diagnostic) : Prop where
  /-- The rule is not among those that are not reported. -/
  notDisabled : d.rule ∉ r.disabled
  /-- The rule is among those that are reported, if there are any. -/
  enabled : r.enabled = [] ∨ d.rule ∈ r.enabled
  /-- No pattern that matches the file exempts it from the rule, or from all rules. -/
  notIgnored : ∀ entry ∈ r.perFile, isMatch entry.1 d.location.file = true →
    "all" ∉ entry.2 ∧ d.rule ∉ entry.2
  /-- The severity is the one that is given to the rule, if one is. -/
  severity : ∀ s, r.severity? d.rule = some s → d.severity = s

variable {r : RuleSettings} {isMatch : String → String → Bool} {rule file : String}

/-- What it takes for a rule to be reported. -/
theorem isEnabled_iff :
    r.isEnabled rule = true ↔ rule ∉ r.disabled ∧ (r.enabled = [] ∨ rule ∈ r.enabled) := by
  unfold isEnabled
  simp

/-- What it takes for a rule to be reported for a file. -/
theorem isIgnored_eq_false_iff :
    r.isIgnored isMatch rule file = false ↔
      ∀ entry ∈ r.perFile, isMatch entry.1 file = true →
        "all" ∉ entry.2 ∧ rule ∉ entry.2 := by
  unfold isIgnored
  rw [List.any_eq_false]
  apply forall₂_congr
  rintro ⟨pattern, rules⟩ -
  simp only [Bool.and_eq_true, List.any_eq_true, Bool.or_eq_true, beq_iff_eq, not_and, not_exists,
    not_or]
  constructor
  · intro h hmatches
    exact ⟨fun hall => (h hmatches _ hall).1 rfl, fun hrule => (h hmatches _ hrule).2 rfl⟩
  · intro h hmatches s hs
    obtain ⟨hall, hrule⟩ := h hmatches
    exact ⟨fun heq => hall (heq ▸ hs), fun heq => hrule (heq ▸ hs)⟩

end RuleSettings

/-- Loading has a rule of its own. -/
theorem Rule.id_ne_loadErrorRule (rule : Rule) : rule.id ≠ loadErrorRule := by
  cases rule <;> decide

/-- Lines around a place do not change what is reported about it. -/
theorem Diagnostic.withContext_fields (d : Diagnostic) (lines : List String) (count : Nat) :
    (d.withContext lines count).rule = d.rule ∧
      (d.withContext lines count).severity = d.severity ∧
      (d.withContext lines count).location = d.location ∧
      (d.withContext lines count).message = d.message := by
  unfold withContext
  dsimp only
  split_ifs
  · exact ⟨rfl, rfl, rfl, rfl⟩
  · exact ⟨rfl, rfl, rfl, rfl⟩

namespace Linter

variable {l : Linter} {host : Host} {files : Files} {d : Diagnostic}

/-- Each configuration that can be used has a linter, with the programs of its layout. -/
theorem exists_ofConfig (config : Config) (h : config.layout.check = .ok ()) (contextLines : Nat) :
    ∃ table, ProgramTable.ofSettings config.layout = .ok table ∧
      Linter.ofConfig config contextLines = .ok ⟨config, table, contextLines⟩ := by
  obtain ⟨table, htable⟩ := ProgramTable.exists_ofSettings config.layout
  refine ⟨table, htable, ?_⟩
  unfold ofConfig
  simp only [h, htable]

/-- A diagnostic has the rule and the message of its finding, the severity of that rule, and the file
of the document. -/
theorem diagnose_fields (l : Linter) (doc : Document) (lines : List String) (f : Finding) :
    (l.diagnose doc lines f).rule = f.message.rule.id ∧
      (l.diagnose doc lines f).severity = l.severityOf f.message.rule ∧
      (l.diagnose doc lines f).location.file = doc.displayPath ∧
      (l.diagnose doc lines f).message = f.message.text := by
  unfold diagnose
  dsimp only
  split
  · exact ⟨rfl, rfl, rfl, rfl⟩
  · split
    · exact ⟨rfl, rfl, rfl, rfl⟩
    · obtain ⟨hrule, hseverity, hlocation, hmessage⟩ :=
        Diagnostic.withContext_fields _ lines l.contextLines
      exact ⟨hrule, hseverity, congrArg Location.file hlocation, hmessage⟩

/-- The diagnostics of a document are admitted, and none is under the rule of loading. -/
theorem admits_of_mem_diagnosticsOf {doc : Document} (h : d ∈ l.diagnosticsOf host doc) :
    l.config.rules.Admits host.globMatches d ∧ d.rule ≠ loadErrorRule := by
  unfold diagnosticsOf at h
  rw [List.mem_mergeSort, List.mem_map] at h
  obtain ⟨f, hf, rfl⟩ := h
  obtain ⟨-, hreported⟩ := List.mem_filter.1 hf
  unfold isReported at hreported
  rw [Bool.and_eq_true, Bool.not_eq_true'] at hreported
  obtain ⟨henabled, hignored⟩ := hreported
  obtain ⟨hrule, hseverity, hfile, -⟩ := diagnose_fields l doc
    (doc.source.lines.map fun line =>
      String.ofList (Column.expandTabs doc.source.arithmetic line doc.source.tabWidth)) f
  obtain ⟨hdisabled, henabled⟩ := RuleSettings.isEnabled_iff.1 henabled
  refine ⟨⟨?_, ?_, ?_, ?_⟩, ?_⟩
  · rwa [hrule]
  · rwa [hrule]
  · rw [hrule, hfile]
    exact RuleSettings.isIgnored_eq_false_iff.1 hignored
  · intro s hs
    rw [hrule] at hs
    rw [hseverity, severityOf, hs, Option.getD_some]
  · rw [hrule]
    exact f.message.rule.id_ne_loadErrorRule

/-- The diagnostics of a file are those of its document, or the one about loading it. -/
theorem diagnostics_lintFile (l : Linter) (host : Host) (files : Files) (path : String) :
    (l.lintFile host files path).diagnostics =
      match Document.load host files path l.config.layout.tabWidth with
      | .ok doc => l.diagnosticsOf host doc
      | .error e => [loadError path e] := by
  unfold lintFile
  cases Document.load host files path l.config.layout.tabWidth with
  | ok doc => rfl
  | error e => rfl

/-- With threads or without, there is a report for each file, in the order of the files. -/
theorem reports_eq (l : Linter) (host : Host) (files : Files) (paths : List String) :
    l.reports host files paths = paths.map (l.lintFile host files) := by
  unfold reports
  cases l.pool? host with
  | none => rfl
  | some pool => exact pool.map_eq _ _

/-- The diagnostics of several files are those of each of them, in their order. -/
theorem diagnostics_lint (l : Linter) (host : Host) (files : Files) (paths : List String) :
    (l.lint host files paths).diagnostics =
      paths.flatMap fun path => (l.lintFile host files path).diagnostics := by
  -- Reports are added up from the left, so the induction is over what was added before.
  have hfold : ∀ (before : Report), ((paths.map (l.lintFile host files)).foldl Report.merge
      before).diagnostics = before.diagnostics ++
        paths.flatMap fun path => (l.lintFile host files path).diagnostics := by
    induction paths with
    | nil => simp
    | cons path paths ih =>
      intro before
      rw [List.map_cons, List.foldl_cons, ih, List.flatMap_cons, ← List.append_assoc]
      rfl
  rw [lint, reports_eq, hfold]
  rfl

/-- A diagnostic comes from the document of a path, or from a path whose document cannot be
loaded. -/
theorem mem_diagnostics_lint {paths : List String} :
    d ∈ (l.lint host files paths).diagnostics ↔
      (∃ path ∈ paths, ∃ doc, Document.load host files path l.config.layout.tabWidth = .ok doc ∧
          d ∈ l.diagnosticsOf host doc) ∨
        ∃ path ∈ paths, ∃ e, Document.load host files path l.config.layout.tabWidth = .error e ∧
          d = loadError path e := by
  simp only [diagnostics_lint, List.mem_flatMap, diagnostics_lintFile]
  constructor
  · rintro ⟨path, hpath, hd⟩
    split at hd
    · rename_i doc hload
      exact .inl ⟨path, hpath, doc, hload, hd⟩
    · rename_i e hload
      exact .inr ⟨path, hpath, e, hload, List.mem_singleton.1 hd⟩
  · rintro (⟨path, hpath, doc, hload, hd⟩ | ⟨path, hpath, e, hload, rfl⟩)
    · exact ⟨path, hpath, by rwa [hload]⟩
    · exact ⟨path, hpath, by rw [hload]; exact List.mem_singleton_self _⟩

/-- Every diagnostic that is not about loading is admitted by the settings of rules. Those about
loading are one error for each path whose document cannot be loaded, whatever the settings are; so
all diagnostics of a run are admitted exactly if the settings admit these. It is the same for every
host: whatever its patterns match, and with its threads as without them. -/
theorem lint_admitted_iff (l : Linter) (host : Host) (files : Files) (paths : List String) :
    (∀ d ∈ (l.lint host files paths).diagnostics, d.rule ≠ loadErrorRule →
        l.config.rules.Admits host.globMatches d) ∧
      (∀ d, d.rule = loadErrorRule → (d ∈ (l.lint host files paths).diagnostics ↔
        ∃ path ∈ paths, ∃ e, Document.load host files path l.config.layout.tabWidth = .error e ∧
          d = loadError path e)) ∧
      ((∀ d ∈ (l.lint host files paths).diagnostics, l.config.rules.Admits host.globMatches d) ↔
        ∀ path ∈ paths, ∀ e, Document.load host files path l.config.layout.tabWidth = .error e →
          l.config.rules.Admits host.globMatches (loadError path e)) := by
  refine ⟨?_, ?_, ?_⟩
  · intro d hd hrule
    obtain ⟨path, -, doc, -, hd⟩ | ⟨path, -, e, -, rfl⟩ := mem_diagnostics_lint.1 hd
    · exact (admits_of_mem_diagnosticsOf hd).1
    · exact absurd rfl hrule
  · intro d hrule
    rw [mem_diagnostics_lint]
    refine or_iff_right ?_
    rintro ⟨path, -, doc, -, hd⟩
    exact (admits_of_mem_diagnosticsOf hd).2 hrule
  · constructor
    · intro h path hpath e hload
      exact h _ (mem_diagnostics_lint.2 (.inr ⟨path, hpath, e, hload, rfl⟩))
    · intro h d hd
      obtain ⟨path, -, doc, -, hd⟩ | ⟨path, hpath, e, hload, rfl⟩ := mem_diagnostics_lint.1 hd
      · exact (admits_of_mem_diagnosticsOf hd).1
      · exact h path hpath e hload

/-- A document that is not there is reported although the rule of loading is disabled. -/
theorem lint_reports_disabled_rule :
    let rules : RuleSettings := { RuleSettings.default with disabled := [loadErrorRule] }
    ∃ l, Linter.ofConfig { Config.default with rules } 0 = .ok l ∧
      ∃ d ∈ (l.lint .standard { entries := [] } ["a"]).diagnostics,
        d.rule = loadErrorRule ∧ ¬ l.config.rules.Admits Host.standard.globMatches d := by
  intro rules
  obtain ⟨table, -, hconfig⟩ := exists_ofConfig { Config.default with rules } rfl 0
  have hload : Document.load .standard { entries := [] } "a" 4 = .error (.file "a" .notFound) := by
    have hread : Files.read { entries := [] } "a" = .error .notFound :=
      Files.read_of_lookup_eq_none (by simp) ⟨by decide, by decide, by decide, by decide⟩
        (by decide) (by decide) rfl
    rw [Document.load, Document.readFile, hread]
    rfl
  refine ⟨_, hconfig, _,
    mem_diagnostics_lint.2 (.inr ⟨_, List.mem_singleton_self _, _, hload, rfl⟩), rfl,
    fun hadmits => ?_⟩
  exact hadmits.notDisabled (List.mem_singleton_self _)

end Linter

end TreeLayout
