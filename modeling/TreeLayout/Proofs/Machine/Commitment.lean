import TreeLayout.Proofs.Machine.Outcome
import TreeLayout.Proofs.Program.Acceptance

/-!
# Forks do not commit to paths that reject

At a fork the machine looks along both paths. If one of them accepts the current child, or the end
of the children, the run comes through: it reports no fault until that child is consumed or the
program has ended (`FindsPath.isFault_eq_false`). So a fault is reported only if each fork since the
child consumed last found that both of its paths reject.

The faults of a run are its own. What the expression checker finds inside the child is reported by the
step that consumes the child, and may be a fault too (`fork_commits_to_faulty_expression`).

Looking ahead and running go through the same steps in two ways. Looking ahead shares one budget
between the paths of all forks on its way, while the run asks anew at each fork that it comes to.
That they agree is `Program.Sees.move`.
-/

namespace TreeLayout.Machine

variable {m : Task} {s t : State}

/-- The run stands at a fork, and looking ahead finds that one of its paths accepts the current
child, or that none is left. -/
def FindsPath (m : Task) (s : State) : Prop :=
  ∃ target, m.program.step? s.pc = some (.fork target) ∧
    (acceptance m.program (s.pc + 1) s.currentKind ≠ none ∨
      acceptance m.program target s.currentKind ≠ none)

/-- The run from `s` comes to `t` before it consumes a child. -/
def ComesTo (m : Task) (s t : State) : Prop :=
  ∃ n, after m n s = some t ∧ t.consumed = s.consumed

/-- A run that consumed no child has the same children left, and only moved control. -/
theorem ComesTo.moves (h : ComesTo m s t) :
    t.rest = s.rest ∧ ∃ n, m.program.moves? s.currentKind n s.pc = some t.pc := by
  obtain ⟨n, hafter, hconsumed⟩ := h
  have hrest : t.rest = s.rest := by
    have hchildren := after_children hafter
    rw [hconsumed] at hchildren
    exact List.append_cancel_left hchildren
  obtain ⟨-, hmoves⟩ := after_moves hafter (by rw [hrest])
  exact ⟨hrest, n, hmoves⟩

/-- From a fork with a path that accepts, the child is seen to be accepted at every later step up to
the one that consumes it. -/
theorem FindsPath.sees (h : FindsPath m s) (hcomes : ComesTo m s t) :
    t.pc = s.pc ∨ m.program.Sees t.currentKind t.pc := by
  obtain ⟨target, hop, hpath⟩ := h
  obtain ⟨hrest, n, hmoves⟩ := hcomes.moves
  have hkind : t.currentKind = s.currentKind := by
    unfold State.currentKind State.current
    rw [hrest]
  rw [hkind]
  cases n with
  | zero => exact .inl (Option.some.inj hmoves).symm
  | succ n =>
    right
    rw [Program.moves?, Option.bind_eq_some_iff] at hmoves
    obtain ⟨pc, hmove, hmoves'⟩ := hmoves
    -- The first move is that of the fork, and it goes along a path that accepts.
    simp only [Program.move?, hop, Option.some.injEq] at hmove
    subst hmove
    exact Program.Sees.moves (.inl (Program.acceptance_ne_none_of_choose hpath)) hmoves'

/-- Before the child is consumed the run does not end, unless at the end with no child left. -/
theorem FindsPath.finished (h : FindsPath m s) (hcomes : ComesTo m s t) (hends : EndsAt m t) :
    m.program.step? t.pc = some .finish ∧ t.rest = [] := by
  obtain ⟨target, hop, -⟩ := id h
  obtain hpc | hsees := h.sees hcomes
  · -- The run is still at the fork, which does not end it.
    unfold EndsAt at hends
    rw [hpc, hop] at hends
    obtain hends | ⟨e, hends, -⟩ := hends
    · cases hends
    · cases hends
  · obtain ⟨hexpect, hfinish⟩ := hsees.accepts
    obtain hends | ⟨e, he, hno⟩ := hends
    · have hnone : t.rest.head?.map Tree.kind = none := hfinish hends
      rw [Option.map_eq_none_iff, List.head?_eq_none_iff] at hnone
      exact ⟨hends, hnone⟩
    · rw [hexpect e he] at hno
      cases hno

/-- Before the child is consumed, and by the step that consumes it, no fault is logged. -/
theorem FindsPath.isFault_eq_false (hp : m.program.WellFormed) (hs : s.pc < m.program.steps.length)
    (h : FindsPath m s) (hcomes : ComesTo m s t) : ∀ ev ∈ logged m t, ev.isFault = false := by
  intro ev hev
  cases hnext : next? m t with
  | some t' => exact isFault_of_next? hnext hev
  | none =>
    obtain ⟨n, hafter, -⟩ := id hcomes
    have hends := endsAt_of_next?_eq_none (after_pc_lt hp hafter hs) hnext
    obtain ⟨hop, hrest⟩ := h.finished hcomes hends
    rw [logged_of_finish hop hrest, List.mem_singleton] at hev
    subst hev
    rfl

/-- No fork of an accepted program commits to a path that rejects. If a fork of a run finds a path
that accepts, no fault is logged from there until the current child is consumed, and if the run ends
before, it ends with success. So a state of a run that logs a fault comes, since the child consumed
last, only from forks both paths of which reject. -/
theorem forks_commit_to_accepting_paths {kind : Kind} {authored : List Step} {multiple : Bool}
    {p : Program} (h : Program.resolve kind authored multiple = .ok p) (cx : Context) (f : Focus) :
    (∀ i s, after (Task.of cx f p) i (.start f.tree) = some s → FindsPath (Task.of cx f p) s →
        ∀ t, ComesTo (Task.of cx f p) s t →
          (∀ ev ∈ logged (Task.of cx f p) t, ev.isFault = false) ∧
            (EndsAt (Task.of cx f p) t → p.step? t.pc = some .finish ∧ t.rest = [])) ∧
      ∀ ev ∈ run cx f p, ev.isFault = true →
        ∃ n t, after (Task.of cx f p) n (.start f.tree) = some t ∧ ev ∈ logged (Task.of cx f p) t ∧
          ∀ i s target, after (Task.of cx f p) i (.start f.tree) = some s →
            ComesTo (Task.of cx f p) s t → p.step? s.pc = some (.fork target) →
              acceptance p (s.pc + 1) s.currentKind = none ∧
                acceptance p target s.currentKind = none := by
  have hp := Program.wellFormed_of_resolve h
  have hstart : ∀ {i s}, after (Task.of cx f p) i (.start f.tree) = some s →
      s.pc < p.steps.length := fun hafter =>
    after_pc_lt (m := Task.of cx f p) hp hafter hp.length_pos
  constructor
  · intro i s hafter hpath t hcomes
    exact ⟨hpath.isFault_eq_false hp (hstart hafter) hcomes, hpath.finished hcomes⟩
  · intro ev hev hfault
    obtain ⟨n, t, ht, hlogged⟩ := exists_after_of_mem_runFrom hev
    refine ⟨n, t, ht, hlogged, fun i s target hs hcomes hop => ?_⟩
    -- A path that accepts would have kept the fault out of the log.
    by_contra hno
    rw [not_and_or] at hno
    have hpath : FindsPath (Task.of cx f p) s := ⟨target, hop, hno⟩
    rw [hpath.isFault_eq_false hp (hstart hs) hcomes ev hlogged] at hfault
    cases hfault

/-- The first fork of a program finds its path through another fork and an optional expectation, and
the run comes to that expectation without a fault. -/
theorem forks_commit_to_accepting_paths_optional :
    let authored : List Step :=
      [.fork 0, .expect (.kind (.token .lBrace)), .branch 1,
       .label 0, .fork 2, .expect (.kind (.token .semi)), .branch 1,
       .label 2, .optional, .layout .noWrap, .expect (.kind (.token .identifier)),
       .label 1, .finish]
    let p : Program :=
      ⟨.construct .block,
        [.fork 4, .expect (.kind (.token .lBrace)), .branch 12,
         .label 0, .fork 8, .expect (.kind (.token .semi)), .branch 12,
         .label 2, .optional, .layout .noWrap, .expect (.kind (.token .identifier)),
         .label 1, .finish], false⟩
    let cx : Context := ⟨.ofString "a b" 4, .default⟩
    let f : Focus := .ofRoot (.node .block (.token .identifier "a" ⟨1, 0⟩)
      [.token .identifier "b" ⟨1, 2⟩])
    let s : State := .start f.tree
    let t : State := { s with pc := 10 }
    Program.resolve (.construct .block) authored false = .ok p ∧
      FindsPath (Task.of cx f p) s ∧ ComesTo (Task.of cx f p) s t ∧
      ∀ ev ∈ logged (Task.of cx f p) t, ev.isFault = false := by
  intro authored p cx f s t
  have hresolve : Program.resolve (.construct .block) authored false = .ok p := rfl
  have hpath : FindsPath (Task.of cx f p) s := ⟨4, rfl, .inr (by decide)⟩
  have hcomes : ComesTo (Task.of cx f p) s t := ⟨4, rfl, rfl⟩
  obtain ⟨hquiet, -⟩ := forks_commit_to_accepting_paths hresolve cx f
  exact ⟨hresolve, hpath, hcomes, (hquiet 0 s rfl hpath t hcomes).1⟩

/-- An operand is missing in an argument. The fork before the argument finds that one of its paths
accepts it, and the step that is to consume it reports a missing token, which is what the expression
checker finds inside. -/
theorem fork_commits_to_faulty_expression :
    let authored : List Step :=
      [.expect (.kind (.token .lParen)), .fork 0, .expect .expr, .label 0,
       .expect (.kind (.token .rParen)), .finish]
    let p : Program :=
      ⟨.construct .arguments,
        [.expect (.kind (.token .lParen)), .fork 4, .expect .expr, .label 0,
         .expect (.kind (.token .rParen)), .finish], false⟩
    let cx : Context := ⟨.ofString "(a +)" 4, .default⟩
    let opening : Tree := .token .lParen "(" ⟨1, 0⟩
    let argument : Tree := .node .binaryExpr (.token .identifier "a" ⟨1, 1⟩)
      [.token .operator "+" ⟨1, 3⟩]
    let closing : Tree := .token .rParen ")" ⟨1, 4⟩
    let f : Focus := .ofRoot (.node .arguments opening [argument, closing])
    let s : State := ⟨1, [opening], [argument, closing], .unset⟩
    let t : State := { s with pc := 2 }
    Program.resolve (.construct .arguments) authored false = .ok p ∧
      after (Task.of cx f p) 1 (.start f.tree) = some s ∧ FindsPath (Task.of cx f p) s ∧
      ComesTo (Task.of cx f p) s t ∧
      ∃ ev ∈ logged (Task.of cx f p) t, ∃ fault, ev.finding? = some fault ∧
        fault.message = .missingToken "+" := by
  intro authored p cx opening argument closing f s t
  have hpath : FindsPath (Task.of cx f p) s := ⟨4, rfl, .inl (by decide)⟩
  have hlogged : logged (Task.of cx f p) t = [.step 2 (.expect .expr) (some argument) .unset,
      .expression ⟨1, 4, 3, 1, .missingToken "+", none⟩] := by
    rfl
  refine ⟨rfl, rfl, hpath, ⟨1, rfl, rfl⟩, .expression ⟨1, 4, 3, 1, .missingToken "+", none⟩, ?_, _,
    rfl, rfl⟩
  rw [hlogged]
  exact List.mem_cons_of_mem _ (List.mem_singleton_self _)

end TreeLayout.Machine
