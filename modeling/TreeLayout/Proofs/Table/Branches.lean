import TreeLayout.Proofs.Table.Sequences

/-!
# The grammar of the constructs that branch

Declarations and control statements have parts that may be missing and parts with several forms: a
block or another statement as a body, an `else` or none, modifiers or none. `Grammar.branching?`
gives the grammar of each of them. For all settings, the program of the construct reports no fault
exactly on the sentences of its grammar.

The programs are listed with the layout checks as parameters, and their languages follow from one
equation for each step that is jumped to. Two forms return: a statement body, which is any child
(`language_statementBody`), and a type before which modifiers may stand (`Grammar.typed`).
-/

namespace TreeLayout

open scoped Computability

namespace Grammar

/-- A keyword and an expression between parentheses. -/
def header (keyword : TokenKind) : Language Kind :=
  token keyword * token .lParen * expression * token .rParen

/-- A type, which is any child, before which modifiers may stand. Leading modifiers are never taken
for the type. -/
def typed : Language Kind := construct .modifiers * child + childBut (.construct .modifiers)

/-- The children of a construct that branches. -/
def branching? : ConstructKind → Option (Language Kind)
  | .ifStatement => some (header .kwIf * child * (1 + token .kwElse * child))
  | .forStatement =>
    some (token .kwFor * token .lParen * (1 + childBut (.token .semi)) * token .semi
      * (1 + expression) * token .semi * (1 + expression) * token .rParen * child)
  | .forEachStatement =>
    some (token .kwFor * token .lParen * construct .parameter * token .colon * expression
      * token .rParen * child)
  | .whileStatement => some (header .kwWhile * child)
  | .doStatement => some (token .kwDo * child * header .kwWhile * token .semi)
  | .classDecl =>
    some ((1 + construct .modifiers) * token .kwClass * token .identifier
      * (1 + construct .extendsClause) * (1 + construct .implementsClause) * construct .classBody)
  | .interfaceDecl =>
    some ((1 + construct .modifiers) * token .kwInterface * token .identifier
      * (1 + construct .extendsClause) * construct .classBody)
  | .methodDecl =>
    some (typed * token .identifier * construct .parameters * (1 + construct .throwsClause)
      * (token .semi + construct .block))
  | .constructorDecl =>
    some ((1 + construct .modifiers) * token .identifier * construct .parameters
      * (1 + construct .throwsClause) * construct .block)
  | .fieldDecl =>
    some (typed * token .identifier * (1 + token .assign * expression) * token .semi)
  | .localVarDecl =>
    some (typed * token .identifier * (1 + token .assign * expression) * (1 + token .semi))
  | _ => none

/-- What may stand before something, or be missing. -/
theorem mul_add_self (L M : Language Kind) : L * M + M = (1 + L) * M := by
  rw [add_mul, one_mul, add_comm]

/-- Any child is a child of one kind or of another one. -/
theorem childBut_mul_add_construct (k : ConstructKind) (M : Language Kind) :
    childBut (.construct k) * M + construct k * M = child * M := by
  rw [← add_mul]
  congr 1
  ext ks
  rw [Language.mem_add]
  constructor
  · rintro (⟨k', -, rfl⟩ | ⟨k', -, rfl⟩)
    · exact ⟨k', trivial, rfl⟩
    · exact ⟨k', trivial, rfl⟩
  · rintro ⟨k', -, rfl⟩
    by_cases hk : k' = .construct k
    · exact .inr ⟨k', hk, rfl⟩
    · exact .inl ⟨k', hk, rfl⟩

end Grammar

open Grammar

/-! ## Forms that return -/

namespace Program

variable {p : Program} {pc i : Nat} {M : Language Kind}

/-- A fork to a block, against any child, accepts any child where the same follows both. -/
theorem language_fork_block {target : Nat} (hop : p.step? pc = some (.fork target))
    (hhere : p.language (pc + 1) = words .any * M)
    (hthere : p.language target = words (.kind (.construct .block)) * M)
    (hchoose : ∀ c, p.choose pc target c =
      .between (Expect.any.rank? c) ((Expect.kind (.construct .block)).rank? c)) :
    p.language pc = child * M := by
  rw [language_fork_kind hop hhere hthere hchoose, one_any_ne, words_construct,
    childBut_mul_add_construct]

/-- A statement body is any child: a block is told apart from the others, and both lead on. -/
theorem language_statementBody {n : Nat} (hop : p.step? pc = some (.fork (pc + 5)))
    (hany : p.nextExpect? (pc + 1) = some (pc + 2, .any))
    (hdone : p.step? (pc + 3) = some (.branch (pc + 8)))
    (hblock : p.nextExpect? (pc + 5) = some (pc + 6, .kind (.construct .block)))
    (hlabel : p.step? (pc + 7) = some (.label n))
    (hchoose : ∀ c, p.choose pc (pc + 5) c =
      .between (Expect.any.rank? c) ((Expect.kind (.construct .block)).rank? c)) :
    p.language pc = child * p.language (pc + 8) := by
  refine language_fork_block hop ?_ ?_ hchoose
  · rw [language_of_nextExpect? hany, language_branch hdone]
  · rw [language_of_nextExpect? hblock, language_label hlabel]

/-- Modifiers may stand before what begins with a token. -/
theorem language_modifiers_token {k : TokenKind} (hop : p.step? pc = some .optional)
    (hnext : p.nextExpect? (pc + 1) = some (i, .kind (.construct .modifiers)))
    (hskip : p.language (i + 1) = token k * M) :
    p.language pc = (1 + construct .modifiers) * (token k * M) := by
  have hstart : StartsIn (token k * M) fun c =>
      (Expect.kind (.construct .modifiers)).acceptsCurrent c = false := by
    refine startsIn_one_mul ?_
    rintro k' rfl
    rfl
  rw [language_optional hop hnext hskip hstart, words_construct, mul_add_self]

/-- Modifiers may stand before what begins with any child. -/
theorem language_modifiers_any (hop : p.step? pc = some .optional)
    (hnext : p.nextExpect? (pc + 1) = some (i, .kind (.construct .modifiers)))
    (hskip : p.language (i + 1) = child * M) : p.language pc = typed * M := by
  have hother : one (fun k => True ∧
      (Expect.kind (.construct .modifiers)).acceptsKind k = false) =
        childBut (.construct .modifiers) := by
    refine congrArg one (funext fun k => propext ?_)
    rw [true_and, Expect.acceptsKind, decide_eq_false_iff_not]
  rw [language_optional_one hop hnext hskip, words_construct, hother, typed, add_mul, mul_assoc]
  rfl

/-- A construct that may be missing stands before what begins with another one. -/
theorem language_optional_construct {k k' : ConstructKind} (hne : k' ≠ k)
    (hop : p.step? pc = some .optional)
    (hnext : p.nextExpect? (pc + 1) = some (i, .kind (.construct k)))
    (hskip : p.language (i + 1) = construct k' * M) :
    p.language pc = (1 + construct k) * (construct k' * M) := by
  have hstart : StartsIn (construct k' * M) fun c =>
      (Expect.kind (.construct k)).acceptsCurrent c = false := by
    refine startsIn_one_mul ?_
    rintro _ rfl
    simpa [Expect.acceptsCurrent, Expect.acceptsKind] using hne
  rw [language_optional hop hnext hskip hstart, words_construct, mul_add_self]

end Program

namespace Template

open Program (language_of_passes? language_finish language_branch language_label
  language_fork_kind language_fork_finish language_fork_block language_statementBody)

/-! ## Conditions and loops -/

/-- The expectations of a keyword and an expression between parentheses. -/
def headerExpects (keyword : TokenKind) : List Expect :=
  [.kind (.token keyword), .kind (.token .lParen), .expr, .kind (.token .rParen)]

/-- These expectations are a header. -/
theorem prod_headerExpects (keyword : TokenKind) :
    ((headerExpects keyword).map words).prod = header keyword := by
  simp only [headerExpects, List.map_cons, List.map_nil, List.prod_cons, List.prod_nil,
    words_token, words_expr, mul_one, header, mul_assoc]

/-- The program of an if statement. -/
def ifProgram (kind : Kind) (body brace afterBody otherwise : LayoutOp) (multiple : Bool) :
    Program :=
  ⟨kind,
    [.expect (.kind (.token .kwIf)), .layout .noWrap, .expect (.kind (.token .lParen)),
     .layout .noWrap, .expect .expr, .layout .noWrap, .expect (.kind (.token .rParen)),
     .fork 15, .layout body, .expect .any, .fork 34, .layout afterBody,
     .expect (.kind (.token .kwElse)), .branch 21,
     .label 0, .layout brace, .expect (.kind (.construct .block)), .fork 34, .layout otherwise,
     .expect (.kind (.token .kwElse)),
     .label 3, .fork 27, .fork 31, .layout body, .expect .any, .branch 34,
     .label 4, .layout .noWrap, .expect (.kind (.construct .ifStatement)), .branch 34,
     .label 5, .layout brace, .expect (.kind (.construct .block)),
     .label 2, .finish], multiple⟩

/-- An if statement is a condition and any child, and at most one `else` with any child. -/
theorem language_ifProgram (kind : Kind) (body brace afterBody otherwise : LayoutOp)
    (multiple : Bool) :
    (ifProgram kind body brace afterBody otherwise multiple).language 0 =
      header .kwIf * child * (1 + token .kwElse * child) := by
  let p := ifProgram kind body brace afterBody otherwise multiple
  have h34 : p.language 34 = 1 := language_finish rfl
  have h33 : p.language 33 = p.language 34 := language_label rfl
  -- After `else` a block, an if statement and any other child are told apart, and all lead on.
  have h31 : p.language 31 = words (.kind (.construct .block)) * p.language 33 :=
    Program.language_of_nextExpect? rfl
  have h29 : p.language 29 = p.language 34 := language_branch rfl
  have h27 : p.language 27 = words (.kind (.construct .ifStatement)) * p.language 29 :=
    Program.language_of_nextExpect? rfl
  have h25 : p.language 25 = p.language 34 := language_branch rfl
  have h23 : p.language 23 = words .any * p.language 25 := Program.language_of_nextExpect? rfl
  rw [h25] at h23
  rw [h33] at h31
  have h22 : p.language 22 = child * p.language 34 := language_fork_block rfl h23 h31 fun _ => rfl
  have hstay : ∀ c, p.choose 21 27 c = .stay ↔ c ≠ some (.construct .ifStatement) := fun c =>
    Program.between_kind_eq_stay_iff (Program.bestRank_le .any (.kind (.construct .block)) c) _ c
  have h21 := Program.language_fork_of_stay_iff rfl h22 h27 hstay
  have hother : one (fun k => True ∧ k ≠ .construct .ifStatement) =
      childBut (.construct .ifStatement) :=
    congrArg one (funext fun _ => true_and _)
  rw [h29, words_construct, hother, childBut_mul_add_construct, h34, mul_one] at h21
  have h20 : p.language 20 = p.language 21 := language_label rfl
  -- After the body comes an `else` or the end, whether the body is a block or not.
  have h18 : p.language 18 = words (.kind (.token .kwElse)) * p.language 20 :=
    Program.language_of_nextExpect? rfl
  have h17 := language_fork_finish rfl h18 h34 fun _ => rfl
  have h15 : p.language 15 = words (.kind (.construct .block)) * p.language 17 :=
    Program.language_of_nextExpect? rfl
  have h13 : p.language 13 = p.language 21 := language_branch rfl
  have h11 : p.language 11 = words (.kind (.token .kwElse)) * p.language 13 :=
    Program.language_of_nextExpect? rfl
  have h10 := language_fork_finish rfl h11 h34 fun _ => rfl
  have h8 : p.language 8 = words .any * p.language 10 := Program.language_of_nextExpect? rfl
  rw [h10, h13, h21, words_token] at h8
  rw [h17, h20, h21, words_token] at h15
  have h7 := language_fork_block rfl h8 h15 fun _ => rfl
  have h0 : p.language 0 = ((headerExpects .kwIf).map words).prod * p.language 7 :=
    language_of_passes? rfl
  change p.language 0 = _
  rw [h0, prod_headerExpects, h7, add_comm (1 : Language Kind), mul_assoc]

/-- The program of a for statement. -/
def forProgram (kind : Kind) (body brace : LayoutOp) (multiple : Bool) : Program :=
  ⟨kind,
    [.expect (.kind (.token .kwFor)), .layout .noWrap, .expect (.kind (.token .lParen)),
     .fork 7, .layout .noWrap, .expect .any,
     .label 0, .layout .noWrap, .expect (.kind (.token .semi)), .fork 13, .layout .mayIndent,
     .expect .expr,
     .label 1, .layout .noWrap, .expect (.kind (.token .semi)), .fork 19, .layout .mayIndent,
     .expect .expr,
     .label 2, .layout .noWrap, .expect (.kind (.token .rParen)), .layout .endRun,
     .fork 27, .layout body, .expect .any, .branch 30,
     .label 3, .layout brace, .expect (.kind (.construct .block)),
     .label 4, .finish], multiple⟩

/-- A for statement is a header of three parts, each of which may be missing, and any child. -/
theorem language_forProgram (kind : Kind) (body brace : LayoutOp) (multiple : Bool) :
    (forProgram kind body brace multiple).language 0 =
      token .kwFor * token .lParen * (1 + childBut (.token .semi)) * token .semi
        * (1 + expression) * token .semi * (1 + expression) * token .rParen * child := by
  let p := forProgram kind body brace multiple
  have hsemi : Expect.expr.acceptsKind (.token .semi) = false := rfl
  have hparen : Expect.expr.acceptsKind (.token .rParen) = false := rfl
  have h30 : p.language 30 = 1 := language_finish rfl
  have h22 : p.language 22 = child * p.language 30 :=
    language_statementBody rfl rfl rfl rfl rfl fun _ => rfl
  have h21 : p.language 21 = p.language 22 := Program.language_layout rfl
  -- A part of the header and the mark after it: the fork skips the part if the mark comes first.
  have h19 : p.language 19 = words (.kind (.token .rParen)) * p.language 21 :=
    Program.language_of_nextExpect? rfl
  have h18 : p.language 18 = p.language 19 := language_label rfl
  have h16 : p.language 16 = words .expr * p.language 18 := Program.language_of_nextExpect? rfl
  have h15 := language_fork_kind rfl h16 h19 fun _ => rfl
  have h13 : p.language 13 = words (.kind (.token .semi)) * p.language 15 :=
    Program.language_of_nextExpect? rfl
  have h12 : p.language 12 = p.language 13 := language_label rfl
  have h10 : p.language 10 = words .expr * p.language 12 := Program.language_of_nextExpect? rfl
  have h9 := language_fork_kind rfl h10 h13 fun _ => rfl
  have h7 : p.language 7 = words (.kind (.token .semi)) * p.language 9 :=
    Program.language_of_nextExpect? rfl
  have h6 : p.language 6 = p.language 7 := language_label rfl
  have h4 : p.language 4 = words .any * p.language 6 := Program.language_of_nextExpect? rfl
  have h3 := language_fork_kind rfl h4 h7 fun _ => rfl
  have h0 : p.language 0 = (([.kind (.token .kwFor), .kind (.token .lParen)] :
      List Expect).map words).prod * p.language 3 := language_of_passes? rfl
  rw [h18, h19, one_ne_eq_words hparen, mul_add_self] at h15
  rw [h12, h13, one_ne_eq_words hsemi, mul_add_self] at h9
  rw [h6, h7, one_any_ne, mul_add_self] at h3
  change p.language 0 = _
  rw [h0, h3, h9, h15, h21, h22, h30]
  simp only [List.map_cons, List.map_nil, List.prod_cons, List.prod_nil, words_token, words_expr,
    mul_one, mul_assoc]

/-- The program of a loop over the elements of an expression. -/
def forEachProgram (kind : Kind) (body brace : LayoutOp) (multiple : Bool) : Program :=
  ⟨kind,
    [.expect (.kind (.token .kwFor)), .layout .noWrap, .expect (.kind (.token .lParen)),
     .layout .noWrap, .expect (.kind (.construct .parameter)), .layout .noWrap,
     .expect (.kind (.token .colon)), .layout .mayIndent, .expect .expr, .layout .noWrap,
     .expect (.kind (.token .rParen)), .layout .endRun,
     .fork 17, .layout body, .expect .any, .branch 20,
     .label 0, .layout brace, .expect (.kind (.construct .block)),
     .label 1, .finish], multiple⟩

/-- A loop over elements is a parameter and an expression between parentheses, and any child. -/
theorem language_forEachProgram (kind : Kind) (body brace : LayoutOp) (multiple : Bool) :
    (forEachProgram kind body brace multiple).language 0 =
      token .kwFor * token .lParen * construct .parameter * token .colon * expression
        * token .rParen * child := by
  let p := forEachProgram kind body brace multiple
  have h20 : p.language 20 = 1 := language_finish rfl
  have h12 : p.language 12 = child * p.language 20 :=
    language_statementBody rfl rfl rfl rfl rfl fun _ => rfl
  have h11 : p.language 11 = p.language 12 := Program.language_layout rfl
  have h0 : p.language 0 = (([.kind (.token .kwFor), .kind (.token .lParen),
      .kind (.construct .parameter), .kind (.token .colon), .expr,
      .kind (.token .rParen)] : List Expect).map words).prod * p.language 11 :=
    language_of_passes? rfl
  change p.language 0 = _
  rw [h0, h11, h12, h20]
  simp only [List.map_cons, List.map_nil, List.prod_cons, List.prod_nil, words_token, words_expr,
    words_construct, mul_one, mul_assoc]

/-- The program of a while statement. -/
def whileProgram (kind : Kind) (body brace : LayoutOp) (multiple : Bool) : Program :=
  ⟨kind,
    [.expect (.kind (.token .kwWhile)), .layout .noWrap, .expect (.kind (.token .lParen)),
     .layout .noWrap, .expect .expr, .layout .noWrap, .expect (.kind (.token .rParen)),
     .fork 12, .layout body, .expect .any, .branch 15,
     .label 0, .layout brace, .expect (.kind (.construct .block)),
     .label 1, .finish], multiple⟩

/-- A while statement is a condition and any child. -/
theorem language_whileProgram (kind : Kind) (body brace : LayoutOp) (multiple : Bool) :
    (whileProgram kind body brace multiple).language 0 = header .kwWhile * child := by
  let p := whileProgram kind body brace multiple
  have h15 : p.language 15 = 1 := language_finish rfl
  have h7 : p.language 7 = child * p.language 15 :=
    language_statementBody rfl rfl rfl rfl rfl fun _ => rfl
  have h0 : p.language 0 = ((headerExpects .kwWhile).map words).prod * p.language 7 :=
    language_of_passes? rfl
  change p.language 0 = _
  rw [h0, prod_headerExpects, h7, h15, mul_one]

/-- The program of a do statement. -/
def doProgram (kind : Kind) (body brace doWhile : LayoutOp) (multiple : Bool) : Program :=
  ⟨kind,
    [.expect (.kind (.token .kwDo)),
     .fork 6, .layout body, .expect .any, .branch 9,
     .label 0, .layout brace, .expect (.kind (.construct .block)),
     .label 1, .layout doWhile, .expect (.kind (.token .kwWhile)), .layout .noWrap,
     .expect (.kind (.token .lParen)), .layout .noWrap, .expect .expr, .layout .noWrap,
     .expect (.kind (.token .rParen)), .layout .noWrap, .expect (.kind (.token .semi)), .finish],
    multiple⟩

/-- A do statement is any child and a condition after it. -/
theorem language_doProgram (kind : Kind) (body brace doWhile : LayoutOp) (multiple : Bool) :
    (doProgram kind body brace doWhile multiple).language 0 =
      token .kwDo * child * header .kwWhile * token .semi := by
  let p := doProgram kind body brace doWhile multiple
  have h19 : p.language 19 = 1 := language_finish rfl
  have h17 : p.language 17 = words (.kind (.token .semi)) * p.language 19 :=
    Program.language_of_nextExpect? rfl
  have h9 : p.language 9 = ((headerExpects .kwWhile).map words).prod * p.language 17 :=
    language_of_passes? rfl
  have h1 : p.language 1 = child * p.language 9 :=
    language_statementBody rfl rfl rfl rfl rfl fun _ => rfl
  have h0 : p.language 0 = words (.kind (.token .kwDo)) * p.language 1 :=
    Program.language_of_nextExpect? rfl
  change p.language 0 = _
  rw [h0, h1, h9, h17, h19, prod_headerExpects, words_token, words_token, mul_one]
  simp only [mul_assoc]

/-! ## Declarations -/

/-- The program of a class declaration. -/
def classProgram (kind : Kind) (annotated extendsOp implementsOp brace : LayoutOp)
    (multiple : Bool) : Program :=
  ⟨kind,
    [.optional, .expect (.kind (.construct .modifiers)), .layout annotated,
     .expect (.kind (.token .kwClass)), .layout .noWrap, .expect (.kind (.token .identifier)),
     .optional, .layout extendsOp, .expect (.kind (.construct .extendsClause)),
     .optional, .layout implementsOp, .expect (.kind (.construct .implementsClause)),
     .layout brace, .expect (.kind (.construct .classBody)), .finish], multiple⟩

/-- A class declaration is a name, clauses that may be missing, and a body. -/
theorem language_classProgram (kind : Kind) (annotated extendsOp implementsOp brace : LayoutOp)
    (multiple : Bool) :
    (classProgram kind annotated extendsOp implementsOp brace multiple).language 0 =
      (1 + construct .modifiers) * token .kwClass * token .identifier
        * (1 + construct .extendsClause) * (1 + construct .implementsClause)
        * construct .classBody := by
  let p := classProgram kind annotated extendsOp implementsOp brace multiple
  have h14 : p.language 14 = 1 := language_finish rfl
  have h12 : p.language 12 = words (.kind (.construct .classBody)) * p.language 14 :=
    Program.language_of_nextExpect? rfl
  rw [words_construct, h14] at h12
  have hnext9 : p.nextExpect? 10 = some (11, .kind (.construct .implementsClause)) := rfl
  have h9 := Program.language_optional_construct (by decide) rfl hnext9 h12
  -- What follows an extends clause begins with an implements clause or with the body.
  have hnext6 : p.nextExpect? 7 = some (8, .kind (.construct .extendsClause)) := rfl
  have hstart : StartsIn ((1 + construct .implementsClause) * (construct .classBody * 1)) fun c =>
      (Expect.kind (.construct .extendsClause)).acceptsCurrent c = false := by
    rw [add_mul, one_mul]
    refine .add (startsIn_one_mul ?_) (startsIn_one_mul ?_)
    · rintro k rfl
      rfl
    · rintro k rfl
      rfl
  have h6 := Program.language_optional rfl hnext6 h9 hstart
  have h2 : p.language 2 = (([.kind (.token .kwClass), .kind (.token .identifier)] :
      List Expect).map words).prod * p.language 6 := language_of_passes? rfl
  simp only [List.map_cons, List.map_nil, List.prod_cons, List.prod_nil, words_token, mul_one,
    mul_assoc] at h2
  have hnext0 : p.nextExpect? 1 = some (1, .kind (.construct .modifiers)) := rfl
  have h0 : p.language 0 = _ := Program.language_modifiers_token rfl hnext0 h2
  change p.language 0 = _
  rw [h0, h6, words_construct, mul_add_self, mul_one]
  simp only [mul_assoc]

/-- The program of a declaration with one clause that may be missing: an interface or a constructor.
-/
def clauseProgram (kind : Kind) (first : TokenKind) (second : Expect) (clause body : ConstructKind)
    (annotated clauseOp brace : LayoutOp) (multiple : Bool) : Program :=
  ⟨kind,
    [.optional, .expect (.kind (.construct .modifiers)), .layout annotated,
     .expect (.kind (.token first)), .layout .noWrap, .expect second,
     .optional, .layout clauseOp, .expect (.kind (.construct clause)),
     .layout brace, .expect (.kind (.construct body)), .finish], multiple⟩

/-- A declaration with one clause is its two first children, the clause or none, and a body. -/
theorem language_clauseProgram {kind : Kind} {first : TokenKind} {second : Expect}
    {clause body : ConstructKind} {annotated clauseOp brace : LayoutOp} {multiple : Bool}
    (hne : body ≠ clause) :
    (clauseProgram kind first second clause body annotated clauseOp brace multiple).language 0 =
      (1 + construct .modifiers) * token first * words second * (1 + construct clause)
        * construct body := by
  let p := clauseProgram kind first second clause body annotated clauseOp brace multiple
  have h11 : p.language 11 = 1 := language_finish rfl
  have h9 : p.language 9 = words (.kind (.construct body)) * p.language 11 :=
    Program.language_of_nextExpect? rfl
  rw [words_construct, h11] at h9
  have hnext6 : p.nextExpect? 7 = some (8, .kind (.construct clause)) := rfl
  have h6 := Program.language_optional_construct hne rfl hnext6 h9
  have h4 : p.language 4 = words second * p.language 6 := Program.language_of_nextExpect? rfl
  have h2 : p.language 2 = words (.kind (.token first)) * p.language 4 :=
    Program.language_of_nextExpect? rfl
  rw [words_token] at h2
  have hnext0 : p.nextExpect? 1 = some (1, .kind (.construct .modifiers)) := rfl
  have h0 : p.language 0 = _ := Program.language_modifiers_token rfl hnext0 h2
  change p.language 0 = _
  rw [h0, h4, h6, mul_one]
  simp only [mul_assoc]

/-- The program of a method declaration. -/
def methodProgram (kind : Kind) (annotated throwsOp brace : LayoutOp) (multiple : Bool) :
    Program :=
  ⟨kind,
    [.optional, .expect (.kind (.construct .modifiers)), .layout annotated, .expect .any,
     .layout .noWrap, .expect (.kind (.token .identifier)), .layout .noWrap,
     .expect (.kind (.construct .parameters)),
     .optional, .layout throwsOp, .expect (.kind (.construct .throwsClause)),
     .fork 16, .layout .noWrap, .expect (.kind (.token .semi)), .branch 19,
     .label 0, .layout brace, .expect (.kind (.construct .block)),
     .label 1, .finish], multiple⟩

/-- A method declaration is a type, a name, parameters, a clause that may be missing, and a block or
a semicolon. -/
theorem language_methodProgram (kind : Kind) (annotated throwsOp brace : LayoutOp)
    (multiple : Bool) :
    (methodProgram kind annotated throwsOp brace multiple).language 0 =
      typed * token .identifier * construct .parameters * (1 + construct .throwsClause)
        * (token .semi + construct .block) := by
  let p := methodProgram kind annotated throwsOp brace multiple
  have hsemi : (Expect.kind (.token .semi)).acceptsKind (.construct .block) = false := rfl
  have h19 : p.language 19 = 1 := language_finish rfl
  have h18 : p.language 18 = p.language 19 := language_label rfl
  have h16 : p.language 16 = words (.kind (.construct .block)) * p.language 18 :=
    Program.language_of_nextExpect? rfl
  have h14 : p.language 14 = p.language 19 := language_branch rfl
  have h12 : p.language 12 = words (.kind (.token .semi)) * p.language 14 :=
    Program.language_of_nextExpect? rfl
  have h11 := language_fork_kind rfl h12 h16 fun _ => rfl
  rw [h14, h18, h19, one_ne_eq_words hsemi, words_token, words_construct, ← add_mul] at h11
  -- What follows a throws clause begins with a semicolon or with a block.
  have hnext8 : p.nextExpect? 9 = some (10, .kind (.construct .throwsClause)) := rfl
  have hstart : StartsIn ((token .semi + construct .block) * 1) fun c =>
      (Expect.kind (.construct .throwsClause)).acceptsCurrent c = false := by
    rw [add_mul]
    refine .add (startsIn_one_mul ?_) (startsIn_one_mul ?_)
    · rintro k rfl
      rfl
    · rintro k rfl
      rfl
  have h8 := Program.language_optional rfl hnext8 h11 hstart
  have h2 : p.language 2 = (([.any, .kind (.token .identifier), .kind (.construct .parameters)] :
      List Expect).map words).prod * p.language 8 := language_of_passes? rfl
  simp only [List.map_cons, List.map_nil, List.prod_cons, List.prod_nil, words_token, words_any,
    words_construct, mul_one, mul_assoc] at h2
  have hnext0 : p.nextExpect? 1 = some (1, .kind (.construct .modifiers)) := rfl
  have h0 : p.language 0 = _ := Program.language_modifiers_any rfl hnext0 h2
  change p.language 0 = _
  rw [h0, h8, words_construct, mul_add_self, mul_one]
  simp only [mul_assoc]

/-- The program of the declaration of a variable, with what ends it. -/
def declarationProgram (kind : Kind) (annotated assign : LayoutOp) (ending : List Step)
    (multiple : Bool) : Program :=
  ⟨kind,
    [.optional, .expect (.kind (.construct .modifiers)), .layout annotated, .expect .any,
     .layout .noWrap, .expect (.kind (.token .identifier)),
     .fork 12, .layout .noWrap, .expect (.kind (.token .assign)), .layout assign, .expect .expr,
     .label 0] ++ ending ++ [.finish], multiple⟩

section Declaration

variable {kind : Kind} {annotated assign : LayoutOp} {ending : List Step} {multiple : Bool}
  {N : Language Kind}

/-- The declaration of a variable is a type, a name, a value that may be missing, and what ends it,
if the fork before the value tells the assignment mark from the beginnings of the ending. -/
theorem language_declarationProgram
    (hending : (declarationProgram kind annotated assign ending multiple).language 12 = N)
    (hstay : (declarationProgram kind annotated assign ending multiple).choose 6 12
      (some (.token .assign)) = .stay)
    (hjump : StartsIn N fun c =>
      (declarationProgram kind annotated assign ending multiple).choose 6 12 c ≠ .stay) :
    (declarationProgram kind annotated assign ending multiple).language 0 =
      typed * token .identifier * (1 + token .assign * expression) * N := by
  let p := declarationProgram kind annotated assign ending multiple
  have h11 : p.language 11 = p.language 12 := language_label rfl
  have h9 : p.language 9 = words .expr * p.language 11 := Program.language_of_nextExpect? rfl
  have h7 : p.language 7 = words (.kind (.token .assign)) * p.language 9 :=
    Program.language_of_nextExpect? rfl
  rw [words_token] at h7
  have h6 : p.language 6 = token .assign * p.language 9 + N := by
    refine Program.language_fork_of_disjoint rfl h7 hending ?_ hjump
    rintro k rfl
    exact hstay
  have h2 : p.language 2 = (([.any, .kind (.token .identifier)] : List Expect).map words).prod
      * p.language 6 := language_of_passes? rfl
  simp only [List.map_cons, List.map_nil, List.prod_cons, List.prod_nil, words_token, words_any,
    mul_one, mul_assoc] at h2
  have hnext0 : p.nextExpect? 1 = some (1, .kind (.construct .modifiers)) := rfl
  have h0 : p.language 0 = _ := Program.language_modifiers_any rfl hnext0 h2
  have h12 : p.language 12 = N := hending
  change p.language 0 = _
  rw [h0, h6, h9, h11, h12, words_expr, ← mul_assoc (token .assign), mul_add_self]
  simp only [mul_assoc]

/-- The declaration of a field ends with a semicolon. -/
theorem language_fieldProgram :
    (declarationProgram kind annotated assign
      [.layout .noWrap, .expect (.kind (.token .semi))] multiple).language 0 =
      typed * token .identifier * (1 + token .assign * expression) * token .semi := by
  let p := declarationProgram kind annotated assign
    [.layout .noWrap, .expect (.kind (.token .semi))] multiple
  have h14 : p.language 14 = 1 := language_finish rfl
  have h12 : p.language 12 = words (.kind (.token .semi)) * p.language 14 :=
    Program.language_of_nextExpect? rfl
  rw [words_token, h14] at h12
  have hjump : StartsIn (token .semi * 1) fun c => p.choose 6 12 c ≠ .stay := by
    refine startsIn_one_mul ?_
    rintro k rfl
    exact ForkChoice.noConfusion
  rw [language_declarationProgram h12 rfl hjump, mul_one]

/-- The declaration of a variable in a block may end with a semicolon. -/
theorem language_variableProgram :
    (declarationProgram kind annotated assign
      [.optional, .layout .noWrap, .expect (.kind (.token .semi))] multiple).language 0 =
      typed * token .identifier * (1 + token .assign * expression) * (1 + token .semi) := by
  let p := declarationProgram kind annotated assign
    [.optional, .layout .noWrap, .expect (.kind (.token .semi))] multiple
  have h15 : p.language 15 = 1 := language_finish rfl
  have hnext12 : p.nextExpect? 13 = some (14, .kind (.token .semi)) := rfl
  have h12 := Program.language_optional rfl hnext12 h15 (startsIn_nil rfl)
  rw [words_token] at h12
  have hjump : StartsIn (token .semi * 1 + 1) fun c => p.choose 6 12 c ≠ .stay := by
    refine .add (startsIn_one_mul ?_) (startsIn_nil ForkChoice.noConfusion)
    rintro k rfl
    exact ForkChoice.noConfusion
  rw [language_declarationProgram h12 rfl hjump, mul_one, add_comm (token .semi)]

end Declaration

/-- For all settings, the template of a construct that branches resolves to a program that accepts
the grammar of the construct. -/
theorem exists_language_eq_branching (s : LayoutSettings) {kind : ConstructKind}
    {L : Language Kind} (h : branching? kind = some L) :
    ∃ steps multiple p, authored? s kind = some (steps, multiple) ∧
      Program.resolve (.construct kind) steps multiple = .ok p ∧ p.language 0 = L := by
  let body := indentOp (s.wrap .statementBody)
  let brace := wrapOp (s.wrap .leftBrace)
  let annotated := wrapOp (s.wrap .afterAnnotations)
  -- A policy becomes a layout check first; then the steps resolve by computation.
  cases kind
  case ifStatement =>
    cases h
    let otherwise := wrapOp (s.wrap .elseKeyword)
    let afterBody := if s.wrap .statementBody = .no then otherwise else .unindent
    refine ⟨_, _, ifProgram (.construct .ifStatement) body brace afterBody otherwise false, rfl, ?_,
      language_ifProgram _ _ _ _ _ _⟩
    simp only [ifStatement, wrapStep_eq, indentStep_eq, ← apply_ite Step.layout]
    rfl
  case forStatement =>
    cases h
    refine ⟨_, _, forProgram (.construct .forStatement) body brace false, rfl, ?_,
      language_forProgram _ _ _ _⟩
    simp only [forStatement, statementBody, wrapStep_eq, indentStep_eq]
    rfl
  case forEachStatement =>
    cases h
    refine ⟨_, _, forEachProgram (.construct .forEachStatement) body brace false, rfl, ?_,
      language_forEachProgram _ _ _ _⟩
    simp only [statementBody, wrapStep_eq, indentStep_eq]
    rfl
  case whileStatement =>
    cases h
    refine ⟨_, _, whileProgram (.construct .whileStatement) body brace false, rfl, ?_,
      language_whileProgram _ _ _ _⟩
    simp only [statementBody, wrapStep_eq, indentStep_eq]
    rfl
  case doStatement =>
    cases h
    refine ⟨_, _, doProgram (.construct .doStatement) body brace (wrapOp (s.wrap .doWhile)) false,
      rfl, ?_, language_doProgram _ _ _ _ _⟩
    simp only [statementBody, wrapStep_eq, indentStep_eq]
    rfl
  case classDecl =>
    cases h
    refine ⟨_, _, classProgram (.construct .classDecl) annotated
      (indentOp (s.wrap .extendsClause)) (indentOp (s.wrap .implementsClause)) brace true, rfl, ?_,
      language_classProgram _ _ _ _ _ _⟩
    simp only [modifiers, wrapStep_eq, indentStep_eq]
    rfl
  case interfaceDecl =>
    cases h
    refine ⟨_, _, clauseProgram (.construct .interfaceDecl) .kwInterface
      (.kind (.token .identifier)) .extendsClause .classBody annotated
      (indentOp (s.wrap .extendsClause)) brace true, rfl, ?_, ?_⟩
    · simp only [modifiers, wrapStep_eq, indentStep_eq]
      rfl
    · rw [language_clauseProgram (by decide), words_token]
  case methodDecl =>
    cases h
    refine ⟨_, _, methodProgram (.construct .methodDecl) annotated
      (indentOp (s.wrap .throwsClause)) brace true, rfl, ?_, language_methodProgram _ _ _ _ _⟩
    simp only [modifiers, wrapStep_eq, indentStep_eq]
    rfl
  case constructorDecl =>
    cases h
    refine ⟨_, _, clauseProgram (.construct .constructorDecl) .identifier
      (.kind (.construct .parameters)) .throwsClause .block annotated
      (indentOp (s.wrap .throwsClause)) brace true, rfl, ?_, ?_⟩
    · simp only [modifiers, wrapStep_eq, indentStep_eq]
      rfl
    · rw [language_clauseProgram (by decide), words_construct]
  case fieldDecl =>
    cases h
    refine ⟨_, _, declarationProgram (.construct .fieldDecl) annotated
      (indentOp (s.wrap .assignment)) _ false, rfl, ?_, language_fieldProgram⟩
    simp only [declaration, modifiers, wrapStep_eq, indentStep_eq]
    rfl
  case localVarDecl =>
    cases h
    refine ⟨_, _, declarationProgram (.construct .localVarDecl) annotated
      (indentOp (s.wrap .assignment)) _ false, rfl, ?_, language_variableProgram⟩
    simp only [declaration, modifiers, wrapStep_eq, indentStep_eq]
    rfl
  all_goals cases h

end Template

/-- For all settings, the program that the table holds for a construct that branches reports no
fault on a node exactly if the kinds of its children are in the grammar of the construct. -/
theorem quiet_iff_mem_branching (s : LayoutSettings) {kind : ConstructKind} {L : Language Kind}
    (hL : branching? kind = some L) (cx : Context) (f : Focus)
    (hkind : f.tree.kind = .construct kind) :
    ∃ table p, ProgramTable.ofSettings s = .ok table ∧ table.get? f.tree.kind = some p ∧
      ((∀ ev ∈ Machine.run cx f p, ev.isFault = false) ↔
        f.tree.children.map Tree.kind ∈ L) := by
  obtain ⟨table, htable⟩ := ProgramTable.exists_ofSettings s
  obtain ⟨steps, multiple, p, hauthored, hresolve, hlanguage⟩ :=
    Template.exists_language_eq_branching s hL
  have hget : table.get? (.construct kind) = some p :=
    (ProgramTable.get?_eq_some_iff htable).2 ⟨steps, multiple, hauthored, hresolve⟩
  have hhalts := ProgramTable.haltsWithin htable (List.mem_of_find?_eq_some hget) cx f
  refine ⟨table, p, htable, by rw [hkind, hget], ?_⟩
  rw [← hlanguage]
  exact Machine.quiet_iff_mem_language (Program.wellFormed_of_resolve hresolve) hhalts.halts

/-- The program for an if statement reports no fault on one with a block and another statement after
`else`. -/
theorem quiet_iff_mem_branching_else :
    ∃ table p, ProgramTable.ofSettings .strict = .ok table ∧
      table.get? (.construct .ifStatement) = some p ∧
      ∀ ev ∈ Machine.run ⟨.ofString "if (a) \x7b\x7d else ;" 4, .strict⟩
        (.ofRoot (.node .ifStatement (.token .kwIf "if" ⟨1, 0⟩)
          [.token .lParen "(" ⟨1, 3⟩, .token .identifier "a" ⟨1, 4⟩, .token .rParen ")" ⟨1, 5⟩,
           .node .block (.token .lBrace "\x7b" ⟨1, 7⟩) [.token .rBrace "\x7d" ⟨1, 8⟩],
           .token .kwElse "else" ⟨1, 10⟩,
           .node .emptyStatement (.token .semi ";" ⟨1, 15⟩) []])) p, ev.isFault = false := by
  have hL : branching? .ifStatement =
      some (header .kwIf * child * (1 + token .kwElse * child)) := rfl
  obtain ⟨table, p, htable, hget, hiff⟩ :=
    quiet_iff_mem_branching .strict hL ⟨.ofString "if (a) \x7b\x7d else ;" 4, .strict⟩
      (.ofRoot (.node .ifStatement (.token .kwIf "if" ⟨1, 0⟩)
        [.token .lParen "(" ⟨1, 3⟩, .token .identifier "a" ⟨1, 4⟩, .token .rParen ")" ⟨1, 5⟩,
         .node .block (.token .lBrace "\x7b" ⟨1, 7⟩) [.token .rBrace "\x7d" ⟨1, 8⟩],
         .token .kwElse "else" ⟨1, 10⟩,
         .node .emptyStatement (.token .semi ";" ⟨1, 15⟩) []])) rfl
  refine ⟨table, p, htable, hget, hiff.2 ?_⟩
  simp only [header, mul_assoc]
  refine cons_mem_one_mul.2 ⟨rfl, cons_mem_one_mul.2 ⟨rfl, cons_mem_one_mul.2 ⟨rfl,
    cons_mem_one_mul.2 ⟨rfl, cons_mem_one_mul.2 ⟨trivial, .inr ?_⟩⟩⟩⟩⟩
  exact cons_mem_one_mul.2 ⟨rfl, _, trivial, rfl⟩

end TreeLayout
