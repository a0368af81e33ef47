import TreeLayout.Proofs.Program.Language
import TreeLayout.Proofs.Table.Halting

/-!
# The grammar of the constructs that are sequences

Lists, bodies, clauses, switch and try statements, modifiers and compilation units are sequences of
children: loops that a fork enters or leaves by the next child. `Grammar.sequence?` gives the
grammar of each. For all settings, the program of the construct reports no fault exactly on the
sentences of its grammar.

For each template its resolved program is listed with the layout checks as parameters, so that
settings play no part in its language. The language follows from one equation for each step, read
backwards from the end; the equation of a loop is solved by `Grammar.eq_star_mul`.
-/

namespace TreeLayout

open scoped Computability

namespace Grammar

/-- One token of a kind. -/
def token (k : TokenKind) : Language Kind := one (· = .token k)

/-- One construct of a kind. -/
def construct (k : ConstructKind) : Language Kind := one (· = .construct k)

/-- One child of any kind. -/
def child : Language Kind := one fun _ => True

/-- One expression. -/
def expression : Language Kind := one fun k => k.isExpression = true

/-- One child of any kind but one. -/
def childBut (k : Kind) : Language Kind := one (· ≠ k)

/-- One or more elements, separated by commas. -/
def separated (element : Language Kind) : Language Kind := element * (token .comma * element)∗

/-- The children of a construct that is a sequence. -/
def sequence? : ConstructKind → Option (Language Kind)
  | .parameters => some (token .lParen * (1 + separated (construct .parameter)) * token .rParen)
  | .arguments => some (token .lParen * (1 + separated expression) * token .rParen)
  | .arrayInitializer =>
    some (token .lBrace * (1 + separated expression * (1 + token .comma)) * token .rBrace)
  | .extendsClause => some (token .kwExtends * separated child)
  | .implementsClause => some (token .kwImplements * separated child)
  | .throwsClause => some (token .kwThrows * separated child)
  | .block | .classBody => some (token .lBrace * (childBut (.token .rBrace))∗ * token .rBrace)
  | .switchStatement =>
    some (token .kwSwitch * token .lParen * expression * token .rParen * token .lBrace
      * (construct .switchCase)∗ * token .rBrace)
  | .switchCase =>
    some ((token .kwCase * expression * token .colon + token .kwDefault * token .colon) * child∗)
  | .tryStatement =>
    some (token .kwTry * construct .block * (construct .catchClause)∗
      * (1 + construct .finallyClause))
  | .modifiers => some ((construct .annotationUse)∗ * (token .modifier)∗)
  | .compilationUnit => some child∗
  | _ => none

/-- An expectation of a token is one token. -/
theorem words_token (k : TokenKind) : words (.kind (.token k)) = token k :=
  congrArg one (funext fun _ => decide_eq_true_eq)

/-- An expectation of a construct is one construct. -/
theorem words_construct (k : ConstructKind) : words (.kind (.construct k)) = construct k :=
  congrArg one (funext fun _ => decide_eq_true_eq)

/-- An expectation of any child is one child of any kind. -/
theorem words_any : words .any = child :=
  congrArg one (funext fun _ => eq_self true)

/-- An expectation of an expression is one expression. -/
theorem words_expr : words .expr = expression := rfl

/-- Any child but one kind is what an expectation of any child leaves beside that kind. -/
theorem one_any_ne (k : Kind) :
    one (fun k' => Expect.any.acceptsKind k' = true ∧ k' ≠ k) = childBut k :=
  congrArg one (funext fun _ => propext ⟨And.right, fun h => ⟨rfl, h⟩⟩)

end Grammar

open Grammar

namespace Template

/-! ## Lists -/

/-- The program of a list that does not end with a comma. -/
def listProgram (kind : Kind) (opening closing : TokenKind) (element : Expect)
    (first rest close : LayoutOp) (multiple : Bool) : Program :=
  ⟨kind,
    [.expect (.kind (.token opening)), .fork 12, .layout first, .expect element,
     .label 0, .fork 12, .layout .noWrap, .expect (.kind (.token .comma)),
     .layout rest, .expect element, .branch 5,
     .label 1, .layout close, .expect (.kind (.token closing)), .finish], multiple⟩

/-- The program of a list that may end with a comma. -/
def openListProgram (kind : Kind) (opening closing : TokenKind) (element : Expect)
    (first rest close : LayoutOp) (multiple : Bool) : Program :=
  ⟨kind,
    [.expect (.kind (.token opening)), .fork 13, .layout first, .expect element,
     .label 0, .fork 13, .layout .noWrap, .expect (.kind (.token .comma)),
     .fork 13, .layout rest, .expect element, .branch 5,
     .label 1, .layout close, .expect (.kind (.token closing)), .finish], multiple⟩

section List

variable {kind : Kind} {opening closing : TokenKind} {element : Expect}
  {policy closingPolicy : WrapPolicy} {first rest close : LayoutOp} {multiple : Bool}

/-- A list resolves to its program. -/
theorem resolve_list :
    Program.resolve kind (list opening closing (.expect element) policy closingPolicy false)
        multiple =
      .ok (listProgram kind opening closing element (indentOp policy) (restOp policy)
        (closeOp closingPolicy) multiple) := by
  rw [list, firstStep, indentStep_eq, restStep_eq, closeStep_eq]
  rfl

/-- A list that may end with a comma resolves to its program. -/
theorem resolve_openList :
    Program.resolve kind (list opening closing (.expect element) policy closingPolicy true)
        multiple =
      .ok (openListProgram kind opening closing element (indentOp policy) (restOp policy)
        (closeOp closingPolicy) multiple) := by
  rw [list, firstStep, indentStep_eq, restStep_eq, closeStep_eq]
  rfl

/-- A list is elements between marks, separated by commas. -/
theorem language_listProgram (hcomma : .comma ≠ closing)
    (helement : element.acceptsKind (.token closing) = false) :
    (listProgram kind opening closing element first rest close multiple).language 0 =
      token opening * (1 + separated (words element)) * token closing := by
  let p := listProgram kind opening closing element first rest close multiple
  have hcomma' : (Expect.kind (.token .comma)).acceptsKind (.token closing) = false := by
    simpa [Expect.acceptsKind] using hcomma.symm
  -- One equation for each step that is jumped to or expects a child, from the end backwards.
  have h14 : p.language 14 = 1 := Program.language_finish rfl
  have h12 : p.language 12 = words (.kind (.token closing)) * p.language 14 :=
    Program.language_of_nextExpect? rfl
  have h10 : p.language 10 = p.language 5 := Program.language_branch rfl
  have h8 : p.language 8 = words element * p.language 10 := Program.language_of_nextExpect? rfl
  have h6 : p.language 6 = words (.kind (.token .comma)) * p.language 8 :=
    Program.language_of_nextExpect? rfl
  have h5 := Program.language_fork_kind rfl h6 h12 fun _ => rfl
  have h4 : p.language 4 = p.language 5 := Program.language_label rfl
  have h2 : p.language 2 = words element * p.language 4 := Program.language_of_nextExpect? rfl
  have h1 := Program.language_fork_kind rfl h2 h12 fun _ => rfl
  have h0 : p.language 0 = words (.kind (.token opening)) * p.language 1 :=
    Program.language_of_nextExpect? rfl
  -- The fork after an element is the head of the loop, and the first one enters it.
  rw [one_ne_eq_words hcomma', h14, h8, h10, words_token, words_token, mul_one] at h5
  have hloop : p.language 5 = (token .comma * words element)∗ * token closing := eq_star_mul h5
  rw [one_ne_eq_words helement, h14, h4, hloop, words_token, mul_one] at h1
  change p.language 0 = _
  rw [h0, h1, words_token, separated]
  simp only [add_mul, one_mul, mul_add, mul_assoc, add_comm]

/-- A list that may end with a comma is elements between marks, separated by commas, and a comma
after the last element if there is one. -/
theorem language_openListProgram (hcomma : .comma ≠ closing)
    (helement : element.acceptsKind (.token closing) = false) :
    (openListProgram kind opening closing element first rest close multiple).language 0 =
      token opening * (1 + separated (words element) * (1 + token .comma)) * token closing := by
  let p := openListProgram kind opening closing element first rest close multiple
  have hcomma' : (Expect.kind (.token .comma)).acceptsKind (.token closing) = false := by
    simpa [Expect.acceptsKind] using hcomma.symm
  have h15 : p.language 15 = 1 := Program.language_finish rfl
  have h13 : p.language 13 = words (.kind (.token closing)) * p.language 15 :=
    Program.language_of_nextExpect? rfl
  have h11 : p.language 11 = p.language 5 := Program.language_branch rfl
  have h9 : p.language 9 = words element * p.language 11 := Program.language_of_nextExpect? rfl
  have h8 := Program.language_fork_kind rfl h9 h13 fun _ => rfl
  have h6 : p.language 6 = words (.kind (.token .comma)) * p.language 8 :=
    Program.language_of_nextExpect? rfl
  have h5 := Program.language_fork_kind rfl h6 h13 fun _ => rfl
  have h4 : p.language 4 = p.language 5 := Program.language_label rfl
  have h2 : p.language 2 = words element * p.language 4 := Program.language_of_nextExpect? rfl
  have h1 := Program.language_fork_kind rfl h2 h13 fun _ => rfl
  have h0 : p.language 0 = words (.kind (.token opening)) * p.language 1 :=
    Program.language_of_nextExpect? rfl
  -- After a comma the list goes on or closes, so the loop may be left in its middle.
  rw [one_ne_eq_words helement, h15, h11, words_token, mul_one] at h8
  rw [one_ne_eq_words hcomma', h15, h8, words_token, words_token, mul_one, mul_add, add_assoc] at h5
  have hloop : p.language 5 = (token .comma * words element)∗ *
      (token .comma * token closing + token closing) := eq_star_mul h5
  rw [one_ne_eq_words helement, h15, h4, hloop, words_token, mul_one] at h1
  change p.language 0 = _
  rw [h0, h1, words_token, separated]
  simp only [add_mul, mul_one, mul_add, mul_assoc, add_comm]

end List

/-! ## Types after a keyword -/

/-- The program of a keyword and types. -/
def typeListProgram (kind : Kind) (keyword : TokenKind) (multiple : Bool) : Program :=
  ⟨kind,
    [.expect (.kind (.token keyword)), .layout .noWrap, .expect .any,
     .label 0, .fork 11, .layout .noWrap, .expect (.kind (.token .comma)), .layout .mayIndent,
     .expect .any, .branch 4,
     .label 1, .finish], multiple⟩

/-- Types after a keyword are children of any kind, separated by commas. -/
theorem language_typeListProgram (kind : Kind) (keyword : TokenKind) (multiple : Bool) :
    (typeListProgram kind keyword multiple).language 0 = token keyword * separated child := by
  let p := typeListProgram kind keyword multiple
  have h11 : p.language 11 = 1 := Program.language_finish rfl
  have h9 : p.language 9 = p.language 4 := Program.language_branch rfl
  have h7 : p.language 7 = words .any * p.language 9 := Program.language_of_nextExpect? rfl
  have h5 : p.language 5 = words (.kind (.token .comma)) * p.language 7 :=
    Program.language_of_nextExpect? rfl
  have h4 := Program.language_fork_finish rfl h5 h11 fun _ => rfl
  have h3 : p.language 3 = p.language 4 := Program.language_label rfl
  have h1 : p.language 1 = words .any * p.language 3 := Program.language_of_nextExpect? rfl
  have h0 : p.language 0 = words (.kind (.token keyword)) * p.language 1 :=
    Program.language_of_nextExpect? rfl
  rw [h7, h9, words_token, words_any] at h4
  have hloop : p.language 4 = (token .comma * child)∗ * 1 := eq_star_mul h4
  change p.language 0 = _
  rw [h0, h1, h3, hloop, words_token, words_any, separated, mul_one]

/-! ## Bodies -/

/-- The program of elements between braces. -/
def bodyProgram (kind : Kind) (element : Expect) (first : LayoutOp) (multiple : Bool) : Program :=
  ⟨kind,
    [.expect (.kind (.token .lBrace)), .fork 10, .layout first, .expect element,
     .label 0, .fork 10, .layout .mayIndent, .expect element, .branch 5,
     .label 1, .layout .unindent, .expect (.kind (.token .rBrace)), .finish], multiple⟩

/-- A body is elements between braces, none of which is a closing brace. -/
theorem language_bodyProgram (kind : Kind) (first : LayoutOp) (multiple : Bool) :
    (bodyProgram kind .any first multiple).language 0 =
      token .lBrace * (childBut (.token .rBrace))∗ * token .rBrace := by
  let p := bodyProgram kind .any first multiple
  have h12 : p.language 12 = 1 := Program.language_finish rfl
  have h10 : p.language 10 = words (.kind (.token .rBrace)) * p.language 12 :=
    Program.language_of_nextExpect? rfl
  have h8 : p.language 8 = p.language 5 := Program.language_branch rfl
  have h6 : p.language 6 = words .any * p.language 8 := Program.language_of_nextExpect? rfl
  have h5 := Program.language_fork_kind rfl h6 h10 fun _ => rfl
  have h4 : p.language 4 = p.language 5 := Program.language_label rfl
  have h2 : p.language 2 = words .any * p.language 4 := Program.language_of_nextExpect? rfl
  have h1 := Program.language_fork_kind rfl h2 h10 fun _ => rfl
  have h0 : p.language 0 = words (.kind (.token .lBrace)) * p.language 1 :=
    Program.language_of_nextExpect? rfl
  -- The fork that enters the loop accepts what its head does, so they have one language.
  rw [h8, h12, words_token, mul_one, one_any_ne] at h5
  rw [h4, h12, words_token, mul_one, one_any_ne, ← h5] at h1
  have hloop : p.language 5 = (childBut (.token .rBrace))∗ * token .rBrace := eq_star_mul_of_one h5
  change p.language 0 = _
  rw [h0, h1, hloop, words_token, mul_assoc]

/-! ## Switch statements -/

/-- The program of a switch statement. -/
def switchProgram (kind : Kind) (brace first : LayoutOp) (multiple : Bool) : Program :=
  ⟨kind,
    [.expect (.kind (.token .kwSwitch)), .layout .noWrap, .expect (.kind (.token .lParen)),
     .layout .noWrap, .expect .expr, .layout .noWrap, .expect (.kind (.token .rParen)),
     .layout brace, .expect (.kind (.token .lBrace)), .fork 18, .layout first,
     .expect (.kind (.construct .switchCase)),
     .label 0, .fork 18, .layout .mayIndent, .expect (.kind (.construct .switchCase)), .branch 13,
     .label 1, .layout .unindent, .expect (.kind (.token .rBrace)), .finish], multiple⟩

/-- A switch statement is a condition and case groups between braces. -/
theorem language_switchProgram (kind : Kind) (brace first : LayoutOp) (multiple : Bool) :
    (switchProgram kind brace first multiple).language 0 =
      token .kwSwitch * token .lParen * expression * token .rParen * token .lBrace
        * (construct .switchCase)∗ * token .rBrace := by
  let p := switchProgram kind brace first multiple
  have hcase : (Expect.kind (.construct .switchCase)).acceptsKind (.token .rBrace) = false := rfl
  have h20 : p.language 20 = 1 := Program.language_finish rfl
  have h18 : p.language 18 = words (.kind (.token .rBrace)) * p.language 20 :=
    Program.language_of_nextExpect? rfl
  have h16 : p.language 16 = p.language 13 := Program.language_branch rfl
  have h14 : p.language 14 = words (.kind (.construct .switchCase)) * p.language 16 :=
    Program.language_of_nextExpect? rfl
  have h13 := Program.language_fork_kind rfl h14 h18 fun _ => rfl
  have h12 : p.language 12 = p.language 13 := Program.language_label rfl
  have h10 : p.language 10 = words (.kind (.construct .switchCase)) * p.language 12 :=
    Program.language_of_nextExpect? rfl
  have h9 := Program.language_fork_kind rfl h10 h18 fun _ => rfl
  have h7 : p.language 7 = words (.kind (.token .lBrace)) * p.language 9 :=
    Program.language_of_nextExpect? rfl
  have h5 : p.language 5 = words (.kind (.token .rParen)) * p.language 7 :=
    Program.language_of_nextExpect? rfl
  have h3 : p.language 3 = words .expr * p.language 5 := Program.language_of_nextExpect? rfl
  have h1 : p.language 1 = words (.kind (.token .lParen)) * p.language 3 :=
    Program.language_of_nextExpect? rfl
  have h0 : p.language 0 = words (.kind (.token .kwSwitch)) * p.language 1 :=
    Program.language_of_nextExpect? rfl
  rw [h16, h20, one_ne_eq_words hcase, words_construct, words_token, mul_one] at h13
  rw [h12, h20, one_ne_eq_words hcase, words_construct, words_token, mul_one, ← h13] at h9
  have hloop : p.language 13 = (construct .switchCase)∗ * token .rBrace := eq_star_mul_of_one h13
  change p.language 0 = _
  rw [h0, h1, h3, h5, h7, h9, hloop]
  simp only [words_token, words_expr, mul_assoc]

/-- The program of a case group. -/
def switchCaseProgram (kind : Kind) (multiple : Bool) : Program :=
  ⟨kind,
    [.fork 8, .expect (.kind (.token .kwCase)), .layout .noWrap, .expect .expr, .layout .noWrap,
     .expect (.kind (.token .colon)), .branch 12,
     .label 0, .expect (.kind (.token .kwDefault)), .layout .noWrap,
     .expect (.kind (.token .colon)),
     .label 1, .fork 17, .layout .mayIndent, .expect .any, .branch 12,
     .label 2, .finish], multiple⟩

/-- A case group is a label and children of any kind. -/
theorem language_switchCaseProgram (kind : Kind) (multiple : Bool) :
    (switchCaseProgram kind multiple).language 0 =
      (token .kwCase * expression * token .colon + token .kwDefault * token .colon) * child∗ := by
  let p := switchCaseProgram kind multiple
  have hcase : (Expect.kind (.token .kwCase)).acceptsKind (.token .kwDefault) = false := rfl
  have h17 : p.language 17 = 1 := Program.language_finish rfl
  have h15 : p.language 15 = p.language 12 := Program.language_branch rfl
  have h13 : p.language 13 = words .any * p.language 15 := Program.language_of_nextExpect? rfl
  have h12 := Program.language_fork_finish rfl h13 h17 fun _ => rfl
  have h11 : p.language 11 = p.language 12 := Program.language_label rfl
  have h9 : p.language 9 = words (.kind (.token .colon)) * p.language 11 :=
    Program.language_of_nextExpect? rfl
  have h8 : p.language 8 = words (.kind (.token .kwDefault)) * p.language 9 :=
    Program.language_of_nextExpect? rfl
  have h6 : p.language 6 = p.language 12 := Program.language_branch rfl
  have h4 : p.language 4 = words (.kind (.token .colon)) * p.language 6 :=
    Program.language_of_nextExpect? rfl
  have h2 : p.language 2 = words .expr * p.language 4 := Program.language_of_nextExpect? rfl
  have h1 : p.language 1 = words (.kind (.token .kwCase)) * p.language 2 :=
    Program.language_of_nextExpect? rfl
  have h0 := Program.language_fork_kind rfl h1 h8 fun _ => rfl
  rw [h15, words_any] at h12
  have hloop : p.language 12 = child∗ * 1 := eq_star_mul_of_one h12
  change p.language 0 = _
  rw [h0, one_ne_eq_words hcase, h2, h4, h6, h9, h11, hloop]
  simp only [words_token, words_expr, add_mul, mul_one, mul_assoc]

/-! ## Try statements -/

/-- The program of a try statement. -/
def tryProgram (kind : Kind) (brace catchOp finallyOp : LayoutOp) (multiple : Bool) : Program :=
  ⟨kind,
    [.expect (.kind (.token .kwTry)), .layout brace, .expect (.kind (.construct .block)),
     .label 0, .fork 9, .layout catchOp, .expect (.kind (.construct .catchClause)), .branch 4,
     .label 1, .optional, .layout finallyOp, .expect (.kind (.construct .finallyClause)),
     .finish], multiple⟩

/-- A try statement is a block, clauses that catch, and at most one clause that comes finally. -/
theorem language_tryProgram (kind : Kind) (brace catchOp finallyOp : LayoutOp) (multiple : Bool) :
    (tryProgram kind brace catchOp finallyOp multiple).language 0 =
      token .kwTry * construct .block * (construct .catchClause)∗
        * (1 + construct .finallyClause) := by
  let p := tryProgram kind brace catchOp finallyOp multiple
  have h12 : p.language 12 = 1 := Program.language_finish rfl
  have hnext : p.nextExpect? 10 = some (11, .kind (.construct .finallyClause)) := rfl
  have h9 := Program.language_optional rfl hnext h12 (startsIn_nil rfl)
  have h7 : p.language 7 = p.language 4 := Program.language_branch rfl
  have h5 : p.language 5 = words (.kind (.construct .catchClause)) * p.language 7 :=
    Program.language_of_nextExpect? rfl
  -- What follows the clauses that catch begins with the one that comes finally, or ends at once.
  have h4 : p.language 4 = construct .catchClause * p.language 7 + p.language 9 := by
    rw [words_construct] at h5
    refine Program.language_fork_of_disjoint rfl h5 rfl ?_ ?_
    · rintro k rfl
      rfl
    · rw [h9, words_construct]
      refine .add (startsIn_one_mul ?_) (startsIn_nil ?_)
      · rintro k rfl
        exact ForkChoice.noConfusion
      · exact ForkChoice.noConfusion
  have h3 : p.language 3 = p.language 4 := Program.language_label rfl
  have h1 : p.language 1 = words (.kind (.construct .block)) * p.language 3 :=
    Program.language_of_nextExpect? rfl
  have h0 : p.language 0 = words (.kind (.token .kwTry)) * p.language 1 :=
    Program.language_of_nextExpect? rfl
  rw [h7, h9, words_construct, mul_one] at h4
  have hloop : p.language 4 = (construct .catchClause)∗ * (construct .finallyClause + 1) :=
    eq_star_mul_of_one h4
  change p.language 0 = _
  rw [h0, h1, h3, hloop, words_token, words_construct, mul_assoc, mul_assoc,
    add_comm (construct .finallyClause)]

/-! ## Modifiers and compilation units -/

/-- The program of modifiers. -/
def modifiersProgram (kind : Kind) (annotationOp firstOp : LayoutOp) (multiple : Bool) : Program :=
  ⟨kind,
    [.label 0, .fork 6, .layout annotationOp, .expect (.kind (.construct .annotationUse)),
     .branch 1,
     .label 1, .fork 15, .layout firstOp, .expect (.kind (.token .modifier)),
     .label 3, .fork 15, .layout .noWrap, .expect (.kind (.token .modifier)), .branch 10,
     .label 2, .finish], multiple⟩

/-- Modifiers are annotations, followed by keywords. -/
theorem language_modifiersProgram (kind : Kind) (annotationOp firstOp : LayoutOp)
    (multiple : Bool) :
    (modifiersProgram kind annotationOp firstOp multiple).language 0 =
      (construct .annotationUse)∗ * (token .modifier)∗ := by
  let p := modifiersProgram kind annotationOp firstOp multiple
  have h15 : p.language 15 = 1 := Program.language_finish rfl
  have h13 : p.language 13 = p.language 10 := Program.language_branch rfl
  have h11 : p.language 11 = words (.kind (.token .modifier)) * p.language 13 :=
    Program.language_of_nextExpect? rfl
  have h10 := Program.language_fork_finish rfl h11 h15 fun _ => rfl
  have h9 : p.language 9 = p.language 10 := Program.language_label rfl
  have h7 : p.language 7 = words (.kind (.token .modifier)) * p.language 9 :=
    Program.language_of_nextExpect? rfl
  have h6 := Program.language_fork_finish rfl h7 h15 fun _ => rfl
  have h4 : p.language 4 = p.language 1 := Program.language_branch rfl
  have h2 : p.language 2 = words (.kind (.construct .annotationUse)) * p.language 4 :=
    Program.language_of_nextExpect? rfl
  -- What follows the annotations begins with a keyword, or ends at once.
  have h1 : p.language 1 = construct .annotationUse * p.language 4 + p.language 6 := by
    rw [words_construct] at h2
    refine Program.language_fork_of_disjoint rfl h2 rfl ?_ ?_
    · rintro k rfl
      rfl
    · rw [h6, words_token]
      refine .add (startsIn_one_mul ?_) (startsIn_nil ?_)
      · rintro k rfl
        exact ForkChoice.noConfusion
      · exact ForkChoice.noConfusion
  have h0 : p.language 0 = p.language 1 := Program.language_label rfl
  -- The first keyword stands before its loop, with the same language.
  rw [h13, words_token] at h10
  rw [h9, words_token, ← h10] at h6
  have hkeywords : p.language 10 = (token .modifier)∗ * 1 := eq_star_mul_of_one h10
  rw [h4, h6, hkeywords, mul_one] at h1
  change p.language 0 = _
  rw [h0]
  exact eq_star_mul_of_one h1

/-- The program of a compilation unit. -/
def unitProgram (kind : Kind) (multiple : Bool) : Program :=
  ⟨kind, [.label 0, .fork 6, .layout .mustWrap, .expect .any, .branch 1, .label 1, .finish],
    multiple⟩

/-- A compilation unit is children of any kind. -/
theorem language_unitProgram (kind : Kind) (multiple : Bool) :
    (unitProgram kind multiple).language 0 = child∗ := by
  let p := unitProgram kind multiple
  have h6 : p.language 6 = 1 := Program.language_finish rfl
  have h4 : p.language 4 = p.language 1 := Program.language_branch rfl
  have h2 : p.language 2 = words .any * p.language 4 := Program.language_of_nextExpect? rfl
  have h1 := Program.language_fork_finish rfl h2 h6 fun _ => rfl
  have h0 : p.language 0 = p.language 1 := Program.language_label rfl
  rw [h4, words_any] at h1
  have hloop : p.language 1 = child∗ * 1 := eq_star_mul_of_one h1
  change p.language 0 = _
  rw [h0, hloop, mul_one]

/-- For all settings, the template of a construct that is a sequence resolves to a program that
accepts the grammar of the construct. -/
theorem exists_language_eq_sequence (s : LayoutSettings) {kind : ConstructKind}
    {L : Language Kind} (h : sequence? kind = some L) :
    ∃ steps multiple p, authored? s kind = some (steps, multiple) ∧
      Program.resolve (.construct kind) steps multiple = .ok p ∧ p.language 0 = L := by
  -- A policy becomes a layout check first; then the steps resolve by computation.
  cases kind
  case parameters =>
    cases h
    refine ⟨_, _, _, rfl, resolve_list, ?_⟩
    rw [language_listProgram (by decide) rfl, words_construct]
  case arguments =>
    cases h
    refine ⟨_, _, _, rfl, resolve_list, ?_⟩
    rw [language_listProgram (by decide) rfl, words_expr]
  case arrayInitializer =>
    cases h
    refine ⟨_, _, _, rfl, resolve_openList, ?_⟩
    rw [language_openListProgram (by decide) rfl, words_expr]
  case extendsClause | implementsClause | throwsClause =>
    cases h
    exact ⟨_, _, _, rfl, rfl, language_typeListProgram _ _ _⟩
  case block | classBody =>
    cases h
    exact ⟨_, _, _, rfl, rfl, language_bodyProgram _ _ _⟩
  case switchStatement =>
    cases h
    let first : LayoutOp := if s.oneLine .switchBodies then .indentIfChildren else .mustIndent
    refine ⟨_, _, switchProgram (.construct .switchStatement) (wrapOp (s.wrap .leftBrace)) first
      (s.shareLine .caseGroups), rfl, ?_, language_switchProgram _ _ _ _⟩
    rw [wrapStep_eq]
    rfl
  case switchCase =>
    cases h
    exact ⟨_, _, _, rfl, rfl, language_switchCaseProgram _ _⟩
  case tryStatement =>
    cases h
    refine ⟨_, _, tryProgram (.construct .tryStatement) (wrapOp (s.wrap .leftBrace))
      (wrapOp (s.wrap .catchClause)) (wrapOp (s.wrap .finallyClause)) false, rfl, ?_,
      language_tryProgram _ _ _ _ _⟩
    rw [wrapStep_eq, wrapStep_eq, wrapStep_eq]
    rfl
  case modifiers =>
    cases h
    refine ⟨_, _, modifiersProgram (.construct .modifiers) (wrapOp (s.wrap .annotations))
      (wrapOp (s.wrap .afterAnnotations)) false, rfl, ?_, language_modifiersProgram _ _ _ _⟩
    rw [wrapStep_eq, wrapStep_eq]
    rfl
  case compilationUnit =>
    cases h
    exact ⟨_, _, _, rfl, rfl, language_unitProgram _ _⟩
  all_goals cases h

end Template

/-- For all settings, the program that the table holds for a construct that is a sequence reports no
fault on a node exactly if the kinds of its children are in the grammar of the construct. -/
theorem quiet_iff_mem_sequence (s : LayoutSettings) {kind : ConstructKind} {L : Language Kind}
    (hL : sequence? kind = some L) (cx : Context) (f : Focus)
    (hkind : f.tree.kind = .construct kind) :
    ∃ table p, ProgramTable.ofSettings s = .ok table ∧ table.get? f.tree.kind = some p ∧
      ((∀ ev ∈ Machine.run cx f p, ev.isFault = false) ↔
        f.tree.children.map Tree.kind ∈ L) := by
  obtain ⟨table, htable⟩ := ProgramTable.exists_ofSettings s
  obtain ⟨steps, multiple, p, hauthored, hresolve, hlanguage⟩ :=
    Template.exists_language_eq_sequence s hL
  have hget : table.get? (.construct kind) = some p :=
    (ProgramTable.get?_eq_some_iff htable).2 ⟨steps, multiple, hauthored, hresolve⟩
  have hhalts := ProgramTable.haltsWithin htable (List.mem_of_find?_eq_some hget) cx f
  refine ⟨table, p, htable, by rw [hkind, hget], ?_⟩
  rw [← hlanguage]
  exact Machine.quiet_iff_mem_language (Program.wellFormed_of_resolve hresolve) hhalts.halts

/-- The program for a clause of one type reports no fault on it. -/
theorem quiet_iff_mem_sequence_extends :
    ∃ table p, ProgramTable.ofSettings .default = .ok table ∧
      table.get? (.construct .extendsClause) = some p ∧
      ∀ ev ∈ Machine.run ⟨.ofString "extends A" 4, .default⟩
        (.ofRoot (.node .extendsClause (.token .kwExtends "extends" ⟨1, 0⟩)
          [.token .identifier "A" ⟨1, 8⟩])) p, ev.isFault = false := by
  have hL : sequence? .extendsClause = some (token .kwExtends * separated child) := rfl
  obtain ⟨table, p, htable, hget, hiff⟩ :=
    quiet_iff_mem_sequence .default hL ⟨.ofString "extends A" 4, .default⟩
      (.ofRoot (.node .extendsClause (.token .kwExtends "extends" ⟨1, 0⟩)
        [.token .identifier "A" ⟨1, 8⟩])) rfl
  refine ⟨table, p, htable, hget, hiff.2 ?_⟩
  exact cons_mem_one_mul.2 ⟨rfl, cons_mem_one_mul.2 ⟨trivial, Language.nil_mem_kstar _⟩⟩

end TreeLayout
