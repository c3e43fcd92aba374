import BlockLang.Proofs.Tree.Readers

/-! In a tree that has been read, variables have the types a program can name. -/

namespace BlockLang

theorem IntType.mem_declarable_of_ofName? {text : String} {type : IntType}
    (h : IntType.ofName? text = some type) : type ∈ IntType.declarable :=
  List.mem_of_find?_eq_some h

theorem IntType.width_of_mem_declarable {type : IntType} (h : type ∈ IntType.declarable) :
    type.width = 8 ∨ type.width = 16 ∨ type.width = 32 ∨ type.width = 64 := by
  have hall : ∀ other ∈ IntType.declarable,
      other.width = 8 ∨ other.width = 16 ∨ other.width = 32 ∨ other.width = 64 := by decide
  exact hall type h

namespace Tree

def Declaration.Declarable : Declaration → Prop
  | vars _ type => type ∈ IntType.declarable
  | _ => True

def Stmt.Declarable : Stmt → Prop
  | seq first second => first.Declarable ∧ second.Declarable
  | branch _ yes no => yes.Declarable ∧ no.Declarable
  | loop _ body => body.Declarable
  | block locals body => (∀ declaration ∈ locals, declaration.Declarable) ∧ body.Declarable
  | skip | assign .. | call _ | ret | stop _ => True

def Decls.Declarable : Decls → Prop
  | plain declaration rest => declaration.Declarable ∧ rest.Declarable
  | nested _ locals body rest => locals.Declarable ∧ body.Declarable ∧ rest.Declarable
  | nil | stop _ => True

theorem declarable_readConst {ahead : Ahead} {declaration : Declaration} {left : ahead.Left}
    (h : readConst ahead = .ok (declaration, left)) : declaration.Declarable := by
  unfold readConst at h
  simp only [bind, Except.bind, pure, Except.pure] at h
  repeat' split at h
  all_goals cases h
  all_goals trivial

theorem declarable_typeName {ahead : Ahead} {type : IntType} (h : ahead.typeName = .ok type) :
    type ∈ IntType.declarable := by
  unfold Ahead.typeName at h
  simp only [bind, Except.bind, pure, Except.pure] at h
  split at h
  · cases h
  · split at h
    · next hname =>
      cases h
      exact IntType.mem_declarable_of_ofName? hname
    · cases h

theorem declarable_readVars {ahead : Ahead} {declaration : Declaration} {left : ahead.Left}
    (h : readVars ahead = .ok (declaration, left)) : declaration.Declarable := by
  unfold readVars at h
  simp only [bind, Except.bind, pure, Except.pure] at h
  repeat' split at h
  all_goals cases h
  next htype _ _ _ => exact declarable_typeName htype

theorem declarable_readDeclaration? {ahead : Ahead} {declaration : Declaration}
    {left : ahead.Less} (h : readDeclaration? ahead = some (declaration, left)) :
    declaration.Declarable := by
  unfold readDeclaration? at h
  dsimp only at h
  split at h
  · split at h
    · next hread =>
      cases h
      exact declarable_readConst hread
    · cases h
      trivial
  · split at h
    · split at h
      · next hread =>
        cases h
        exact declarable_readVars hread
      · cases h
        trivial
    · cases h

theorem declarable_readDeclarations (ahead : Ahead) :
    ∀ declaration ∈ (readDeclarations ahead).1, declaration.Declarable := by
  fun_induction readDeclarations ahead with
  | case1 => simp
  | case2 ahead declaration left hleft hread rest last hlast hrest ih =>
    rw [hrest] at ih
    intro other hother
    rcases List.mem_cons.1 hother with rfl | hother
    · exact declarable_readDeclaration? hread
    · exact ih other hother

theorem declarable_closeBody {body closed : Stmt} {ahead left : Ahead}
    (hclose : given (closeBody body ahead) = (closed, left)) (h : body.Declarable) :
    closed.Declarable := by
  unfold closeBody at hclose
  split at hclose <;> cases hclose
  · exact h
  · exact ⟨h, trivial⟩

private theorem declarable_statements :
    StmtReading (fun _ result => result.1.Declarable) (fun _ result => result.1.Declarable) where
  assign _ _ _ _ _ _ _ := trivial
  call _ _ _ _ := trivial
  callWord _ _ _ _ := trivial
  callNone _ _ _ _ := trivial
  branchElse _ _ _ _ _ _ _ _ _ _ _ hyes _ hno hclose := ⟨hyes, declarable_closeBody hclose hno⟩
  branch _ _ _ _ _ _ _ _ _ hyes _ hclose :=
    ⟨hyes, declarable_closeBody hclose trivial⟩
  loop _ _ _ _ _ _ closed _ _ hinner hclose :=
    show closed.Declarable from declarable_closeBody hclose hinner
  ret _ _ := trivial
  block ahead _ _ _ locals _ _ _ hlocals hinner hclose := by
    have hdeclared := declarable_readDeclarations ahead.skip
    rw [show (readDeclarations ahead.skip).1 = locals from congrArg Prod.fst hlocals] at hdeclared
    exact ⟨hdeclared, declarable_closeBody hclose hinner⟩
  missing _ _ _ _ _ _ _ := trivial
  done _ _ := trivial
  more _ _ _ _ _ _ hfirst hsecond := ⟨hfirst, hsecond⟩

private theorem declarable_declarations :
    DeclsReading (fun _ result => result.2.1.Declarable ∧ result.2.2.1.Declarable)
      (fun _ result => result.1.Declarable) where
  unnamed _ _ _ := ⟨trivial, trivial⟩
  unended _ _ _ _ _ := ⟨trivial, trivial⟩
  unbegun _ _ _ _ _ _ _ hlocals _ := ⟨hlocals, trivial⟩
  ended _ _ _ _ _ _ _ _ _ _ hlocals _ hbody hclose :=
    ⟨hlocals, declarable_closeBody hclose (declarable_statements.holds hbody)⟩
  plain _ _ _ _ _ hread hrest := ⟨declarable_readDeclaration? hread, hrest⟩
  nested _ _ _ _ _ _ _ _ _ hprocedure hrest := ⟨hprocedure.1, hprocedure.2, hrest⟩
  done _ _ _ := trivial

theorem declarable_readProgram (ahead : Ahead) : (readProgram ahead).decls.Declarable := by
  fun_induction readProgram ahead with
  | case1 ahead declaration left hleft hread rest ih =>
    exact ⟨declarable_readDeclaration? hread, ih⟩
  | case2 ahead hread hpeek heading locals body left hleft hprocedure last rest =>
    have hdeclarable := declarable_declarations.holds (givenProcedure_eq hprocedure)
    refine ⟨hdeclarable.1, hdeclarable.2, ?_⟩
    dsimp only [rest]
    split <;> trivial
  | case3 => trivial

theorem Program.declarable_ofTokens (tokens : List Lexeme) :
    (Program.ofTokens tokens).decls.Declarable :=
  declarable_readProgram _

end Tree

end BlockLang
