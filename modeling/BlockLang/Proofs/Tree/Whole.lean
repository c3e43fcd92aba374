import BlockLang.Proofs.Core.Program
import BlockLang.Proofs.Tree.Acceptance
import BlockLang.Token.Scan

/-! A tree that can be resolved has no mistake in it, so the source it was read from follows
the grammar, and no other tree is spelt in the same way. -/

namespace BlockLang

namespace Tree

open BlockLang.Core (Env)

variable {env : Env}

theorem Expr.whole_of_resolve {expr : Expr} {found : Core.Expr}
    (h : expr.resolve env = some found) : expr.Whole := by
  induction expr generalizing found with
  | number value => trivial
  | name ident => trivial
  | negate operand ih =>
    obtain ⟨value, hvalue, -⟩ := Option.bind_eq_some_iff.1 h
    exact ih hvalue
  | binary op left right ihleft ihright =>
    obtain ⟨first, hfirst, h⟩ := Option.bind_eq_some_iff.1 h
    obtain ⟨second, hsecond, -⟩ := Option.bind_eq_some_iff.1 h
    exact ⟨ihleft hfirst, ihright hsecond⟩
  | missing mistake => cases h
  | unclosed inner mistake => cases h

theorem Cond.whole_of_resolve {cond : Cond} {found : Core.Cond}
    (h : cond.resolve env = some found) : cond.Whole := by
  cases cond with
  | compare op left right =>
    obtain ⟨first, hfirst, h⟩ := Option.bind_eq_some_iff.1 h
    obtain ⟨second, hsecond, -⟩ := Option.bind_eq_some_iff.1 h
    exact ⟨Expr.whole_of_resolve hfirst, Expr.whole_of_resolve hsecond⟩
  | half left mistake => cases h
  | unfollowed op left right mistake => cases h

theorem Declaration.whole_of_resolve {cells : List IntType} {declaration : Declaration}
    {found : Env × List IntType} (h : declaration.resolve env cells = some found) :
    declaration.Whole := by
  cases declaration with
  | const name value => trivial
  | vars names type => trivial
  | stop mistake => cases h
  | unendedCopy source mistake => cases h

theorem whole_of_resolveLocals {cells : List IntType} {locals : List Declaration}
    {found : Env × List IntType} (h : resolveLocals locals env cells = some found) :
    ∀ declaration ∈ locals, declaration.Whole := by
  induction locals generalizing env cells with
  | nil => simp
  | cons declaration rest ih =>
    obtain ⟨⟨declared, more⟩, hfirst, hrest⟩ := Option.bind_eq_some_iff.1 h
    intro other hother
    rcases List.mem_cons.1 hother with rfl | hother
    · exact Declaration.whole_of_resolve hfirst
    · exact ih hrest other hother

theorem Stmt.whole_of_resolve {cells : List IntType} {stmt : Stmt}
    {found : Core.Stmt × List IntType} (h : stmt.resolve env cells = some found) : stmt.Whole := by
  induction stmt generalizing env cells found with
  | skip => trivial
  | seq first second ihfirst ihsecond =>
    obtain ⟨⟨before, more⟩, hfirst, h⟩ := Option.bind_eq_some_iff.1 h
    obtain ⟨after, hsecond, -⟩ := Option.bind_eq_some_iff.1 h
    exact ⟨ihfirst hfirst, ihsecond hsecond⟩
  | assign target value =>
    obtain ⟨cell, -, h⟩ := Option.bind_eq_some_iff.1 h
    obtain ⟨source, hsource, -⟩ := Option.bind_eq_some_iff.1 h
    exact Expr.whole_of_resolve hsource
  | call callee => trivial
  | branch condition yes no ihyes ihno =>
    obtain ⟨test, htest, h⟩ := Option.bind_eq_some_iff.1 h
    obtain ⟨⟨first, more⟩, hfirst, h⟩ := Option.bind_eq_some_iff.1 h
    obtain ⟨second, hsecond, -⟩ := Option.bind_eq_some_iff.1 h
    exact ⟨Cond.whole_of_resolve htest, ihyes hfirst, ihno hsecond⟩
  | loop condition body ih =>
    obtain ⟨test, htest, h⟩ := Option.bind_eq_some_iff.1 h
    obtain ⟨inside, hinside, -⟩ := Option.bind_eq_some_iff.1 h
    exact ⟨Cond.whole_of_resolve htest, ih hinside⟩
  | ret => trivial
  | block locals body ih =>
    obtain ⟨⟨declared, more⟩, hlocals, hbody⟩ := Option.bind_eq_some_iff.1 h
    exact ⟨whole_of_resolveLocals hlocals, ih hbody⟩
  | stop mistake => cases h

theorem Heading.whole_of_name? {heading : Heading} {name : String}
    (h : heading.name? = some name) : heading.Whole := by
  cases heading with
  | named name => trivial
  | unnamed mistake => cases h
  | unended name mistake => cases h

theorem Decls.whole_of_resolve {cells : List IntType} {next : Nat} {decls : Decls}
    {found : Env × List IntType × List Core.Stmt} (h : decls.resolve env cells next = some found) :
    decls.Whole := by
  induction decls generalizing env cells next found with
  | nil => trivial
  | plain declaration rest ih =>
    obtain ⟨⟨declared, more⟩, hfirst, hrest⟩ := Option.bind_eq_some_iff.1 h
    exact ⟨Declaration.whole_of_resolve hfirst, ih hrest⟩
  | nested heading locals body rest ihlocals ihrest =>
    obtain ⟨name, hname, h⟩ := Option.bind_eq_some_iff.1 h
    obtain ⟨declared, -, h⟩ := Option.bind_eq_some_iff.1 h
    obtain ⟨⟨inner, more, procedures⟩, hlocals, h⟩ := Option.bind_eq_some_iff.1 h
    obtain ⟨⟨code, most⟩, hbody, h⟩ := Option.bind_eq_some_iff.1 h
    obtain ⟨last, hrest, -⟩ := Option.bind_eq_some_iff.1 h
    exact ⟨Heading.whole_of_name? hname, ihlocals hlocals, Stmt.whole_of_resolve hbody,
      ihrest hrest⟩
  | stop mistake => cases h

end Tree

namespace Token

theorem next_ne_eof {first : Char} {rest : List Char} {token : Token} {extra : Nat}
    (h : next first rest = .ok (token, extra)) : token ≠ .eof := by
  rintro rfl
  unfold next at h
  dsimp only at h
  split at h
  · split at h <;> cases h
  · split at h
    · cases hword : Keyword.ofWord? (String.ofList (first :: rest.takeWhile isWordRest)) with
      | none =>
        rw [hword] at h
        cases h
      | some word =>
        rw [hword] at h
        cases h
    · split at h
      · split at h <;> cases h
      · split at h <;> cases h

/-- The end of input is the last token, and no other. -/
theorem scanFrom_ends (position : Position) (chars : List Char) (tokens : List Lexeme) :
    scanFrom position chars = .ok tokens →
      ∃ body span, tokens = body ++ [⟨.eof, span⟩] ∧ Tree.Endless body := by
  fun_induction scanFrom position chars generalizing tokens with
  | case1 position =>
    rintro ⟨⟩
    exact ⟨[], _, rfl, by simp [Tree.Endless]⟩
  | case2 position first rest hblank ih => exact ih tokens
  | case3 position rest comment hblank ih => exact ih tokens
  | case4 position first rest hblank hcomment cause hnext => rintro ⟨⟩
  | case5 position first rest hblank hcomment token extra hnext stop ih =>
    intro h
    cases hrest : scanFrom stop (rest.drop extra) with
    | error error =>
      rw [hrest] at h
      cases h
    | ok more =>
      rw [hrest] at h
      cases h
      obtain ⟨body, span, rfl, hbody⟩ := ih more hrest
      refine ⟨_ :: body, span, rfl, ?_⟩
      intro lexeme hlexeme
      rcases List.mem_cons.1 hlexeme with rfl | hlexeme
      · exact next_ne_eof hnext
      · exact hbody lexeme hlexeme

end Token

namespace Tree

theorem tokens_ofTokens (body : List Lexeme) (span : Span) :
    (Ahead.ofTokens (body ++ [⟨.eof, span⟩])).tokens = body := by
  simp [Ahead.ofTokens]

/-- A source whose tree can be resolved is spelt as the grammar says, and as no other tree. -/
theorem Program.spells_ofTokens {body : List Lexeme} {span : Span} (h : Endless body)
    {found : Core.Program}
    (hresolve : (Program.ofTokens (body ++ [⟨.eof, span⟩])).resolve = some found) :
    (Program.ofTokens (body ++ [⟨.eof, span⟩])).decls.Spells body ∧
      ∀ decls : Decls, decls.Spells body →
        decls = (Program.ofTokens (body ++ [⟨.eof, span⟩])).decls := by
  obtain ⟨_, hdecls, -⟩ := Option.bind_eq_some_iff.1 hresolve
  have hwhole := Decls.whole_of_resolve hdecls
  have htokens := tokens_ofTokens body span
  unfold Program.ofTokens at hwhole ⊢
  generalize Ahead.ofTokens (body ++ [⟨.eof, span⟩]) = ahead at htokens hwhole ⊢
  subst htokens
  exact ⟨spells_readProgram h hwhole, fun decls hspells => (hspells.read ahead rfl).symm⟩

end Tree

end BlockLang
