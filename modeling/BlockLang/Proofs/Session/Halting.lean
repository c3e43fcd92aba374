import BlockLang.Proofs.Session.Laying
import BlockLang.Proofs.Session.Sparing
import BlockLang.Proofs.Tree.Mistakes

/-! Where carrying out a tree ends because the source does not follow the grammar, the error is
at the place of the tree's first mistake. -/

namespace BlockLang

open Code Names BlockLang.Tree Compiler

namespace Compiler

variable {α β : Type} {first? second? : Option Mistake}

/-- The step ends well only if there is no mistake, and because of the grammar only at the
mistake's place. -/
structure Halts (step : Compiler α) (mistake? : Option Mistake) : Prop where
  none_of_ok : ∀ {session : Session} {value : α} {next : Session},
    step session = .ok value next → mistake? = none
  place : ∀ {session : Session} {location : Location} {message : String} {next : Session},
    step session = .error (.error (.malformed location message)) next →
      ∃ mistake, mistake? = some mistake ∧ location.toPlace = mistake.place

namespace Halts

theorem of_spares {step : Compiler α} (h : Spares step) : Halts step none :=
  ⟨fun _ => rfl, fun hrun => (h _ _ _ _ hrun).elim⟩

theorem bind {step : Compiler α} {next : α → Compiler β} (h : Halts step first?)
    (hnext : ∀ value, Halts (next value) second?) : Halts (step >>= next) (first?.or second?) where
  none_of_ok := by
    intro session value last hrun
    obtain ⟨first, middle, hfirst, hrest⟩ := exists_of_bind_eq_ok hrun
    rw [h.none_of_ok hfirst, (hnext first).none_of_ok hrest]
    rfl
  place := by
    intro session location message last hrun
    rcases of_bind_eq_error hrun with hfirst | ⟨first, middle, hfirst, hrest⟩
    · obtain ⟨mistake, rfl, hplace⟩ := h.place hfirst
      exact ⟨mistake, rfl, hplace⟩
    · rw [h.none_of_ok hfirst]
      exact (hnext first).place hrest

theorem after {step : Compiler α} {next : α → Compiler β} (h : Spares step)
    (hnext : ∀ value, Halts (next value) second?) : Halts (step >>= next) second? :=
  (of_spares h).bind hnext

theorem before {step : Compiler α} {next : α → Compiler β} (h : Halts step first?)
    (hnext : ∀ value, Spares (next value)) : Halts (step >>= next) first? := by
  have hboth := h.bind fun value => of_spares (hnext value)
  rwa [Option.or_none] at hboth

theorem discard {step : Compiler α} (h : Halts step first?) : Halts (discard step) first? :=
  h.before fun _ => spares_pure _

end Halts

theorem halts_raise (mistake : Mistake) : Halts (raise mistake : Compiler α) (some mistake) := by
  refine ⟨fun hrun => (raise_ne_ok hrun).elim, fun hrun => ⟨mistake, rfl, ?_⟩⟩
  unfold raise at hrun
  cases hreached : mistake.reached with
  | none =>
    rw [hreached] at hrun
    cases hrun
    rfl
  | some place =>
    rw [hreached] at hrun
    cases hrun
    rfl

end Compiler

namespace Tree

theorem Expr.halts_emit (expr : Expr) : Halts expr.emit expr.mistake? := by
  induction expr with
  | number value => exact .of_spares (spares_pure _)
  | name ident => exact .of_spares (spares_loadName ident)
  | negate operand ih => exact ih.before fun value => spares_negate value
  | binary op left right ihleft ihright =>
    exact ihleft.bind fun first => ihright.before fun second => spares_combine op first second
  | missing mistake => exact halts_raise mistake
  | unclosed inner mistake ih => exact ih.discard.bind fun _ => halts_raise mistake

theorem Cond.halts_emit (cond : Cond) : Halts cond.emit cond.mistake? := by
  cases cond with
  | compare op left right =>
    exact left.halts_emit.bind fun first => right.halts_emit.before fun second =>
      spares_compare op first second
  | half left mistake => exact left.halts_emit.discard.bind fun _ => halts_raise mistake
  | unfollowed op left right mistake =>
    have hrest : ∀ first : Operand, Halts (do
        let second ← right.emit
        discard (Compiler.compare op first second)
        (raise mistake : Compiler Value)) (right.mistake?.or (some mistake)) := by
      intro first
      refine right.halts_emit.bind fun second => ?_
      exact .after (spares_compare op first second).discard fun _ => halts_raise mistake
    rw [mistake?, Option.or_assoc]
    exact left.halts_emit.bind hrest

theorem Declaration.halts_emit (declaration : Declaration) :
    Halts declaration.emit declaration.mistake? := by
  cases declaration with
  | const name value =>
    have hwhole : (Declaration.const name value).Whole := trivial
    exact .of_spares (Declaration.spares_emit hwhole)
  | vars names type =>
    have hwhole : (Declaration.vars names type).Whole := trivial
    exact .of_spares (Declaration.spares_emit hwhole)
  | stop mistake => exact halts_raise mistake
  | unendedCopy source mistake =>
    exact .after (ConstValue.spares_emit (.copy source)).discard fun _ => halts_raise mistake

theorem halts_locals (locals : List Declaration) :
    Halts (locals.forM Declaration.emit) (firstMistake? locals) := by
  induction locals with
  | nil => exact .of_spares (spares_pure _)
  | cons declaration rest ih => exact declaration.halts_emit.bind fun _ => ih

theorem Stmt.halts_emit (stmt : Stmt) : Halts stmt.emit stmt.mistake? := by
  induction stmt with
  | skip => exact .of_spares (spares_pure _)
  | seq first second ihfirst ihsecond => exact ihfirst.bind fun _ => ihsecond
  | assign target value =>
    refine .after (spares_resolveAs .cell target) fun symbol => ?_
    refine value.halts_emit.before fun operand => ?_
    grind [Build.store]
  | call callee =>
    have hwhole : (Stmt.call callee).Whole := trivial
    exact .of_spares (Stmt.spares_emit hwhole)
  | branch condition yes no ihyes ihno =>
    rw [mistake?, Option.or_assoc]
    refine condition.halts_emit.bind fun value => ?_
    refine .after (spares_appendBlock "then") fun thenBlock => ?_
    refine .after (spares_appendBlock "else") fun elseBlock => ?_
    refine .after (spares_appendBlock "endif") fun merge => ?_
    refine .after (spares_build (Build.spares_emit _)) fun _ => ?_
    refine .after (spares_setCurrentBlock thenBlock) fun _ => ?_
    refine ihyes.bind fun _ => ?_
    refine .after (spares_jumpIfOpen merge) fun _ => ?_
    refine .after (spares_setCurrentBlock elseBlock) fun _ => ?_
    refine ihno.before fun _ => ?_
    exact (spares_jumpIfOpen merge).bind fun _ => spares_setCurrentBlock merge
  | loop condition body ih =>
    refine .after (spares_appendBlock "while.cond") fun test => ?_
    refine .after (spares_appendBlock "while.body") fun bodyBlock => ?_
    refine .after (spares_appendBlock "while.end") fun exit => ?_
    refine .after (spares_jumpIfOpen test) fun _ => ?_
    refine .after (spares_setCurrentBlock test) fun _ => ?_
    refine condition.halts_emit.bind fun value => ?_
    refine .after (spares_build (Build.spares_emit _)) fun _ => ?_
    refine .after (spares_setCurrentBlock bodyBlock) fun _ => ?_
    refine ih.before fun _ => ?_
    exact (spares_jumpIfOpen test).bind fun _ => spares_setCurrentBlock exit
  | ret =>
    have hwhole : Stmt.ret.Whole := trivial
    exact .of_spares (Stmt.spares_emit hwhole)
  | block locals body ih =>
    refine .after spares_enterScope fun _ => ?_
    refine (halts_locals locals).bind fun _ => ?_
    exact ih.before fun _ => spares_leaveScope
  | stop mistake => exact halts_raise mistake

theorem Heading.halts_emit (heading : Heading) : Halts heading.emit heading.mistake? := by
  cases heading with
  | named name => exact .of_spares name.spares_declare
  | unnamed mistake => exact halts_raise mistake
  | unended name mistake => exact .after name.spares_declare.discard fun _ => halts_raise mistake

theorem halts_within (id : SymbolId) {inside : Compiler Unit} {mistake? : Option Mistake}
    (h : Halts inside mistake?) : Halts (within id inside) mistake? := by
  rw [within_eq]
  refine .after (spares_symbol id) fun symbol => ?_
  refine .after (spares_tell _) fun _ => ?_
  refine .after (spares_beginProcedure id) fun _ => ?_
  refine .after spares_enterScope fun _ => ?_
  exact h.before fun _ => spares_closeProcedure

theorem Decls.halts_emit (decls : Decls) : Halts decls.emit decls.mistake? := by
  induction decls with
  | nil => exact .of_spares (spares_pure _)
  | plain declaration rest ih => exact declaration.halts_emit.bind fun _ => ih
  | nested heading locals body rest ihlocals ihrest =>
    rw [mistake?, Option.or_assoc]
    refine heading.halts_emit.bind fun id => ?_
    refine (halts_within id ?_).bind fun _ => ihrest
    exact ihlocals.bind fun _ => body.halts_emit
  | stop mistake => exact halts_raise mistake

theorem Program.halts_emit (program : Program) : Halts program.emit program.decls.mistake? := by
  refine program.decls.halts_emit.before fun _ => ?_
  split
  · exact spares_locate _
  · exact spares_pure _

end Tree

end BlockLang
