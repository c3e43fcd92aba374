import BlockLang.Proofs.Session.Laying
import BlockLang.Proofs.Session.Safety

/-! Inside an open procedure, declarations end in the block in which they began: a procedure
that is declared there leaves its own blocks again. -/

namespace BlockLang

open Code Names Compiler BlockLang.Tree

/-- The block that takes the next instruction. -/
def Session.cursor (session : Session) : Option BlockRef := session.builder.cursor

variable {α : Type} {session : Session}

theorem Keeps.ends {step : Compiler α} {failed : Error → Session → Prop}
    {done : α → Session → Prop} {τ : Type} {view : Session → τ} (hkeeps : Keeps view step)
    (h : Ends step session failed done) :
    Ends step session failed fun value next => done value next ∧ view next = view session := by
  unfold Ends at h ⊢
  split at h
  · next hrun => exact ⟨h, hkeeps _ _ _ hrun⟩
  · exact h
  · exact h

namespace Compiler

theorem keepsCursor_change (action : Module → Except Fault (α × Module)) :
    Keeps Session.cursor (build (Build.change action)) := by
  intro session value next hrun
  unfold build at hrun
  cases hcode : action session.builder.code with
  | ok changed =>
    rw [Build.change_eq_ok _ _ hcode] at hrun
    cases hrun
    rfl
  | error fault =>
    rw [Build.change_eq_error hcode] at hrun
    cases hrun

theorem keepsCursor_orFault (result : Except Fault α) : Keeps Session.cursor (orFault result) := by
  intro session value next hrun
  rw [(of_orFault_eq_ok hrun).2]

@[grind ←] theorem keepsCursor_tell (entry : Log.Entry) : Keeps Session.cursor (tell entry) := by
  rintro _ _ _ ⟨⟩
  rfl

@[grind ←] theorem keepsCursor_locate (place : Place) : Keeps Session.cursor (locate place) := by
  rintro _ _ _ ⟨⟩
  rfl

theorem keepsCursor_symbol (id : SymbolId) : Keeps Session.cursor (symbol id) :=
  keeps_get.bind fun _ => keepsCursor_orFault _

theorem keepsCursor_find (name : String) : Keeps Session.cursor (find name) := by
  refine keeps_get.bind fun session => ?_
  cases session.forest.find session.scope name session.location with
  | ok id => exact keeps_pure id
  | error error => exact keeps_throw _

theorem keepsCursor_add (name : String) : Keeps Session.cursor (add name) := by
  intro session id next hrun
  obtain ⟨-, -, rfl⟩ := of_add_eq_ok hrun
  rfl

theorem keepsCursor_update (id : SymbolId) (change : Symbol → Except Fault Symbol) :
    Keeps Session.cursor (update id change) := by
  intro session value next hrun
  unfold update at hrun
  rw [get_bind] at hrun
  obtain ⟨forest, _, horFault, hset⟩ := exists_of_bind_eq_ok hrun
  obtain ⟨-, rfl⟩ := of_orFault_eq_ok horFault
  cases hset
  rfl

theorem keepsCursor_resolveAs (kind : Kind) (name : Ident) :
    Keeps Session.cursor (resolveAs kind name) := by
  have hresolve : Keeps Session.cursor (resolve name) :=
    (keepsCursor_locate _).bind fun _ => (keepsCursor_find _).bind fun id => keepsCursor_symbol id
  refine hresolve.bind fun symbol => ?_
  split
  · exact keeps_pure _
  · exact (keepsCursor_tell _).bind fun _ => keeps_get.bind fun _ => keeps_throw _

end Compiler

namespace Tree

theorem ConstValue.keepsCursor_emit (value : ConstValue) : Keeps Session.cursor value.emit := by
  cases value with
  | text spelling => exact keeps_pure _
  | copy source => exact (keepsCursor_resolveAs .literal source).bind fun _ => keepsCursor_orFault _

theorem Ident.keepsCursor_declare (name : Ident) : Keeps Session.cursor name.declare :=
  (keepsCursor_locate _).bind fun _ => keepsCursor_add _

theorem keepsCursor_forM {items : List α} {step : α → Compiler Unit}
    (h : ∀ item, Keeps Session.cursor (step item)) : Keeps Session.cursor (items.forM step) := by
  induction items with
  | nil => exact keeps_pure _
  | cons item rest ih => exact (h item).bind fun _ => ih

theorem Declaration.keepsCursor_emit (declaration : Declaration) :
    Keeps Session.cursor declaration.emit := by
  cases declaration with
  | const name value =>
    refine value.keepsCursor_emit.bind fun text => name.keepsCursor_declare.bind fun id => ?_
    exact (keepsCursor_symbol id).bind fun symbol => (keepsCursor_tell _).bind fun _ =>
      keepsCursor_update id _
  | vars names type =>
    refine keepsCursor_forM fun name => name.keepsCursor_declare.bind fun id => ?_
    refine Keeps.bind ?_ fun _ => keeps_pure _
    refine (keepsCursor_symbol id).bind fun symbol => keeps_get.bind fun session => ?_
    refine (keepsCursor_change _).bind fun global => (keepsCursor_change _).bind fun made => ?_
    exact (keepsCursor_tell _).bind fun _ => (keepsCursor_update id _).bind fun _ => keeps_pure _
  | stop mistake => exact fun _ _ _ hrun => (raise_ne_ok hrun).elim
  | unendedCopy source mistake =>
    intro session value next hrun
    obtain ⟨_, _, -, hraise⟩ := exists_of_bind_eq_ok hrun
    exact (raise_ne_ok hraise).elim

theorem Heading.keepsCursor_emit (heading : Heading) : Keeps Session.cursor heading.emit := by
  cases heading with
  | named name => exact name.keepsCursor_declare
  | unnamed mistake => exact fun _ _ _ hrun => (raise_ne_ok hrun).elim
  | unended name mistake =>
    intro session value next hrun
    obtain ⟨_, _, -, hraise⟩ := exists_of_bind_eq_ok hrun
    exact (raise_ne_ok hraise).elim

end Tree

namespace Compiler

/-- The procedure around a new one notes where it stands, which nothing inside the new one
changes, and goes on there. -/
theorem returns_within {id : SymbolId} {found : Symbol} {inside : Compiler Unit}
    (h : session.Sound) (hopen : session.procedures ≠ [])
    (hfound : session.forest.symbols[id]? = some found) (hnone : found.meaning? = none)
    (hinside : ∀ {before : Session}, before.Sound → before.procedures ≠ [] →
      Safe inside before fun _ _ => True) :
    Ends (within id inside) session (fun error next => error.ofTokens = true ∧ next.Sound)
      fun _ next => next.cursor = session.cursor := by
  obtain ⟨outer, rest, hprocedures⟩ := List.exists_cons_of_ne_nil hopen
  obtain ⟨function, reached, place, hmeaning, hcursor, hplace⟩ :=
    h.here outer (by simp [hprocedures])
  obtain ⟨around, haround, hprocedure⟩ := Forest.symbol_of_meaning? hmeaning
  let told := session.told (.enter (.procedure found.name))
  have htold : told.Sound := h.told (by simp)
  have hbegin := beginProcedure_nested (show told.forest.symbols[id]? = some found from hfound)
    hnone hprocedures haround hprocedure hcursor
  obtain ⟨begun, hbegin', hbegun, -, -, hbegunProcedures, -⟩ :=
    sound_beginProcedure htold hfound hnone
  have hne : id ≠ outer := by
    rintro rfl
    rw [hfound] at haround
    cases haround
    simp [hnone] at hprocedure
  have hparked : begun.forest.meaning? outer = some (.procedure function place) := by
    cases hbegin.symm.trans hbegin'
    refine (Forest.meaning?_withSymbol ?_ _ outer).trans ((if_neg hne).trans
      ((Forest.meaning?_withSymbol (Forest.lt_of_meaning? hmeaning) _ outer).trans (if_pos rfl)))
    simpa [Session.withFunction, Session.withSymbol, Forest.withSymbol, told, Session.told] using
      (List.getElem?_eq_some_iff.1 hfound).1
  unfold within
  refine ends_bind_of_ok (symbol_eq hfound) (ends_bind_of_ok (tell_eq _) ?_)
  refine ends_bind_of_ok hbegin' (ends_scope hbegun (by simp [hbegunProcedures]) hinside ?_)
  intro after hafter hbalanced
  have hkept := hbalanced.kept outer _ (by simpa [hbegunProcedures] using hne) hparked
  obtain ⟨last, hlast, hreached⟩ := Forest.symbol_of_meaning? hkept
  have hafterProcedures : after.procedures = id :: outer :: rest := by
    rw [hbalanced.procedures, hbegunProcedures]
    exact congrArg (id :: ·) hprocedures
  obtain ⟨_, _, hinner⟩ := hafter.procedures id (by simp [hafterProcedures])
  obtain ⟨closed, hclosed, -⟩ := Forest.symbol_of_meaning? hinner
  refine ends_bind_of_ok (endProcedure_nested hafterProcedures hclosed hlast hreached) ?_
  exact ends_of_ok (tell_eq .leave) hcursor.symm

end Compiler

namespace Tree

/-- Declarations of an open procedure end in the block in which they began. -/
theorem Decls.returns_emit (decls : Decls) (hdeclarable : decls.Declarable) (h : session.Sound)
    (hopen : session.procedures ≠ []) :
    Ends decls.emit session (fun error next => error.ofTokens = true ∧ next.Sound)
      fun _ next => next.cursor = session.cursor := by
  induction decls generalizing session with
  | nil => exact ends_of_ok rfl rfl
  | plain declaration rest ih =>
    refine (declaration.keepsCursor_emit.ends (Declaration.safe_emit hdeclarable.1 h)).bind ?_
    rintro _ after ⟨⟨hafter, hbalanced, -⟩, hcursor⟩
    rw [← hcursor]
    exact ih hdeclarable.2 hafter (hbalanced.opened hopen)
  | nested heading locals body rest ihlocals ihrest =>
    obtain ⟨hlocals, hbody, hrest⟩ := hdeclarable
    refine (heading.keepsCursor_emit.ends (heading.safe_emit h)).bind ?_
    rintro id named ⟨⟨hnamed, hbalanced, found, hfound, hnone⟩, hcursor⟩
    have hinside : ∀ {before : Session}, before.Sound → before.procedures ≠ [] →
        Safe (do locals.emit; body.emit) before fun _ _ => True := by
      intro before hbefore hopened
      refine ((locals.settles_emit hlocals hbefore).safe hopened).bind ?_
      intro _ declared hdeclared hbalanced _
      exact body.safe_emit hbody hdeclared (hbalanced.opened hopened)
    have hnamedOpen := hbalanced.opened hopen
    refine Ends.bind (Ends.imp (Ends.and (settles_within hnamed hfound hnone hinside)
      (returns_within hnamed hnamedOpen hfound hnone hinside)) (fun _ _ herror => herror.1)
      fun _ _ hdone => hdone) ?_
    rintro _ after ⟨⟨hafter, hsettled⟩, hreturned⟩
    rw [← hcursor, ← hreturned]
    exact ihrest hrest hafter (hsettled.balanced hnamedOpen |>.opened hnamedOpen)
  | stop mistake =>
    have hstop : Safe (raise mistake : Compiler Unit) session
      fun _ next => next.cursor = session.cursor := safe_raise h mistake
    exact Ends.mono hstop fun _ _ hdone => hdone.2.2

end Tree

end BlockLang
