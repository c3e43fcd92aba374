import BlockLang.Proofs.Lexical.Regions

/-! The marks of a tree are nested: no scope is left that has not been entered. So every
position stands in a scope. -/

namespace BlockLang

namespace Lexical

namespace Mark

def opens : Mark → Bool
  | block | procedure _ => true
  | _ => false

def leaves : Mark → Bool
  | leave => true
  | _ => false

end Mark

/-- No more scopes are left than entered, however far one goes. -/
def Nested (marks : List Mark) : Prop :=
  ∀ count, (marks.take count).countP Mark.leaves ≤ (marks.take count).countP Mark.opens

variable {marks first second : List Mark} {mark : Mark}

theorem nested_nil : Nested [] := by
  intro count
  simp

theorem nested_singleton (h : mark.leaves = false) : Nested [mark] := by
  intro count
  cases count with
  | zero => simp
  | succ count => simp [h]

theorem Nested.append (hfirst : Nested first) (hsecond : Nested second) :
    Nested (first ++ second) := by
  intro count
  have hbefore := hfirst count
  have hbehind := hsecond (count - first.length)
  rw [List.take_append, List.countP_append, List.countP_append]
  omega

theorem Nested.enclose (h : Nested marks) (hopens : mark.opens = true)
    (hleaves : mark.leaves = false) : Nested (mark :: (marks ++ [.leave])) := by
  intro count
  cases count with
  | zero => simp
  | succ count =>
    have hinside := h count
    have hlast : ([Mark.leave].take (count - marks.length)).countP Mark.leaves ≤ 1 :=
      Nat.le_trans List.countP_le_length (List.length_take_le' _ _)
    rw [List.take_succ_cons, List.countP_cons, List.countP_cons, List.take_append,
      List.countP_append, List.countP_append, hopens, hleaves, if_pos rfl, if_neg Bool.false_ne_true]
    omega

/-- The scopes around a position are the unit and those entered and not yet left. -/
theorem Nested.length_regionsAt (h : Nested marks) (position : Nat) :
    (regionsAt marks position).length + (marks.take position).countP Mark.leaves =
      (marks.take position).countP Mark.opens + 1 := by
  induction position with
  | zero => simp [regionsAt]
  | succ position ih =>
    have hnested := h (position + 1)
    rw [List.take_add_one, List.countP_append, List.countP_append] at hnested ⊢
    rw [regionsAt]
    cases hmark : marks[position]? with
    | none => simpa using ih
    | some mark =>
      rw [hmark] at hnested
      cases mark <;> simp [Mark.leaves, Mark.opens] at hnested ⊢ <;> omega

theorem Nested.regionsAt_ne_nil (h : Nested marks) (position : Nat) :
    regionsAt marks position ≠ [] := by
  intro hnil
  have hlength := h.length_regionsAt position
  have hnested := h position
  rw [hnil, List.length_nil] at hlength
  omega

end Lexical

open Lexical

namespace Tree

theorem Expr.nested_marks (expr : Expr) : Nested expr.marks := by
  induction expr with
  | number value => exact nested_nil
  | name ident => exact nested_singleton rfl
  | negate operand ih => exact ih
  | binary op left right ihleft ihright => exact ihleft.append ihright
  | missing mistake => exact nested_nil
  | unclosed inner mistake ih => exact ih

theorem Cond.nested_marks (cond : Cond) : Nested cond.marks := by
  cases cond with
  | compare op left right => exact left.nested_marks.append right.nested_marks
  | half left mistake => exact left.nested_marks
  | unfollowed op left right mistake => exact left.nested_marks.append right.nested_marks

theorem Declaration.nested_marks (declaration : Declaration) : Nested declaration.marks := by
  cases declaration with
  | const name value => exact nested_singleton rfl
  | vars names type =>
    rw [marks]
    induction names with
    | nil => exact nested_nil
    | cons name rest ih => exact (nested_singleton rfl).append ih
  | stop mistake => exact nested_nil
  | unendedCopy source mistake => exact nested_nil

theorem nested_locals (locals : List Declaration) : Nested (locals.flatMap Declaration.marks) := by
  induction locals with
  | nil => exact nested_nil
  | cons declaration rest ih => exact declaration.nested_marks.append ih

theorem Stmt.nested_marks (stmt : Stmt) : Nested stmt.marks := by
  induction stmt with
  | skip => exact nested_nil
  | seq first second ihfirst ihsecond => exact ihfirst.append ihsecond
  | assign target value => exact (nested_singleton rfl).append value.nested_marks
  | call callee => exact nested_singleton rfl
  | branch condition yes no ihyes ihno => exact (condition.nested_marks.append ihyes).append ihno
  | loop condition body ih => exact condition.nested_marks.append ih
  | ret => exact nested_nil
  | block locals body ih => exact ((nested_locals locals).append ih).enclose rfl rfl
  | stop mistake => exact nested_nil

theorem Decls.nested_marks (decls : Decls) : Nested decls.marks := by
  induction decls with
  | nil => exact nested_nil
  | plain declaration rest ih => exact declaration.nested_marks.append ih
  | nested heading locals body rest ihlocals ihrest =>
    have hprocedure : Nested (.procedure (heading.name?.getD "") ::
        (locals.marks ++ body.marks ++ [.leave])) :=
      (ihlocals.append body.nested_marks).enclose rfl rfl
    simpa [marks] using hprocedure.append ihrest
  | stop mistake => exact nested_nil

end Tree

end BlockLang
