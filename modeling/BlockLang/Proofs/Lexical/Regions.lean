import BlockLang.Proofs.Lexical.Marks
import Mathlib.Data.List.Forall2

/-! Lexical scoping, said of positions among the marks of a program: around every position
there are scopes, a name is what the innermost scope that has declared it says, and a program
is well scoped if all its names can be resolved. -/

namespace BlockLang.Lexical

open Code BlockLang.Core

namespace Mark

/-- The name that is declared. -/
def declared? : Mark → Option String
  | procedure name | constant name _ | cell name _ => some name
  | block | leave | operand _ | target _ | callee _ => none

def type? : Mark → Option IntType
  | cell _ type => some type
  | _ => none

def isProcedure : Mark → Bool
  | procedure _ => true
  | _ => false

/-- Whether the name stands for code that is written. -/
def isUse : Mark → Bool
  | operand _ | target _ | callee _ => true
  | _ => false

end Mark

/-- A scope. The unit is opened at 0, and any other one right behind its mark. -/
structure Region where
  opened : Nat
  /-- The procedure whose code stands here. -/
  owner : Option Nat
  deriving Repr, DecidableEq

section

variable (marks : List Mark)

/-- The number of procedures declared before a position. -/
def proceduresBefore (position : Nat) : Nat :=
  (marks.take position).countP Mark.isProcedure

/-- The types of the variables declared before a position. -/
def typesBefore (position : Nat) : List IntType :=
  (marks.take position).filterMap Mark.type?

/-- The scopes around a position, the innermost first. -/
def regionsAt : Nat → List Region
  | 0 => [⟨0, none⟩]
  | position + 1 =>
    let around := regionsAt position
    match marks[position]? with
    | some .block => ⟨position + 1, (around.map Region.owner).headD none⟩ :: around
    | some (.procedure _) => ⟨position + 1, some (proceduresBefore marks position)⟩ :: around
    | some .leave => around.tail
    | _ => around

/-- The procedure whose code a position belongs to. -/
def ownerAt (position : Nat) : Option Nat :=
  ((regionsAt marks position).map Region.owner).headD none

/-- The name is declared at a position, in the given scope. -/
structure Declares (region : Region) (name : String) (position : Nat) : Prop where
  mark : marks[position]?.bind Mark.declared? = some name
  region : (regionsAt marks position).head? = some region

/-- Used at `use`, the name stands for its declaration at `position`. That is a declaration
before the use, in the innermost scope around the use that has one. -/
def Resolves (use : Nat) (name : String) (position : Nat) : Prop :=
  position < use ∧ ∃ inner region outer, regionsAt marks use = inner ++ region :: outer ∧
    Declares marks region name position ∧
    ∀ other ∈ inner, ∀ earlier < use, ¬Declares marks other name earlier

/-- The text of the constant declared at a position. A copy is resolved where it stands, before
the new name is declared. -/
inductive HasText : Nat → String → Prop
  | text {position : Nat} {name text : String}
    (hmark : marks[position]? = some (.constant name (.text text))) : HasText position text
  | copy {position origin : Nat} {name text : String} {source : Tree.Ident}
    (hmark : marks[position]? = some (.constant name (.copy source)))
    (hresolves : Resolves marks position source.name origin) (horigin : HasText origin text) :
    HasText position text

/-- What the declaration at a position makes: a constant its text, a variable the next cell,
a procedure the next function. -/
inductive Created : Nat → Entity → Prop
  | constant {position : Nat} {name text : String} {value : Tree.ConstValue}
    (hmark : marks[position]? = some (.constant name value)) (htext : HasText marks position text) :
    Created position (.literal text)
  | cell {position : Nat} {name : String} {type : IntType}
    (hmark : marks[position]? = some (.cell name type)) :
    Created position (.cell (typesBefore marks position).length type)
  | procedure {position : Nat} {name : String}
    (hmark : marks[position]? = some (.procedure name)) :
    Created position (.procedure (proceduresBefore marks position))

/-- The names that a mark uses stand for declarations of the right kind: a constant copies
constants only, an operand is a variable or a constant whose text is a numeral. -/
def Bound (use : Nat) : Mark → Prop
  | .constant _ (.copy source) =>
    ∃ position value, Resolves marks use source.name position ∧
      marks[position]? = some (.constant source.name value)
  | .operand name =>
    ∃ position, Resolves marks use name position ∧
      ((∃ type, marks[position]? = some (.cell name type)) ∨
        ∃ value text, marks[position]? = some (.constant name value) ∧
          HasText marks position text ∧ (Numeral.read? text).isSome = true)
  | .target name =>
    ∃ position type, Resolves marks use name position ∧ marks[position]? = some (.cell name type)
  | .callee name =>
    ∃ position, Resolves marks use name position ∧ marks[position]? = some (.procedure name)
  | .constant _ (.text _) | .procedure _ | .cell _ _ | .block | .leave => True

structure WellScoped : Prop where
  /-- No scope declares a name twice. -/
  once : ∀ region name first second, Declares marks region name first →
    Declares marks region name second → first = second
  bound : ∀ use mark, marks[use]? = some mark → Bound marks use mark

/-- The uses before a position that belong to the code of a procedure. -/
def usesBefore (position id : Nat) : List Nat :=
  (List.range position).filter fun use =>
    marks[use]?.any Mark.isUse && ownerAt marks use == some id

/-- What the code does for a use. It names what the declaration has made that the use stands
for; a constant needs no access. -/
inductive Touches : Nat → List Access → Prop
  | load {use position id : Nat} {name : String} {type : IntType}
    (hmark : marks[use]? = some (.operand name)) (hresolves : Resolves marks use name position)
    (hcreated : Created marks position (.cell id type)) : Touches use [.load id]
  | constant {use position : Nat} {name text : String}
    (hmark : marks[use]? = some (.operand name)) (hresolves : Resolves marks use name position)
    (hcreated : Created marks position (.literal text)) : Touches use []
  | store {use position id : Nat} {name : String} {type : IntType}
    (hmark : marks[use]? = some (.target name)) (hresolves : Resolves marks use name position)
    (hcreated : Created marks position (.cell id type)) : Touches use [.store id]
  | call {use position id : Nat} {name : String}
    (hmark : marks[use]? = some (.callee name)) (hresolves : Resolves marks use name position)
    (hcreated : Created marks position (.procedure id)) : Touches use [.call id]

end

section

variable {marks : List Mark} {position : Nat} {mark : Mark}

theorem take_succ_of_mark (hmark : marks[position]? = some mark) :
    marks.take (position + 1) = marks.take position ++ [mark] := by
  rw [List.take_add_one, hmark]
  rfl

theorem proceduresBefore_succ (hmark : marks[position]? = some mark) :
    proceduresBefore marks (position + 1) =
      proceduresBefore marks position + if mark.isProcedure then 1 else 0 := by
  unfold proceduresBefore
  rw [take_succ_of_mark hmark, List.countP_append, List.countP_singleton]

theorem typesBefore_succ (hmark : marks[position]? = some mark) :
    typesBefore marks (position + 1) = typesBefore marks position ++ mark.type?.toList := by
  unfold typesBefore
  rw [take_succ_of_mark hmark, List.filterMap_append]
  cases hmark : mark.type? <;> simp [hmark]

theorem typesBefore_quiet (hmark : marks[position]? = some mark) (htype : mark.type? = none) :
    typesBefore marks (position + 1) = typesBefore marks position := by
  rw [typesBefore_succ hmark, htype]
  exact List.append_nil _

theorem proceduresBefore_mono {earlier : Nat} (h : earlier ≤ position) :
    proceduresBefore marks earlier ≤ proceduresBefore marks position :=
  (List.take_sublist_take_left h).countP_le

theorem usesBefore_succ (id : Nat) (hmark : marks[position]? = some mark) :
    usesBefore marks (position + 1) id = usesBefore marks position id ++
      if mark.isUse = true ∧ ownerAt marks position = some id then [position] else [] := by
  unfold usesBefore
  rw [List.range_succ, List.filter_append, List.filter_singleton]
  congr 1
  simp only [hmark, Option.any_some, Bool.cond_eq_ite, Bool.and_eq_true, beq_iff_eq]

theorem regionsAt_succ : marks[position]? = some mark →
    regionsAt marks (position + 1) = match mark with
      | .block => ⟨position + 1, ownerAt marks position⟩ :: regionsAt marks position
      | .procedure _ =>
        ⟨position + 1, some (proceduresBefore marks position)⟩ :: regionsAt marks position
      | .leave => (regionsAt marks position).tail
      | _ => regionsAt marks position := by
  intro hmark
  rw [regionsAt, hmark]
  cases mark <;> rfl

private theorem mem_of_headD {around : List Region} {id : Nat}
    (h : (around.map Region.owner).headD none = some id) :
    ∃ region ∈ around, region.owner = some id := by
  cases around with
  | nil => cases h
  | cons region outer => exact ⟨region, List.mem_cons_self, h⟩

/-- A scope is opened before everything in it, and belongs to a procedure declared before. -/
theorem regionsAt_bounds (position : Nat) :
    ∀ region ∈ regionsAt marks position, region.opened ≤ position ∧
      ∀ id, region.owner = some id → id < proceduresBefore marks position := by
  induction position with
  | zero => simp [regionsAt]
  | succ position ih =>
    have hmono := @proceduresBefore_mono marks _ _ (Nat.le_succ position)
    have hkept : ∀ region ∈ regionsAt marks position, region.opened ≤ position + 1 ∧
        ∀ id, region.owner = some id → id < proceduresBefore marks (position + 1) := by
      intro region hregion
      obtain ⟨hopened, howner⟩ := ih region hregion
      exact ⟨by omega, fun id hid => Nat.lt_of_lt_of_le (howner id hid) hmono⟩
    rw [regionsAt]
    split
    · rintro region (_ | ⟨_, hregion⟩)
      · refine ⟨Nat.le_refl _, fun id hid => ?_⟩
        obtain ⟨other, hother, howner⟩ := mem_of_headD hid
        exact (hkept other hother).2 id howner
      · exact hkept region hregion
    · next hmark =>
      rintro region (_ | ⟨_, hregion⟩)
      · refine ⟨Nat.le_refl _, fun id hid => ?_⟩
        cases hid
        rw [proceduresBefore_succ hmark]
        exact Nat.lt_succ_self _
      · exact hkept region hregion
    · exact fun region hregion => hkept region (List.mem_of_mem_tail hregion)
    · exact hkept

theorem ownerAt_lt {id : Nat} (h : ownerAt marks position = some id) :
    id < proceduresBefore marks position := by
  obtain ⟨region, hregion, howner⟩ := mem_of_headD h
  exact (regionsAt_bounds position region hregion).2 id howner

/-- A procedure that is not yet declared has no code. -/
theorem usesBefore_eq_nil {id : Nat} (h : proceduresBefore marks position ≤ id) :
    usesBefore marks position id = [] := by
  unfold usesBefore
  rw [List.filter_eq_nil_iff]
  intro use huse howned
  rw [List.mem_range] at huse
  rw [Bool.and_eq_true, beq_iff_eq] at howned
  have hlt := ownerAt_lt howned.2
  have hmono := @proceduresBefore_mono marks _ _ (Nat.le_of_lt huse)
  omega

/-- Inner scopes are opened later. -/
theorem regionsAt_ordered (position : Nat) :
    (regionsAt marks position).Pairwise fun inner outer => outer.opened < inner.opened := by
  induction position with
  | zero => exact List.pairwise_singleton _ _
  | succ position ih =>
    have hnew : ∀ region ∈ regionsAt marks position, region.opened < position + 1 :=
      fun region hregion => Nat.lt_succ_of_le (regionsAt_bounds position region hregion).1
    rw [regionsAt]
    split
    · exact List.pairwise_cons.2 ⟨hnew, ih⟩
    · exact List.pairwise_cons.2 ⟨hnew, ih⟩
    · exact ih.tail
    · exact ih

end

end BlockLang.Lexical
