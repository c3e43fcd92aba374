import Mathlib.Algebra.Group.Int.Defs
import Mathlib.Algebra.Group.Nat.Defs
import BlockLang.Code.Check
import BlockLang.Proofs.Code.Straight

/-! Instructions that fit where they stand: their types agree, what they refer to exists,
and every register they use has been defined just before. -/

namespace BlockLang.Code

/-- The value an instruction defines. -/
def Instr.dest? : Instr → Option Value
  | load dest _ => some dest
  | binary dest _ _ _ => some dest
  | compare dest _ _ _ => some dest
  | cast dest _ _ => some dest
  | store _ _ => none
  | call _ => none
  | jump _ => none
  | fork _ _ _ => none
  | ret => none

/-- The values an instruction uses. -/
def Instr.uses : Instr → List Value
  | load _ _ => []
  | binary _ _ left right => [left, right]
  | compare _ _ left right => [left, right]
  | cast _ _ value => [value]
  | store value _ => [value]
  | call _ => []
  | jump _ => []
  | fork condition _ _ => [condition]
  | ret => []

/-- What the check asks of an instruction, in a module with the given cells and number
of functions and in a function with the given number of blocks. -/
def Instr.Fits (cells : List IntType) (functions blocks : Nat) : Instr → Prop
  | load dest source => ∃ type, cells[source]? = some type ∧ dest.type = type.backend
  | store value target => ∃ type, cells[target]? = some type ∧ value.type = type.backend
  | binary dest _ left right => left.type = right.type ∧ left.type = dest.type
  | compare dest _ left right => left.type = right.type ∧ dest.type = .int 1
  | cast dest op value => op.fits value.type.bits dest.type.bits = true
  | call callee => callee < functions
  | jump target => target < blocks
  | fork condition yes no => condition.type = .int 1 ∧ yes < blocks ∧ no < blocks
  | ret => True

theorem Instr.Fits.mono {cells more : List IntType} {functions others blocks last : Nat}
    {instr : Instr} (h : instr.Fits cells functions blocks) (hcells : cells <+: more)
    (hfunctions : functions ≤ others) (hblocks : blocks ≤ last) :
    instr.Fits more others last := by
  have hlookup : ∀ {id : GlobalId} {type : IntType}, cells[id]? = some type →
      more[id]? = some type := fun hcell => by
    obtain ⟨rest, rfl⟩ := hcells
    rw [List.getElem?_append_left (List.getElem?_eq_some_iff.1 hcell).1]
    exact hcell
  cases instr with
  | load dest source =>
    obtain ⟨type, hcell, htype⟩ := h
    exact ⟨type, hlookup hcell, htype⟩
  | store value target =>
    obtain ⟨type, hcell, htype⟩ := h
    exact ⟨type, hlookup hcell, htype⟩
  | binary dest op left right => exact h
  | compare dest predicate left right => exact h
  | cast dest op value => exact h
  | call callee => exact Nat.lt_of_lt_of_le h hfunctions
  | jump target => exact Nat.lt_of_lt_of_le h hblocks
  | fork condition yes no =>
    exact ⟨h.1, Nat.lt_of_lt_of_le h.2.1 hblocks, Nat.lt_of_lt_of_le h.2.2 hblocks⟩
  | ret => exact h

theorem requireType_eq {operation : String} {expected found : Ty} (h : expected = found) :
    requireType operation expected found = .ok () := by
  simp [requireType, h]

theorem globalType_eq {code : Module} {cells : List IntType} {id : GlobalId} {type : IntType}
    (hglobals : code.globals.map Global.type = cells.map IntType.backend)
    (h : cells[id]? = some type) : globalType code id = .ok type.backend := by
  have htype : (code.globals.map Global.type)[id]? = some type.backend := by
    rw [hglobals, List.getElem?_map, h]
    rfl
  rw [List.getElem?_map] at htype
  obtain ⟨global, hglobal, htype⟩ := Option.map_eq_some_iff.1 htype
  simp [globalType, hglobal, htype]

/-- An instruction that fits passes the check. -/
theorem Instr.check_eq {code : Module} {function : Function} {cells : List IntType}
    {instr : Instr} (hglobals : code.globals.map Global.type = cells.map IntType.backend)
    (h : instr.Fits cells code.functions.length function.blocks.length) :
    instr.check code function = .ok () := by
  cases instr with
  | load dest source =>
    obtain ⟨type, hcell, htype⟩ := h
    simp [check, globalType_eq hglobals hcell, bind, Except.bind, requireType, htype]
  | store value target =>
    obtain ⟨type, hcell, htype⟩ := h
    simp [check, globalType_eq hglobals hcell, bind, Except.bind, requireType, htype]
  | binary dest op left right =>
    simp [check, requireType_eq h.1, requireType_eq h.2, bind, Except.bind]
  | compare dest predicate left right =>
    simp [check, requireType_eq h.1, requireType_eq h.2, bind, Except.bind]
  | cast dest op value =>
    have hfits : op.fits value.type.bits dest.type.bits = true := h
    simp [check, hfits]
  | call callee =>
    have hcallee : callee < code.functions.length := h
    simp [check, hcallee]
  | jump target =>
    have htarget : target < function.blocks.length := h
    simp [check, requireBlock, htarget]
  | fork condition yes no =>
    simp [check, requireType_eq h.1, requireBlock, h.2.1, h.2.2, bind, Except.bind]
  | ret => rfl

def Value.register? : Value → Option Nat
  | const _ _ => none
  | register _ id => some id

/-- A constant in the signed range of its type, or a register among those known. -/
def Value.Known (known : List Value) : Value → Prop
  | const type value => ∃ bits, type = .int (bits + 1) ∧
      -2 ^ bits ≤ value.toInt ∧ value.toInt < 2 ^ bits
  | register type id => .register type id ∈ known

theorem Value.Known.mono {known more : List Value} {value : Value} (h : value.Known known)
    (hsubset : known ⊆ more) : value.Known more := by
  cases value with
  | const type constant => exact h
  | register type id => exact hsubset h

def defined (instrs : List Instr) : List Value :=
  instrs.filterMap Instr.dest?

@[simp] theorem defined_nil : defined [] = [] := rfl

@[simp] theorem defined_append (first second : List Instr) :
    defined (first ++ second) = defined first ++ defined second := by
  simp [defined]

/-- Straight-line code that defines the registers from `next` on and uses what is known
or has just been defined. -/
def Neat (cells : List IntType) : List Value → Nat → List Instr → Prop
  | _, _, [] => True
  | known, next, instr :: rest =>
    (∀ value ∈ instr.uses, value.Known known) ∧ instr.Fits cells 0 0 ∧
      ∃ type, instr.dest? = some (.register type next) ∧
        Neat cells (known ++ [.register type next]) (next + 1) rest

theorem Neat.append {cells : List IntType} {known : List Value} {next : Nat}
    {first second : List Instr} (hfirst : Neat cells known next first)
    (hsecond : Neat cells (known ++ defined first) (next + first.length) second) :
    Neat cells known next (first ++ second) := by
  induction first generalizing known next with
  | nil => simpa using hsecond
  | cons instr rest ih =>
    obtain ⟨huses, hfits, type, hdest, hrest⟩ := hfirst
    refine ⟨huses, hfits, type, hdest, ih hrest ?_⟩
    have hdefined : defined (instr :: rest) = [.register type next] ++ defined rest := by
      simp [defined, hdest]
    rw [hdefined, List.length_cons, ← List.append_assoc] at hsecond
    rwa [Nat.add_assoc, Nat.add_comm 1]

/-- From the values known, the code is neat, and `done` holds of the values known after it
and of the value it leaves. -/
def Straight.Leaves {α : Type} (code : Straight α) (cells : List IntType) (known : List Value)
    (done : List Value → α → Prop) : Prop :=
  ∀ next, Neat cells known next (code.instrs next) ∧
    done (known ++ defined (code.instrs next)) (code.value next)

namespace Straight

variable {α β : Type} {cells : List IntType} {known : List Value}

theorem Leaves.bind {code : Straight α} {rest : α → Straight β} {middle : List Value → α → Prop}
    {done : List Value → β → Prop} (h : code.Leaves cells known middle)
    (hrest : ∀ more value, known ⊆ more → middle more value →
      (rest value).Leaves cells more done) : (code >>= rest).Leaves cells known done := by
  intro next
  obtain ⟨hneat, hmiddle⟩ := h next
  obtain ⟨hneat', hdone⟩ := hrest _ _ (List.subset_append_left _ _) hmiddle (code.after next)
  refine ⟨hneat.append hneat', ?_⟩
  rw [instrs_bind, value_bind, defined_append, ← List.append_assoc]
  exact hdone

theorem leaves_pure {value : α} {done : List Value → α → Prop} (h : done known value) :
    (pure value : Straight α).Leaves cells known done := by
  intro next
  refine ⟨trivial, ?_⟩
  rw [instrs_pure, defined_nil, List.append_nil]
  exact h

/-- One instruction, which leaves the register it defines. -/
theorem leaves_define {type : Ty} {instr : Value → Instr}
    (huses : ∀ dest, ∀ value ∈ (instr dest).uses, value.Known known)
    (hfits : ∀ id, (instr (.register type id)).Fits cells 0 0)
    (hdest : ∀ dest, (instr dest).dest? = some dest) :
    (define type instr).Leaves cells known fun more value =>
      value.Known more ∧ ∃ id, value = .register type id := by
  intro next
  refine ⟨⟨huses _, hfits next, type, hdest _, trivial⟩, ?_, next, rfl⟩
  simp [Value.Known, defined, hdest]

theorem Leaves.mono {code : Straight α} {done done' : List Value → α → Prop}
    (h : code.Leaves cells known done) (hdone : ∀ more value, done more value → done' more value) :
    code.Leaves cells known done' :=
  fun next => ⟨(h next).1, hdone _ _ (h next).2⟩

end Straight

end BlockLang.Code
