import BlockLang.Proofs.Operands

/-! Exchanging two operands. At most one of them has to be converted, and it is converted to the
same register in either order, so what is left is the order in which the last instruction names
them. Comparisons take their mirror images there, and sums and products do not depend on it. -/

namespace BlockLang

open Code BlockLang.Tree

namespace Tree

/-- The comparison that says the same of two numbers in the other order. -/
def Comparison.mirror : Comparison → Comparison
  | equal => equal
  | notEqual => notEqual
  | less => greater
  | lessEqual => greaterEqual
  | greater => less
  | greaterEqual => lessEqual

/-- The operators whose operands can be exchanged. -/
def Operator.commutes : Operator → Bool
  | add | mul => true
  | sub | div | rem => false

/-- Sums and products of wrapped numbers are the wrapped sums and products. -/
theorem Operator.result?_wrap {op : Operator} (hop : op.commutes = true) (type : IntType)
    (first second : Int) :
    op.result? type (type.wrap first) (type.wrap second) =
      some (type.wrap (op.exact first second)) := by
  cases op with
  | add =>
    refine congrArg some ?_
    rw [← IntType.number_ofInt, BitVec.ofInt_add, IntType.ofInt_wrap, IntType.ofInt_wrap,
      ← BitVec.ofInt_add, IntType.number_ofInt, exact]
  | mul =>
    refine congrArg some ?_
    rw [← IntType.number_ofInt, BitVec.ofInt_mul, IntType.ofInt_wrap, IntType.ofInt_wrap,
      ← BitVec.ofInt_mul, IntType.number_ofInt, exact]
  | sub | div | rem => cases hop

end Tree

/-- The common type of two operands is as wide as one of them. -/
theorem IntType.width_join (left right : IntType) :
    (left.join right).width = left.width ∨ (left.join right).width = right.width := by
  unfold join
  split
  · exact .inl rfl
  · split
    · exact .inr rfl
    · exact .inl rfl

namespace Code

variable {memory : List Word} {registers : Registers} {first second : Value}

/-- The predicate that says the same of two words in the other order; it reads a sign where the
predicate does. -/
def Predicate.mirror : Predicate → Predicate
  | eq => eq
  | ne => ne
  | slt => sgt
  | sle => sge
  | sgt => slt
  | sge => sle
  | ult => ugt
  | ule => uge
  | ugt => ult
  | uge => ule

theorem Predicate.mirror_predicate (op : Comparison) (signed : Bool) :
    (op.predicate signed).mirror = op.mirror.predicate signed := by
  cases op <;> cases signed <;> rfl

theorem Predicate.holds_mirror {width : Nat} (predicate : Predicate)
    (first second : BitVec width) :
    predicate.mirror.holds second first = predicate.holds first second := by
  cases predicate with
  | eq => exact Bool.beq_comm
  | ne => exact congrArg not Bool.beq_comm
  | slt | sle | sgt | sge | ult | ule | ugt | uge => rfl

theorem BinOp.result?_comm {width : Nat} {op : Operator} (hop : op.commutes = true) (signed : Bool)
    (first second : BitVec width) :
    (op.binOp signed).result? second first = (op.binOp signed).result? first second := by
  cases op with
  | add => exact congrArg some (BitVec.add_comm second first)
  | mul => exact congrArg some (BitVec.mul_comm second first)
  | sub | div | rem => cases hop

theorem Instr.compute?_compare_mirror (h : second.type = first.type) (dest : Value)
    (predicate : Predicate) :
    (Instr.compare dest predicate.mirror second first).compute? memory registers =
      (Instr.compare dest predicate first second).compute? memory registers := by
  rw [compute?, compute?, h]
  refine (Option.bind_comm _ _).trans ?_
  refine congrArg _ (funext fun one => congrArg _ (funext fun other => ?_))
  rw [predicate.holds_mirror]

theorem Instr.compute?_binary_comm {op : Operator} (hop : op.commutes = true)
    (h : second.type = first.type) (dest : Value) (signed : Bool) :
    (Instr.binary dest (op.binOp signed) second first).compute? memory registers =
      (Instr.binary dest (op.binOp signed) first second).compute? memory registers := by
  rw [compute?, compute?, h]
  refine (Option.bind_comm _ _).trans ?_
  refine congrArg _ (funext fun one => congrArg _ (funext fun other => ?_))
  rw [BinOp.result?_comm hop]

/-- After the same code, instructions that compute the same come to the same. -/
theorem computeAll?_concat {one other : Instr} (instrs : List Instr)
    (h : ∀ registers, one.compute? memory registers = other.compute? memory registers) :
    computeAll? memory (instrs ++ [one]) registers =
      computeAll? memory (instrs ++ [other]) registers := by
  rw [computeAll?_append, computeAll?_append]
  refine congrArg _ (funext fun later => ?_)
  rw [computeAll?, computeAll?, h]

namespace Straight

variable {next : Nat} {left right operand : Operand}

/-- An operand that is wide enough already is left as it is. -/
theorem intCast_eq_pure (h : operand.value.type = operand.type.backend) {type : IntType}
    (hwidth : type.width = operand.type.width) (signed : Bool) :
    intCast operand.value type.backend signed = pure operand.value := by
  refine if_pos ?_
  rw [h]
  exact hwidth.symm

/-- In the other order, the same operand is converted by the same code. -/
theorem unify_swap (hleft : left.value.type = left.type.backend)
    (hright : right.value.type = right.type.backend) (next : Nat) :
    (unify right left).instrs next = (unify left right).instrs next ∧
      (unify right left).value next =
        (((unify left right).value next).2.1, ((unify left right).value next).1,
          left.type.join right.type) := by
  have hcommon := IntType.join_comm right.type left.type
  rcases left.type.width_join right.type with hwide | hwide
  · simp [unify, hcommon, intCast_eq_pure hleft hwide]
  · simp [unify, hcommon, intCast_eq_pure hright hwide]

theorem after_unify_swap (hleft : left.value.type = left.type.backend)
    (hright : right.value.type = right.type.backend) (next : Nat) :
    (unify right left).after next = (unify left right).after next := by
  rw [after, after, (unify_swap hleft hright next).1]

/-- Exchanging the operands of a comparison leaves its conversions and its result in place. -/
theorem compareOperands_mirror (op : Comparison) (hleft : left.value.type = left.type.backend)
    (hright : right.value.type = right.type.backend) (next : Nat) :
    let converted := (unify left right).value next
    (compareOperands op.mirror right left).instrs next = (unify left right).instrs next ++
        [.compare ((compareOperands op left right).value next)
          (op.predicate (left.type.join right.type).signed).mirror converted.2.1 converted.1] ∧
      (compareOperands op.mirror right left).value next =
        (compareOperands op left right).value next := by
  obtain ⟨hinstrs, hvalue⟩ := unify_swap hleft hright next
  have hafter := after_unify_swap hleft hright next
  refine ⟨?_, ?_⟩
  · rw [compareOperands, instrs_bind, hinstrs, hvalue, hafter, Predicate.mirror_predicate]
    rfl
  · rw [compareOperands, value_bind, hvalue, hafter]
    rfl

/-- Exchanging the operands of an operator leaves its conversions and its result in place. -/
theorem combine_swap (op : Operator) (hleft : left.value.type = left.type.backend)
    (hright : right.value.type = right.type.backend) (next : Nat) :
    let converted := (unify left right).value next
    (combine op right left).instrs next = (unify left right).instrs next ++
        [.binary ((combine op left right).value next).value
          (op.binOp (left.type.join right.type).signed) converted.2.1 converted.1] ∧
      (combine op right left).value next = (combine op left right).value next := by
  obtain ⟨hinstrs, hvalue⟩ := unify_swap hleft hright next
  have hafter := after_unify_swap hleft hright next
  have htype : ((unify left right).value next).2.1.type = ((unify left right).value next).1.type :=
    (type_intCast hright _ _).trans (type_intCast hleft _ _).symm
  refine ⟨?_, ?_⟩
  · rw [combine, instrs_bind, hinstrs, hvalue, hafter]
    change _ ++
      ([Instr.binary (.register ((unify left right).value next).2.1.type _) _ _ _] ++ []) = _
    rw [htype]
    rfl
  · rw [combine, value_bind, hvalue, hafter]
    change Operand.mk (.register ((unify left right).value next).2.1.type _) _ = _
    rw [htype]
    rfl

end Straight

end Code

open Compiler in
/-- Whichever of two operands stands first, the same code brings them to their common type. A
comparison and its mirror image then compare the same two values, and a sum or a product adds or
multiplies them, with the same result for all registers. -/
theorem exchanged_operands_agree {session : Session} {function : FunctionId} {draft : Draft}
    (hat : session.builder.At function draft) {left right : Operand}
    (hleft : left.Formed draft.nextRegister) (hright : right.Formed draft.nextRegister) :
    let type := left.type.join right.type
    ∃ casts first second,
      (first.type = type.backend ∧ second.type = type.backend ∧
        ∀ memory registers number number',
          left.number? registers = some number → right.number? registers = some number' →
          ∃ later, computeAll? memory casts registers = some later ∧
            first.read? later type.width = some (.ofInt type.width number) ∧
            second.read? later type.width = some (.ofInt type.width number')) ∧
      (∀ op : Comparison, ∃ result,
        let given := casts ++ [.compare result (op.predicate type.signed) first second]
        let mirrored := casts ++ [.compare result (op.predicate type.signed).mirror second first]
        compare op left right session =
            .ok result (session.redraft function (draft.extend given)) ∧
          compare op.mirror right left session =
            .ok result (session.redraft function (draft.extend mirrored)) ∧
          ∀ memory registers,
            computeAll? memory mirrored registers = computeAll? memory given registers ∧
            ∀ number number',
              left.number? registers = some number → right.number? registers = some number' →
              ∃ last, computeAll? memory given registers = some last ∧
                result.read? last 1 =
                  some (.ofBool (op.holds (type.wrap number) (type.wrap number')))) ∧
      ∀ op : Operator, op.commutes = true → ∃ result,
        let given := casts ++ [.binary result.value (op.binOp type.signed) first second]
        let exchanged := casts ++ [.binary result.value (op.binOp type.signed) second first]
        result.type = type ∧
          combine op left right session =
            .ok result (session.redraft function (draft.extend given)) ∧
          combine op right left session =
            .ok result (session.redraft function (draft.extend exchanged)) ∧
          ∀ memory registers,
            computeAll? memory exchanged registers = computeAll? memory given registers ∧
            ∀ number number',
              left.number? registers = some number → right.number? registers = some number' →
              ∃ last, computeAll? memory given registers = some last ∧
                result.number? last = some (type.wrap (op.exact number number')) := by
  intro type
  let converted := (Straight.unify left right).value draft.nextRegister
  have hfirst : converted.1.type = type.backend := Straight.type_intCast hleft.typed _ _
  have hsecond : converted.2.1.type = type.backend := Straight.type_intCast hright.typed _ _
  refine ⟨(Straight.unify left right).instrs draft.nextRegister, converted.1, converted.2.1,
    ⟨hfirst, hsecond, ?_⟩, fun op => ?_, fun op hop => ?_⟩
  · intro memory registers number number' hnumber hnumber'
    obtain ⟨later, hlater, -, -, hholds, hholds'⟩ : (Straight.unify left right).Computes memory
        draft.nextRegister registers (some (number, number')) _ :=
      Straight.computes_unify (hleft.stands hnumber) (hright.stands hnumber')
    exact ⟨later, hlater, hholds.read, hholds'.read⟩
  · obtain ⟨hinstrs, hvalue⟩ := Straight.compareOperands_mirror op hleft.typed hright.typed _
    have hgiven := writes_compare op hleft.sound hright.sound
    refine ⟨_, hgiven session function draft hat, ?_, ?_⟩
    · have hmirrored := writes_compare op.mirror hright.sound hleft.sound
      refine (hmirrored session function draft hat).trans ?_
      rw [hvalue, Draft.write, hinstrs]
    · intro memory registers
      refine ⟨computeAll?_concat _ fun later =>
        Instr.compute?_compare_mirror (hsecond.trans hfirst.symm) _ _, ?_⟩
      intro number number' hnumber hnumber'
      obtain ⟨last, hlast, -, hread⟩ := Straight.computes_compareOperands memory op
        (hleft.stands hnumber) (hright.stands hnumber')
      exact ⟨last, hlast, hread⟩
  · obtain ⟨hinstrs, hvalue⟩ := Straight.combine_swap op hleft.typed hright.typed _
    have hgiven := writes_combine op hleft.sound hright.sound
    refine ⟨_, rfl, hgiven session function draft hat, ?_, ?_⟩
    · have hexchanged := writes_combine op hright.sound hleft.sound
      refine (hexchanged session function draft hat).trans ?_
      rw [hvalue, Draft.write, hinstrs]
    · intro memory registers
      refine ⟨computeAll?_concat _ fun later =>
        Instr.compute?_binary_comm hop (hsecond.trans hfirst.symm) _ _, ?_⟩
      intro number number' hnumber hnumber'
      have hcomputes := Straight.computes_combine memory op (hleft.stands hnumber)
        (hright.stands hnumber')
      rw [Operator.result?_wrap hop] at hcomputes
      obtain ⟨last, hlast, -, hstands⟩ := hcomputes
      exact ⟨last, hlast, hstands.number?_eq⟩

/-- Minus seven in 8 bits and five in 16 bits without a sign meet without a sign: in either order
the first is the greater one, and their sum wraps around. -/
theorem exchanged_operands_agree_twoDefined :
    let left : Operand := ⟨.register (.int 8) 0, ⟨8, true⟩⟩
    let right : Operand := ⟨.register (.int 16) 1, ⟨16, false⟩⟩
    let registers : Registers := fun id => if id = 0 then some ⟨8, -7⟩ else some ⟨16, 5⟩
    (∃ given mirrored value last,
      Compiler.compare .greater left right twoDefined =
          .ok value (twoDefined.redraft 0 (twoDraft.extend given)) ∧
        Compiler.compare .less right left twoDefined =
          .ok value (twoDefined.redraft 0 (twoDraft.extend mirrored)) ∧
        computeAll? [] given registers = some last ∧
        computeAll? [] mirrored registers = some last ∧ value.read? last 1 = some 1) ∧
    ∃ given exchanged operand last,
      Compiler.combine .add left right twoDefined =
          .ok operand (twoDefined.redraft 0 (twoDraft.extend given)) ∧
        Compiler.combine .add right left twoDefined =
          .ok operand (twoDefined.redraft 0 (twoDraft.extend exchanged)) ∧
        computeAll? [] given registers = some last ∧
        computeAll? [] exchanged registers = some last ∧ operand.number? last = some 65534 := by
  intro left right registers
  have hat : twoDefined.builder.At 0 twoDraft := ⟨rfl, ⟨_, rfl, rfl⟩, Nat.zero_lt_one⟩
  have hformed : left.Formed 2 :=
    .register (by decide : ⟨8, true⟩ ∈ IntType.declarable) (by decide)
  have hformed' : right.Formed 2 :=
    .register (by decide : ⟨16, false⟩ ∈ IntType.declarable) (by decide)
  have hleft : left.number? registers = some (-7) := by decide
  have hright : right.number? registers = some 5 := by decide
  obtain ⟨casts, first, second, -, hcompare, hcombine⟩ :=
    exchanged_operands_agree hat hformed hformed'
  obtain ⟨value, hgiven, hmirrored, hrun⟩ := hcompare .greater
  obtain ⟨hsame, hgreater⟩ := hrun [] registers
  obtain ⟨last, hlast, hread⟩ := hgreater _ _ hleft hright
  obtain ⟨operand, -, hgiven', hexchanged, hrun'⟩ := hcombine .add rfl
  obtain ⟨hsame', hsum⟩ := hrun' [] registers
  obtain ⟨last', hlast', hnumber⟩ := hsum _ _ hleft hright
  -- The numbers are 65529 and 5 once they have met.
  refine ⟨⟨_, _, value, last, hgiven, hmirrored, hlast, hsame.trans hlast, hread.trans ?_⟩,
    _, _, operand, last', hgiven', hexchanged, hlast', hsame'.trans hlast', hnumber.trans ?_⟩
  · decide +kernel
  · decide +kernel

end BlockLang
