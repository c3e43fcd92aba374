import BlockLang.Proofs.Code.Computes
import BlockLang.Proofs.Core.Arithmetic
import BlockLang.Proofs.Core.Typing

/-! The code of an expression computes the expression's value, and gets stuck exactly if
the expression has none. -/

namespace BlockLang

open Code

namespace Core

def Store.words (store : Store) (cells : List IntType) : List Word :=
  cells.mapIdx fun id type => ⟨type.width, .ofInt type.width (store id)⟩

/-- Every cell holds a number of its type. -/
def Store.Within (cells : List IntType) (store : Store) : Prop :=
  ∀ (id : Nat) (type : IntType), cells[id]? = some type → type.Contains (store id)

theorem Store.words_getElem? (store : Store) {cells : List IntType} {id : Nat} {type : IntType}
    (h : cells[id]? = some type) :
    (store.words cells)[id]? = some ⟨type.width, .ofInt type.width (store id)⟩ := by
  simp [Store.words, h]

end Core

/-- An operand that stands for a number of its type. -/
structure Operand.Stands (next : Nat) (registers : Registers) (operand : Operand) (number : Int) :
    Prop where
  declarable : operand.type ∈ IntType.declarable
  contains : operand.type.Contains number
  holds : operand.value.Holds next registers operand.type number
  constant : ∀ type value, operand.value = .const type value →
    operand.type.signed = true ∧ value.toInt = number

theorem Operand.Stands.mono {next last : Nat} {registers later : Registers} {operand : Operand}
    {number : Int} (h : operand.Stands next registers number)
    (hkept : ∀ id < next, later id = registers id) (hle : next ≤ last) :
    operand.Stands last later number :=
  ⟨h.declarable, h.contains, h.holds.mono hkept hle, h.constant⟩

theorem Operand.stands_constant (next : Nat) (registers : Registers) (value : Int64) :
    (Operand.constant value).Stands next registers value.toInt := by
  have hnarrow : IntType.int32 ∈ IntType.declarable := by decide
  have hwide : IntType.int64 ∈ IntType.declarable := by decide
  unfold Operand.constant IntType.ofConstant
  split
  · next hrange =>
    exact ⟨hnarrow, inRange_int32 hrange.1 hrange.2, ⟨rfl, rfl, by rintro _ ⟨⟩⟩,
      by rintro _ _ ⟨⟩; exact ⟨rfl, rfl⟩⟩
  · exact ⟨hwide, inRange_int64 value, ⟨rfl, rfl, by rintro _ ⟨⟩⟩, by rintro _ _ ⟨⟩; exact ⟨rfl, rfl⟩⟩

namespace Code.Straight

variable {memory : List Word} {next : Nat} {registers : Registers}

/-- A constant at another width is the same number, but for the bits that are cut off. -/
theorem ofInt_castConstant {source : IntType} {target : Nat} {constant : Int64}
    (hsource : 0 < source.width) (htarget : 0 < target) (hlong : source.width ≤ 64)
    (hsigned : source.signed = true) (hconstant : source.Contains constant.toInt) :
    BitVec.ofInt target (castConstant source.width target source.signed constant).toInt =
      .ofInt target constant.toInt := by
  obtain ⟨width, signed⟩ := source
  obtain rfl : signed = true := hsigned
  obtain ⟨bits, rfl⟩ := Nat.exists_eq_add_one.2 hsource
  obtain ⟨more, rfl⟩ := Nat.exists_eq_add_one.2 htarget
  have hrange : InRange bits constant.toInt := hconstant
  rw [toInt_castConstant hrange (Nat.le_of_lt_succ hlong)]
  split
  · apply BitVec.eq_of_toInt_eq
    rw [BitVec.toInt_ofInt, BitVec.toInt_ofInt, Int.bmod_bmod]
  · rfl

/-- One instruction, which leaves a number of the type. -/
theorem computes_number {type : IntType} {instr : Value → Instr} {result : Option Int}
    (h : (instr (.register type.backend next)).compute? memory registers =
      result >>= fun number => (Value.register type.backend next).define? registers
        ⟨type.width, .ofInt type.width number⟩) :
    (define type.backend instr).Computes memory next registers result fun number after last value =>
      value = .register type.backend next ∧ value.Holds after last type number := by
  have hdefine : (define type.backend instr).Computes memory next registers
      (result.map (BitVec.ofInt type.width)) _ := computes_define (by
    rw [IntType.backend] at h
    rw [h]
    cases result <;> rfl)
  refine hdefine.of_map.mono ?_
  rintro number last - - ⟨hvalue, hread⟩
  refine ⟨hvalue, ?_, hread, ?_⟩
  · rw [hvalue]
    rfl
  · rw [hvalue]
    rintro id ⟨⟩
    exact Nat.lt_succ_self next

/-- An operand at the width of another type. -/
theorem computes_intCast {operand : Operand} {number : Int}
    (h : operand.Stands next registers number) {type : IntType} (htype : type ∈ IntType.declarable) :
    (intCast operand.value type.backend operand.type.signed).Computes memory next registers
      (some number) fun number after last value => value.Holds after last type number := by
  obtain ⟨value, source⟩ := operand
  obtain ⟨hsource, hcontains, ⟨htyped, hread, hbound⟩, hconstant⟩ := h
  dsimp only at hsource hcontains htyped hread hbound hconstant ⊢
  have hbits : value.type.bits = source.width := by rw [htyped]; rfl
  obtain ⟨hlow, hhigh⟩ := IntType.width_bounds hsource
  obtain ⟨hlow', hhigh'⟩ := IntType.width_bounds htype
  by_cases hsame : value.type.bits = type.backend.bits
  · have hcode : intCast value type.backend source.signed = pure value := if_pos hsame
    have hwidth : source.width = type.width := hbits.symm.trans hsame
    rw [hcode]
    refine computes_pure ⟨?_, ?_, hbound⟩
    · rw [htyped, IntType.backend, hwidth]
      rfl
    · rw [← hwidth]
      exact hread
  · cases value with
    | const constantType constant =>
      obtain rfl : constantType = source.backend := htyped
      obtain ⟨hsigned, rfl⟩ := hconstant _ _ rfl
      have hcode : intCast (.const source.backend constant) type.backend source.signed =
          pure (.const type.backend (castConstant source.width type.width source.signed constant)) :=
        if_neg hsame
      rw [hcode]
      refine computes_pure ⟨rfl, ?_, by rintro _ ⟨⟩⟩
      refine (if_pos rfl).trans (congrArg some ?_)
      exact ofInt_castConstant hlow hlow' hhigh hsigned hcontains
    | register registerType id =>
      obtain rfl : registerType = source.backend := htyped
      have hcode : intCast (.register source.backend id) type.backend source.signed =
          define type.backend fun dest =>
            .cast dest (.between source.width type.width source.signed) (.register source.backend id) :=
        if_neg hsame
      have hbits : (CastOp.between source.width type.width source.signed).apply
          (.ofInt source.width number) type.width = .ofInt type.width number := by
        rcases Nat.lt_or_gt_of_ne hsame with hwider | hnarrower
        · exact CastOp.apply_widen hlow hcontains hwider
        · exact CastOp.apply_narrow _ _ hnarrower
      rw [hcode]
      refine (computes_number ?_).mono fun _ _ _ _ hdone => hdone.2
      change (Value.read? registers _ source.width >>= _) = _
      rw [hread]
      exact congrArg (fun bits => (Value.register type.backend next).define? registers
        ⟨type.width, bits⟩) hbits

/-- Both operands at their common type. -/
theorem computes_unify {left right : Operand} {first second : Int}
    (hleft : left.Stands next registers first) (hright : right.Stands next registers second) :
    (unify left right).Computes memory next registers (some (first, second))
      fun numbers after last unified => unified.2.2 = left.type.join right.type ∧
        unified.1.Holds after last unified.2.2 numbers.1 ∧
          unified.2.1.Holds after last unified.2.2 numbers.2 := by
  have htype := IntType.join_mem_declarable hleft.declarable hright.declarable
  have hresult : some (first, second) = some first >>= fun first => some second >>= fun second =>
      some (first, second) := rfl
  rw [hresult]
  refine (computes_intCast hleft htype).bind ?_
  rintro first later - hkept hfirst
  refine (computes_intCast (hright.mono hkept (Nat.le_add_right _ _)) htype).bind ?_
  rintro second last - hkept' hsecond
  exact computes_pure ⟨rfl, hfirst.mono hkept' (Nat.le_add_right _ _), hsecond⟩

theorem computes_binary (op : Tree.Operator) {first second : Value} {type : IntType}
    {left right : Int} (hwidth : 0 < type.width) (hfirst : first.Holds next registers type left)
    (hsecond : second.Holds next registers type right) :
    (binary (op.binOp type.signed) first second).Computes memory next registers
      (op.result? type (type.wrap left) (type.wrap right)) fun number after last value =>
        value = .register type.backend next ∧ type.Contains number ∧
          value.Holds after last type number := by
  have hbits : first.type.bits = type.width := by rw [hfirst.typed]; rfl
  unfold binary
  rw [hfirst.typed, ← type.number_ofInt left, ← type.number_ofInt right]
  refine (computes_number ?_).mono fun _ _ hresult _ hdone =>
    ⟨hdone.1, contains_result? hresult, hdone.2⟩
  rw [Instr.compute?_binary hbits hfirst.read hsecond.read, BinOp.result?_eq hwidth]
  cases op.result? type (type.number (.ofInt type.width left))
    (type.number (.ofInt type.width right)) <;> rfl

theorem computes_compare (op : Tree.Comparison) {first second : Value} {type : IntType}
    {left right : Int} (hfirst : first.Holds next registers type left)
    (hsecond : second.Holds next registers type right) :
    (compare (op.predicate type.signed) first second).Computes memory next registers
      (some (op.holds (type.wrap left) (type.wrap right))) fun holds _ last value =>
        value.read? last 1 = some (.ofBool holds) := by
  have hbits : first.type.bits = type.width := by rw [hfirst.typed]; rfl
  have hdefine : (compare (op.predicate type.signed) first second).Computes memory next registers
      ((some (op.holds (type.wrap left) (type.wrap right))).map BitVec.ofBool) _ :=
    computes_define (by
      rw [Instr.compute?_compare hbits hfirst.read hsecond.read, Predicate.holds_eq,
        type.number_ofInt, type.number_ofInt]
      rfl)
  exact hdefine.of_map.mono fun _ _ _ _ hdone => hdone.2

theorem computes_combine (memory : List Word) (op : Tree.Operator) {left right : Operand}
    {first second : Int} (hleft : left.Stands next registers first)
    (hright : right.Stands next registers second) :
    (combine op left right).Computes memory next registers
      (op.result? (left.type.join right.type) ((left.type.join right.type).wrap first)
        ((left.type.join right.type).wrap second)) fun number after last operand =>
          operand.Stands after last number := by
  have htype := IntType.join_mem_declarable hleft.declarable hright.declarable
  have hwidth := (IntType.width_bounds htype).1
  let type := left.type.join right.type
  have hresult : op.result? type (type.wrap first) (type.wrap second) =
      some (first, second) >>= fun numbers =>
        op.result? type (type.wrap numbers.1) (type.wrap numbers.2) >>= some :=
    (Option.bind_fun_some _).symm
  rw [hresult]
  refine (computes_unify hleft hright).bind ?_
  generalize (unify left right).value next = unified
  obtain ⟨one, two, common⟩ := unified
  rintro ⟨first, second⟩ later - - ⟨hcommon, hfirst, hsecond⟩
  obtain rfl : common = type := hcommon
  refine (computes_binary op hwidth hfirst hsecond).bind ?_
  rintro number last - - ⟨hvalue, hcontains, hholds⟩
  refine computes_pure ⟨htype, hcontains, hholds, ?_⟩
  intro constantType value hconstant
  rw [hvalue] at hconstant
  cases hconstant

theorem computes_compareOperands (memory : List Word) (op : Tree.Comparison)
    {left right : Operand} {first second : Int} (hleft : left.Stands next registers first)
    (hright : right.Stands next registers second) :
    (compareOperands op left right).Computes memory next registers
      (some (op.holds ((left.type.join right.type).wrap first)
        ((left.type.join right.type).wrap second))) fun holds _ last value =>
          value.read? last 1 = some (.ofBool holds) := by
  let type := left.type.join right.type
  have hresult : some (op.holds (type.wrap first) (type.wrap second)) =
      some (first, second) >>= fun numbers =>
        some (op.holds (type.wrap numbers.1) (type.wrap numbers.2)) := rfl
  rw [hresult]
  refine (computes_unify hleft hright).bind ?_
  generalize (unify left right).value next = unified
  obtain ⟨one, two, common⟩ := unified
  rintro ⟨first, second⟩ later - - ⟨hcommon, hfirst, hsecond⟩
  obtain rfl : common = type := hcommon
  exact computes_compare op hfirst hsecond

/-- A register is taken from 0, and a constant is replaced by another. -/
theorem computes_negate (memory : List Word) {operand : Operand} {number : Int}
    (h : operand.Stands next registers number) :
    (negate operand).Computes memory next registers
      (some (match operand.value with
        | .const _ value => (-value).toInt
        | .register _ _ => operand.type.wrap (-number))) fun number after last operand =>
          operand.Stands after last number := by
  obtain ⟨value, type⟩ := operand
  have hwidth := (IntType.width_bounds h.declarable).1
  cases value with
  | const constantType constant => exact computes_pure (Operand.stands_constant _ _ _)
  | register registerType id =>
    have hzero : (Value.const type.backend 0).Holds next registers type 0 :=
      ⟨rfl, if_pos rfl, by rintro _ ⟨⟩⟩
    have hwrapped : type.wrap 0 = 0 := by simp [IntType.wrap]
    have hresult : some (type.wrap (-number)) =
        Tree.Operator.result? type (type.wrap 0) (type.wrap number) .sub >>= some := by
      rw [h.contains.wrap_eq hwidth, hwrapped, Tree.Operator.result?, Int.zero_sub]
      rfl
    change Computes (binary .sub (.const type.backend 0) (.register registerType id) >>=
      fun value => pure (⟨value, type⟩ : Operand)) memory next registers (some (type.wrap (-number))) _
    rw [hresult]
    refine (computes_binary .sub hwidth hzero h.holds).bind ?_
    rintro number last - - ⟨hvalue, hcontains, hholds⟩
    refine computes_pure ⟨h.declarable, hcontains, hholds, ?_⟩
    intro constantType value hconstant
    rw [hvalue] at hconstant
    cases hconstant

end Code.Straight

namespace Core

open Code.Straight

variable {cells : List IntType} {store : Store}

theorem Expr.eval_of_constant? {expr : Expr} {value : Int64} (h : expr.constant? = some value) :
    expr.eval store = some value.toInt := by
  cases expr with
  | number number =>
    cases h
    rfl
  | cell id type => cases h
  | negate operand =>
    obtain ⟨inner, hinner, rfl⟩ := Option.map_eq_some_iff.1 h
    rw [Expr.eval, hinner]
  | binary op left right => cases h

/-- The operand has the type of the expression, and is a constant exactly if the expression is
one. -/
structure Expr.Describes (expr : Expr) (operand : Operand) : Prop where
  type_eq : operand.type = expr.type
  value_eq : match expr.constant? with
    | some value => ∃ type, operand.value = .const type value
    | none => ∃ type id, operand.value = .register type id

theorem Expr.Describes.negate {expr : Expr} {operand : Operand} (h : expr.Describes operand)
    (next : Nat) :
    (Expr.negate expr).Describes ((Code.Straight.negate operand).value next) := by
  obtain ⟨value, type⟩ := operand
  obtain ⟨htype, hvalue⟩ := h
  cases hconstant : expr.constant? with
  | some number =>
    rw [hconstant] at hvalue
    obtain ⟨constantType, rfl⟩ := hvalue
    refine ⟨?_, ?_⟩
    · rw [Expr.type, hconstant]
      rfl
    · rw [Expr.constant?, hconstant]
      exact ⟨_, rfl⟩
  | none =>
    rw [hconstant] at hvalue
    obtain ⟨registerType, id, rfl⟩ := hvalue
    refine ⟨?_, ?_⟩
    · rw [Expr.type, hconstant]
      exact htype
    · rw [Expr.constant?, hconstant]
      exact ⟨_, _, rfl⟩

/-- The expression describes the operand that its code leaves. -/
theorem Expr.value_code (expr : Expr) (next : Nat) : expr.Describes (expr.code.value next) := by
  induction expr generalizing next with
  | number value => exact ⟨rfl, _, rfl⟩
  | cell id type => exact ⟨rfl, _, _, rfl⟩
  | negate operand ih =>
    rw [Expr.code, value_bind]
    exact (ih next).negate _
  | binary op left right ihleft ihright =>
    refine ⟨?_, _, _, rfl⟩
    change (left.code.value next).type.join (right.code.value (left.code.after next)).type = _
    rw [(ihleft next).type_eq, (ihright _).type_eq]
    rfl

theorem Expr.computes_code (hcells : ∀ type ∈ cells, type ∈ IntType.declarable) {expr : Expr}
    (h : expr.Fits cells) (hstore : store.Within cells) (next : Nat) (registers : Registers) :
    expr.code.Computes (store.words cells) next registers (expr.eval store)
      fun number after last operand => operand.Stands after last number := by
  induction expr generalizing next registers with
  | number value => exact computes_pure (Operand.stands_constant _ _ _)
  | cell id type =>
    have hload : (load id type.backend).Computes (store.words cells) next registers
        (some (store id)) _ := computes_number (by
      change ((store.words cells)[id]? >>= _) = _
      rw [store.words_getElem? h]
      rfl)
    have hresult : (Expr.cell id type).eval store = some (store id) >>= some := rfl
    rw [hresult]
    refine hload.bind ?_
    rintro number last ⟨⟩ - ⟨hvalue, hholds⟩
    refine computes_pure ⟨hcells type (List.mem_of_getElem? h), hstore id type h, hholds, ?_⟩
    intro constantType value hconstant
    rw [hvalue] at hconstant
    cases hconstant
  | negate operand ih =>
    obtain ⟨htype, hvalue⟩ := operand.value_code next
    cases hconstant : operand.constant? with
    | some value =>
      have hresult : (Expr.negate operand).eval store =
          operand.eval store >>= fun _ => some (-value).toInt := by
        rw [Expr.eval, hconstant, Expr.eval_of_constant? hconstant]
        rfl
      rw [hconstant] at hvalue
      obtain ⟨constantType, hvalue⟩ := hvalue
      rw [hresult]
      refine (ih h next registers).bind ?_
      rintro number later - - hstands
      have hnegate := computes_negate (store.words cells) hstands
      rw [hvalue] at hnegate
      exact hnegate
    | none =>
      have hresult : (Expr.negate operand).eval store =
          operand.eval store >>= fun number => some (operand.type.wrap (-number)) := by
        rw [Expr.eval, hconstant]
        rfl
      rw [hconstant] at hvalue
      obtain ⟨registerType, id, hvalue⟩ := hvalue
      rw [hresult]
      refine (ih h next registers).bind ?_
      rintro number later - - hstands
      have hnegate := computes_negate (store.words cells) hstands
      rw [hvalue, htype] at hnegate
      exact hnegate
  | binary op left right ihleft ihright =>
    refine (ihleft h.1 next registers).bind ?_
    rintro first middle - - hfirst
    refine (ihright h.2 _ middle).bind ?_
    rintro second later - hkept hsecond
    have hcombine := computes_combine (store.words cells) op
      (hfirst.mono hkept (Nat.le_add_right _ _)) hsecond
    rw [(left.value_code _).type_eq, (right.value_code _).type_eq] at hcombine
    exact hcombine

theorem Cond.computes_code (hcells : ∀ type ∈ cells, type ∈ IntType.declarable) {cond : Cond}
    (h : cond.Fits cells) (hstore : store.Within cells) (next : Nat) (registers : Registers) :
    cond.code.Computes (store.words cells) next registers (cond.eval store)
      fun holds _ last value => value.read? last 1 = some (.ofBool holds) := by
  refine (Expr.computes_code hcells h.1 hstore next registers).bind ?_
  rintro first middle - - hfirst
  refine (Expr.computes_code hcells h.2 hstore _ middle).bind ?_
  rintro second later - hkept hsecond
  have hcompare := computes_compareOperands (store.words cells) cond.op
    (hfirst.mono hkept (Nat.le_add_right _ _)) hsecond
  rw [(cond.left.value_code _).type_eq, (cond.right.value_code _).type_eq] at hcompare
  exact hcompare

theorem Expr.computes_codeAs (hcells : ∀ type ∈ cells, type ∈ IntType.declarable) {expr : Expr}
    (h : expr.Fits cells) (hstore : store.Within cells) {type : IntType}
    (htype : type ∈ IntType.declarable) (next : Nat) (registers : Registers) :
    (expr.codeAs type).Computes (store.words cells) next registers (expr.eval store)
      fun number after last value => value.Holds after last type number := by
  have hresult : expr.eval store = expr.eval store >>= some := (Option.bind_fun_some _).symm
  rw [hresult]
  refine (Expr.computes_code hcells h hstore next registers).bind ?_
  rintro number later - - hstands
  exact computes_intCast hstands htype

end Core

end BlockLang
