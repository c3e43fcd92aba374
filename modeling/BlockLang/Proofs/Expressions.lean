import BlockLang.Proofs.Code.Running
import BlockLang.Proofs.Code.Store
import BlockLang.Proofs.Core.Scene
import BlockLang.Proofs.Operands
import BlockLang.Proofs.Session.Reached
import BlockLang.Proofs.Tree.Derivation

/-! Expressions and the code they become. Wherever in a compilation an expression is carried out,
straight-line code is put at the end of the current block and nothing else is done. Run on whatever
the variables hold, that code leaves the value of the expression. -/

namespace BlockLang

open Code Names BlockLang.Tree Compiler

namespace Code

namespace Builder

/-- The next free register of the function under the cursor. -/
def nextRegister (builder : Builder) : Nat :=
  match builder.cursor with
  | some place => (builder.code.functions[place.function]?.map Function.nextRegister).getD 0
  | none => 0

/-- The builder once straight-line code has been put at the end of the block under the cursor. Each
instruction takes up a register. -/
def written (builder : Builder) (instrs : List Instr) : Builder :=
  match builder.cursor with
  | some place =>
    { builder with
      code := builder.code.modifyFunction place.function fun function =>
        { function with
          blocks := function.blocks.modify place.block (·.pushAll instrs)
          nextRegister := function.nextRegister + instrs.length } }
  | none => builder

@[simp] theorem written_nil (builder : Builder) : builder.written [] = builder := by
  have hpush : (fun block : Block => block.pushAll []) = id := rfl
  have hfunction (place : BlockRef) : (fun function : Function =>
      { function with
        blocks := function.blocks.modify place.block (·.pushAll [])
        nextRegister := function.nextRegister + ([] : List Instr).length }) = id := by
    funext function
    simp [hpush]
  unfold written
  split
  · simp only [hfunction, Module.modifyFunction, List.modify_id]
  · rfl

@[simp] theorem globals_written (builder : Builder) (instrs : List Instr) :
    (builder.written instrs).code.globals = builder.code.globals := by
  unfold written
  split <;> rfl

theorem written_written (builder : Builder) (first second : List Instr) :
    (builder.written first).written second = builder.written (first ++ second) := by
  cases hcursor : builder.cursor with
  | none => simp only [written, hcursor]
  | some place =>
    simp only [written, hcursor, Module.modifyFunction, List.modify_modify_eq]
    congr 3
    funext function
    simp only [Function.comp_apply, List.modify_modify_eq, List.length_append, Nat.add_assoc]
    congr 2
    funext block
    simp [Block.pushAll]

variable {builder : Builder} {id : FunctionId} {draft : Draft}

theorem At.nextRegister_eq (h : builder.At id draft) :
    builder.nextRegister = draft.nextRegister := by
  obtain ⟨function, hfunction, hdraft⟩ := h.drafted
  simp only [nextRegister, h.cursor, hfunction, Option.map_some, Option.getD_some]
  exact congrArg Draft.nextRegister hdraft

theorem At.written_eq (h : builder.At id draft) (instrs : List Instr) :
    builder.written instrs = builder.redraft id (draft.extend instrs) := by
  simp only [written, h.cursor]
  rw [← h.cursor]
  apply h.change_eq
  · rfl
  · intro function hdraft
    rw [← hdraft]
    rfl

end Builder

namespace Build

variable {α : Type} {builder next : Builder}

theorem of_change_eq_ok {action : Module → Except Fault (α × Module)} {value : α}
    (h : change action builder = .ok value next) :
    ∃ code, action builder.code = .ok (value, code) ∧ next = { builder with code } := by
  cases haction : action builder.code with
  | error fault =>
    rw [change_eq_error haction] at h
    cases h
  | ok result =>
    obtain ⟨found, code⟩ := result
    rw [change_eq_ok found code haction] at h
    cases h
    exact ⟨code, rfl, rfl⟩

theorem of_view_eq_ok {look : Module → Except Fault α} {value : α}
    (h : view look builder = .ok value next) : look builder.code = .ok value ∧ next = builder := by
  obtain ⟨code, hlook, rfl⟩ := of_change_eq_ok h
  obtain ⟨found, hfound, hcode⟩ := Except.exists_of_bind_eq_ok hlook
  cases hcode
  exact ⟨hfound, rfl⟩

theorem of_here_eq_ok {place : BlockRef} (h : here builder = .ok place next) :
    builder.cursor = some place ∧ next = builder := by
  obtain ⟨code, cursor⟩ := builder
  cases cursor with
  | none => cases h
  | some found =>
    cases h
    exact ⟨rfl, rfl⟩

/-- A register can only be defined where the cursor stands in a block. -/
theorem at_of_define {type : Ty} {instr : Value → Instr} {value : Value}
    (h : (freshRegister type >>= fun dest => emit (instr dest) >>= fun _ => pure dest) builder =
      .ok value next) : ∃ id draft, builder.At id draft := by
  obtain ⟨dest, middle, hfresh, hrest⟩ := exists_of_bind_eq_ok h
  obtain ⟨_, _, hemit, -⟩ := exists_of_bind_eq_ok hrest
  obtain ⟨place, _, hhere, hchange⟩ := exists_of_bind_eq_ok hfresh
  obtain ⟨hcursor, rfl⟩ := of_here_eq_ok hhere
  obtain ⟨_, haction, rfl⟩ := of_change_eq_ok hchange
  obtain ⟨function, hfunction, hcode⟩ := Except.exists_of_bind_eq_ok haction
  cases hcode
  obtain ⟨other, _, hhere', hchange'⟩ := exists_of_bind_eq_ok hemit
  obtain ⟨hcursor', rfl⟩ := of_here_eq_ok hhere'
  obtain rfl : other = place := Option.some.inj (hcursor'.symm.trans hcursor)
  obtain ⟨_, haction', -⟩ := of_change_eq_ok hchange'
  obtain ⟨_, hpush, -⟩ := Except.exists_of_bind_eq_ok haction'
  obtain ⟨_, hdiscard, -⟩ := Except.exists_of_bind_eq_ok hpush
  obtain ⟨block, hblock, -⟩ := Except.exists_of_bind_eq_ok hdiscard
  obtain ⟨counted, hcounted, hinside⟩ := Module.block_eq_ok.1 hblock
  -- The new register is counted by the function, but the blocks are those from before.
  have hsame := Module.function_eq_ok.1 hfunction
  have hblocks : counted.blocks = function.blocks := by
    simp only [Module.modifyFunction, List.getElem?_modify, hsame] at hcounted
    cases hcounted
    simp
  rw [hblocks] at hinside
  exact ⟨other.function, function.draft other.block, hcursor, ⟨function, hsame, rfl⟩,
    (List.getElem?_eq_some_iff.1 hinside).1⟩

end Build

end Code

/-- Straight-line code has been put at the cursor of the session, which leaves `value`. Only the
location may be another one as well. -/
structure Session.Wrote {α : Type} (session : Session) (code : Straight α) (value : α)
    (next : Session) : Prop where
  value_eq : value = code.value session.builder.nextRegister
  session_eq : ∃ location, next = { session with
    location, builder := session.builder.written (code.instrs session.builder.nextRegister) }
  register_eq : next.builder.nextRegister = code.after session.builder.nextRegister

namespace Session.Wrote

variable {α β : Type} {session middle next : Session} {code : Straight α} {value : α}

theorem bind {rest : α → Straight β} {last : β} (h : session.Wrote code value middle)
    (hrest : middle.Wrote (rest value) last next) : session.Wrote (code >>= rest) last next := by
  obtain ⟨rfl, ⟨location, hmiddle⟩, hregister⟩ := h
  obtain ⟨rfl, ⟨location', hnext⟩, hlast⟩ := hrest
  rw [hregister] at hnext hlast ⊢
  refine ⟨rfl, ⟨location', ?_⟩, ?_⟩
  · rw [hnext, hmiddle, Straight.instrs_bind, ← Builder.written_written]
  · rw [hlast, Straight.after_bind]

theorem of_locatedAt {place : Place} (h : (session.locatedAt place).Wrote code value next) :
    session.Wrote code value next :=
  ⟨h.value_eq, h.session_eq, h.register_eq⟩

theorem typed {cells : List IntType} (h : session.Wrote code value next)
    (htyped : session.Typed cells) : next.Typed cells := by
  obtain ⟨location, rfl⟩ := h.session_eq
  refine ⟨htyped.declarable, ?_, htyped.meanings⟩
  rw [Builder.globals_written, htyped.globals]

end Session.Wrote

namespace Compiler

variable {α : Type} {session next : Session} {cells : List IntType}

theorem wrote_pure (session : Session) (value : α) : session.Wrote (pure value) value session :=
  ⟨rfl, ⟨session.location, by simp⟩, rfl⟩

theorem of_build_eq_ok {step : Build α} {value : α} (h : build step session = .ok value next) :
    ∃ builder, step session.builder = .ok value builder ∧ next = { session with builder } := by
  unfold build at h
  cases hstep : step session.builder with
  | error failure builder =>
    rw [hstep] at h
    cases h
  | ok found builder =>
    rw [hstep] at h
    cases h
    exact ⟨builder, rfl, rfl⟩

theorem wrote_define {type : Ty} {instr : Value → Instr} {value : Value}
    (h : build (Build.freshRegister type >>= fun dest =>
      Build.emit (instr dest) >>= fun _ => pure dest) session = .ok value next) :
    session.Wrote (.define type instr) value next := by
  obtain ⟨builder, hrun, rfl⟩ := of_build_eq_ok h
  obtain ⟨id, draft, hat⟩ := Build.at_of_define hrun
  rw [Build.define_eq hat] at hrun
  cases hrun
  have hregister := hat.nextRegister_eq
  have hinside : (draft.write (.define type instr)).cursor <
      (draft.write (.define type instr)).blocks.length := by simpa using hat.inside
  refine ⟨by rw [hregister], ⟨session.location, ?_⟩, ?_⟩
  · rw [hregister, hat.written_eq]
    rfl
  · rw [hregister]
    exact (hat.redraft hinside).nextRegister_eq

theorem wrote_load {source : GlobalId} {type : IntType} {value : Value}
    (htyped : session.Typed cells) (hsource : cells[source]? = some type)
    (h : build (Build.load source) session = .ok value next) :
    session.Wrote (.load source type.backend) value next := by
  unfold Build.load at h
  rw [build_bind] at h
  obtain ⟨global, middle, hview, hdefine⟩ := exists_of_bind_eq_ok h
  obtain ⟨builder, hlook, rfl⟩ := of_build_eq_ok hview
  obtain ⟨hglobal, rfl⟩ := Build.of_view_eq_ok hlook
  have htype : global.type = type.backend := by
    have hcell : (session.builder.code.globals.map Global.type)[source]? = some type.backend := by
      rw [htyped.globals, List.getElem?_map, hsource]
      rfl
    rw [List.getElem?_map, fetch_eq_ok.1 hglobal] at hcell
    exact Option.some.inj hcell
  rw [← htype]
  exact wrote_define hdefine

theorem wrote_intCast {operand : Operand} (hoperand : operand.Sound) {type : IntType}
    (htype : 0 < type.width) {signed : Bool} {value : Value}
    (h : build (Build.intCast operand.value type.backend signed) session = .ok value next) :
    session.Wrote (.intCast operand.value type.backend signed) value next := by
  obtain ⟨given, own⟩ := operand
  unfold Build.intCast at h
  unfold Straight.intCast
  by_cases hbits : given.type.bits = type.backend.bits
  · rw [if_pos hbits] at h ⊢
    cases h
    exact wrote_pure _ _
  · rw [if_neg hbits] at h ⊢
    cases given with
    | const source constant =>
      have hfold := Straight.foldCast_eq (hoperand.2 source constant rfl)
        (show 0 < type.backend.bits from htype) signed constant
      dsimp only at h
      rw [hfold] at h
      cases h
      exact wrote_pure _ _
    | register source id => exact wrote_define h

theorem wrote_unify {left right : Operand} (hleft : left.Sound) (hright : right.Sound)
    {unified : Value × Value × IntType} (h : unify left right session = .ok unified next) :
    session.Wrote (.unify left right) unified next := by
  have hwidth := IntType.join_pos hleft.1 hright.1
  obtain ⟨first, _, hfirst, hrest⟩ := exists_of_bind_eq_ok h
  obtain ⟨second, _, hsecond, hpure⟩ := exists_of_bind_eq_ok hrest
  cases hpure
  refine (wrote_intCast hleft hwidth hfirst).bind ?_
  exact (wrote_intCast hright hwidth hsecond).bind (wrote_pure _ _)

theorem wrote_combine {op : Operator} {left right operand : Operand} (hleft : left.Sound)
    (hright : right.Sound) (h : combine op left right session = .ok operand next) :
    session.Wrote (.combine op left right) operand next := by
  obtain ⟨unified, _, hunify, hrest⟩ := exists_of_bind_eq_ok h
  obtain ⟨value, _, hbinary, hpure⟩ := exists_of_bind_eq_ok hrest
  cases hpure
  refine (wrote_unify hleft hright hunify).bind ?_
  exact (wrote_define hbinary).bind (wrote_pure _ _)

theorem wrote_negate {operand negated : Operand} (h : negate operand session = .ok negated next) :
    session.Wrote (.negate operand) negated next := by
  obtain ⟨value, type⟩ := operand
  cases value with
  | const source constant =>
    cases h
    exact wrote_pure _ _
  | register source id =>
    obtain ⟨value, _, hbinary, hpure⟩ := exists_of_bind_eq_ok h
    cases hpure
    exact (wrote_define hbinary).bind (wrote_pure _ _)

end Compiler

/-- The expression with every name replaced by what it is as a value. -/
def Tree.Expr.resolveBy (values : String → Option Core.Expr) : Expr → Option Core.Expr
  | number value => some (.number value)
  | name ident => values ident.name
  | negate operand => do
    let value ← operand.resolveBy values
    return .negate value
  | binary op left right => do
    let first ← left.resolveBy values
    let second ← right.resolveBy values
    return .binary op first second
  | missing _ => none
  | unclosed _ _ => none

namespace Session

variable {session : Session}

/-- What a name is as a value here: a variable, or a constant whose text is a numeral. -/
def value? (session : Session) (name : String) : Option Core.Expr := do
  let id ← session.forest.find? session.scope name
  match session.forest.meaning? id with
  | some (.literal text) => (Numeral.read? text).map .number
  | some (.cell global type) => some (.cell global type)
  | _ => none

theorem Typed.fits_value? {cells : List IntType} (h : session.Typed cells) {name : String}
    {found : Core.Expr} (hvalue : session.value? name = some found) : found.Fits cells := by
  obtain ⟨id, -, hmeaning⟩ := Option.bind_eq_some_iff.1 hvalue
  split at hmeaning
  · obtain ⟨value, -, rfl⟩ := Option.map_eq_some_iff.1 hmeaning
    trivial
  · next global type hcell =>
    cases hmeaning
    exact h.meanings id global type hcell
  · cases hmeaning

end Session

namespace Compiler

variable {session next : Session} {cells : List IntType}

theorem of_find_eq_ok {name : String} {id : SymbolId} (h : find name session = .ok id next) :
    session.forest.find? session.scope name = some id ∧ next = session := by
  cases hfind : session.forest.find? session.scope name with
  | none =>
    rw [find_eq_error hfind] at h
    cases h
  | some found =>
    rw [find_eq_ok hfind] at h
    cases h
    exact ⟨rfl, rfl⟩

theorem of_symbol_eq_ok {id : SymbolId} {found : Symbol} (h : symbol id session = .ok found next) :
    session.forest.symbols[id]? = some found ∧ next = session := by
  unfold symbol at h
  rw [get_bind] at h
  obtain ⟨hsymbol, rfl⟩ := of_orFault_eq_ok h
  exact ⟨fetch_eq_ok.1 hsymbol, rfl⟩

theorem of_resolve_eq_ok {name : Ident} {found : Symbol}
    (h : resolve name session = .ok found next) :
    ∃ id, session.forest.find? session.scope name.name = some id ∧
      session.forest.symbols[id]? = some found ∧ next = session.locatedAt name.place := by
  unfold resolve at h
  rw [bind_eq_ok (locate_eq name.place)] at h
  obtain ⟨id, middle, hfind, hsymbol⟩ := exists_of_bind_eq_ok h
  obtain ⟨hid, rfl⟩ := of_find_eq_ok hfind
  obtain ⟨hfound, rfl⟩ := of_symbol_eq_ok hsymbol
  exact ⟨id, hid, hfound, rfl⟩

/-- A name that is used as a value is a constant, which is put in its place, or a variable, which
is loaded. -/
theorem loadName_cases {name : Ident} {operand : Operand}
    (h : loadName name session = .ok operand next) :
    (∃ value, session.value? name.name = some (.number value) ∧ operand = .constant value ∧
      next = session.locatedAt name.place) ∨
    ∃ global type value, session.value? name.name = some (.cell global type) ∧
      operand = ⟨value, type⟩ ∧
      build (Build.load global) (session.locatedAt name.place) = .ok value next := by
  obtain ⟨found, _, hresolve, hload⟩ := exists_of_bind_eq_ok h
  obtain ⟨id, hid, hfound, rfl⟩ := of_resolve_eq_ok hresolve
  have hvalue : session.value? name.name = match found.meaning? with
      | some (.literal text) => (Numeral.read? text).map .number
      | some (.cell global type) => some (.cell global type)
      | _ => none := by
    have hmeaning : session.forest.meaning? id = found.meaning? := by
      rw [Forest.meaning?, hfound, Option.bind_some]
    rw [Session.value?, hid, ← hmeaning]
    rfl
  rw [hvalue]
  cases hkind : found.meaning? with
  | none =>
    rw [hkind] at hload
    cases hload
  | some meaning =>
    rw [hkind] at hload
    cases meaning with
    | literal text =>
      dsimp only at hload
      cases hread : Numeral.read? text with
      | none =>
        rw [hread] at hload
        cases hload
      | some value =>
        rw [hread] at hload
        cases hload
        exact .inl ⟨value, by simp [hread], rfl, rfl⟩
    | procedure function block => cases hload
    | cell global type =>
      obtain ⟨value, _, hbuild, hpure⟩ := exists_of_bind_eq_ok hload
      cases hpure
      exact .inr ⟨global, type, value, rfl, rfl, hbuild⟩

/-- A name that can be used as a value is loaded. -/
theorem of_loadName_eq_ok {name : Ident} {operand : Operand} (htyped : session.Typed cells)
    (h : loadName name session = .ok operand next) :
    ∃ found, session.value? name.name = some found ∧ found.Fits cells ∧
      session.Wrote found.code operand next := by
  rcases loadName_cases h with ⟨value, hvalue, rfl, rfl⟩ | ⟨global, type, value, hvalue, rfl, hload⟩
  · exact ⟨.number value, hvalue, trivial, (wrote_pure _ _).of_locatedAt⟩
  · have hfits := htyped.fits_value? hvalue
    have hlocated : (session.locatedAt name.place).Typed cells :=
      ⟨htyped.declarable, htyped.globals, htyped.meanings⟩
    have hwrote : (session.locatedAt name.place).Wrote (Core.Expr.cell global type).code
        ⟨value, type⟩ next := (wrote_load hlocated hfits hload).bind (wrote_pure _ _)
    exact ⟨.cell global type, hvalue, hfits, hwrote.of_locatedAt⟩

end Compiler

/-- Where an expression can be carried out, its names have values, and the code of what it stands
for is written. -/
theorem Tree.Expr.of_emit_eq_ok {session next : Session} {cells : List IntType} {expr : Expr}
    {operand : Operand} (htyped : session.Typed cells) (h : expr.emit session = .ok operand next) :
    ∃ found, expr.resolveBy session.value? = some found ∧ found.Fits cells ∧
      session.Wrote found.code operand next := by
  induction expr generalizing session next operand with
  | number value =>
    cases h
    exact ⟨.number value, rfl, trivial, wrote_pure _ _⟩
  | name ident => exact of_loadName_eq_ok htyped h
  | negate inner ih =>
    obtain ⟨value, middle, hinner, hnegate⟩ := exists_of_bind_eq_ok h
    obtain ⟨found, hfound, hfits, hwrote⟩ := ih htyped hinner
    refine ⟨.negate found, ?_, hfits, hwrote.bind (wrote_negate hnegate)⟩
    rw [resolveBy, hfound]
    rfl
  | binary op left right ihleft ihright =>
    obtain ⟨first, middle, hleft, hrest⟩ := exists_of_bind_eq_ok h
    obtain ⟨second, last, hright, hcombine⟩ := exists_of_bind_eq_ok hrest
    obtain ⟨found, hfound, hfits, hwrote⟩ := ihleft htyped hleft
    obtain ⟨other, hother, hfits', hwrote'⟩ := ihright (hwrote.typed htyped) hright
    -- Nothing is declared while the left operand is written, so names keep their values.
    have hvalues : middle.value? = session.value? := by
      obtain ⟨location, rfl⟩ := hwrote.session_eq
      rfl
    have hsound : first.Sound := by
      rw [hwrote.value_eq]
      exact (Core.Expr.formed_code htyped.declarable hfits _).sound
    have hsound' : second.Sound := by
      rw [hwrote'.value_eq]
      exact (Core.Expr.formed_code htyped.declarable hfits' _).sound
    refine ⟨.binary op found other, ?_, ⟨hfits, hfits'⟩,
      hwrote.bind (hwrote'.bind (wrote_combine hsound hsound' hcombine))⟩
    rw [hvalues] at hother
    rw [resolveBy, hfound, hother]
    rfl
  | missing mistake => exact (raise_ne_ok h).elim
  | unclosed inner mistake ih =>
    obtain ⟨_, _, -, hraise⟩ := exists_of_bind_eq_ok h
    exact (raise_ne_ok hraise).elim

namespace Core

/-- The numbers that words stand for, by the types of their cells. -/
def Store.ofWords (cells : List IntType) (memory : List Word) : Store := fun id =>
  match cells[id]?, memory[id]? with
  | some type, some word => type.number (word.bits.setWidth type.width)
  | _, _ => 0

section

variable {cells : List IntType} {memory : List Word}

/-- Every cell has a word of its width, which stands for a number of its type. -/
theorem Store.ofWords_eq (h : memory.map Word.width = cells.map IntType.width) {id : Nat}
    {type : IntType} (hcell : cells[id]? = some type) : ∃ bits : BitVec type.width,
      memory[id]? = some ⟨type.width, bits⟩ ∧ ofWords cells memory id = type.number bits := by
  have hwidth : (memory.map Word.width)[id]? = some type.width := by
    rw [h, List.getElem?_map, hcell]
    rfl
  rw [List.getElem?_map] at hwidth
  obtain ⟨⟨width, bits⟩, hword, rfl⟩ := Option.map_eq_some_iff.1 hwidth
  refine ⟨bits, hword, ?_⟩
  unfold ofWords
  rw [hcell, hword]
  simp

theorem Store.within_ofWords (h : memory.map Word.width = cells.map IntType.width) :
    (ofWords cells memory).Within cells := by
  intro id type hcell
  obtain ⟨bits, -, hnumber⟩ := ofWords_eq h hcell
  rw [hnumber]
  exact type.contains_number bits

theorem Store.words_ofWords (h : memory.map Word.width = cells.map IntType.width) :
    (ofWords cells memory).words cells = memory := by
  apply List.ext_getElem?
  intro id
  cases hcell : cells[id]? with
  | none =>
    have hlength : memory.length = cells.length := by simpa using congrArg List.length h
    have hid := List.getElem?_eq_none_iff.1 hcell
    rw [List.getElem?_eq_none_iff.2 (by simpa [words] using hid),
      List.getElem?_eq_none_iff.2 (by rwa [hlength])]
  | some type =>
    obtain ⟨bits, hword, hnumber⟩ := ofWords_eq h hcell
    rw [Store.words_getElem? _ hcell, hword, hnumber, IntType.ofInt_number]

end

end Core

/-- Loads, casts and arithmetic. -/
def Code.Instr.evaluates : Instr → Bool
  | load _ _ | cast _ _ _ | binary _ _ _ _ => true
  | _ => false

namespace Code.Straight

theorem evaluates_intCast (value : Value) (type : Ty) (signed : Bool) (next : Nat) :
    ∀ instr ∈ (intCast value type signed).instrs next, instr.evaluates = true := by
  unfold intCast
  split
  · simp
  · cases value with
    | const source constant => simp
    | register source id => simp [Instr.evaluates]

theorem evaluates_combine (op : Operator) (left right : Operand) (next : Nat) :
    ∀ instr ∈ (combine op left right).instrs next, instr.evaluates = true := by
  intro instr hmem
  simp only [combine, unify, binary, instrs_bind, instrs_pure, instrs_define, List.append_nil,
    List.mem_append, List.mem_singleton] at hmem
  rcases hmem with (hfirst | hsecond) | rfl
  · exact evaluates_intCast _ _ _ _ instr hfirst
  · exact evaluates_intCast _ _ _ _ instr hsecond
  · rfl

theorem evaluates_negate (operand : Operand) (next : Nat) :
    ∀ instr ∈ (negate operand).instrs next, instr.evaluates = true := by
  obtain ⟨value, type⟩ := operand
  cases value with
  | const source constant => simp [negate]
  | register source id => simp [negate, binary, Instr.evaluates]

end Code.Straight

/-- The code of an expression loads, casts and calculates. -/
theorem Core.Expr.evaluates_code (expr : Core.Expr) (next : Nat) :
    ∀ instr ∈ expr.code.instrs next, instr.evaluates = true := by
  induction expr generalizing next with
  | number value => simp [code]
  | cell id type => simp [code, Straight.load, Instr.evaluates]
  | negate operand ih => exact List.forall_mem_append.2 ⟨ih next, Straight.evaluates_negate _ _⟩
  | binary op left right ihleft ihright =>
    refine List.forall_mem_append.2 ⟨ihleft next, ?_⟩
    exact List.forall_mem_append.2 ⟨ihright _, Straight.evaluates_combine op _ _ _⟩

/-- Wherever in a compilation an expression is read and carried out, its code is put at the end of
the current block and nothing else happens but a change of location. The tree is the one that the
grammar gives the tokens, the operand has the type of what the tree stands for, and the code leaves
its value, whatever words the variables hold. Where there is no value the code gets stuck. -/
theorem readExpr_translates {file : String} {session next : Session}
    (hreached : session.Reached file) {ahead : Ahead} {operand : Operand}
    (h : (readExpr ahead).1.emit session = .ok operand next) :
    ∃ cells found, session.Typed cells ∧
      (readExpr ahead).1.Derives .sum ahead.tokens (readExpr ahead).2.val.tokens ∧
      (readExpr ahead).1.resolveBy session.value? = some found ∧ found.Fits cells ∧
      operand.type = found.type ∧ operand.value.type = operand.type.backend ∧
      let instrs := found.code.instrs session.builder.nextRegister
      next = { session with
        location := next.location, builder := session.builder.written instrs } ∧
      (∀ instr ∈ instrs, instr.evaluates = true) ∧
      ∀ memory, memory.map Word.width = session.builder.code.globals.map (·.type.bits) →
        ∀ code function registers rest outer,
          let machine : Machine := ⟨memory, ⟨function, instrs ++ rest, registers⟩ :: outer⟩
          match found.eval (.ofWords cells memory) with
          | some number => ∃ last,
            Module.run code instrs.length machine =
              some ⟨memory, ⟨function, rest, last⟩ :: outer⟩ ∧
            operand.value.read? last operand.type.width = some (.ofInt operand.type.width number)
          | none => code.Stuck machine := by
  obtain ⟨cells, htyped⟩ := hreached.typed
  obtain ⟨found, hfound, hfits, hwrote⟩ := Expr.of_emit_eq_ok htyped h
  have hderives := derives_readExpr rfl (Expr.whole_of_emit h)
  obtain ⟨rfl, ⟨location, rfl⟩, -⟩ := hwrote
  refine ⟨cells, found, htyped, hderives, hfound, hfits, (found.value_code _).1,
    (Core.Expr.formed_code htyped.declarable hfits _).typed, rfl, found.evaluates_code _, ?_⟩
  intro memory hmemory code function registers rest outer
  have hwidths : memory.map Word.width = cells.map IntType.width := by
    have hbits := congrArg (List.map Ty.bits) htyped.globals
    rw [List.map_map, List.map_map] at hbits
    rw [hmemory]
    exact hbits
  have hcomputes := Core.Expr.computes_code htyped.declarable hfits
    (Core.Store.within_ofWords hwidths) session.builder.nextRegister registers
  rw [Core.Store.words_ofWords hwidths] at hcomputes
  -- Every instruction defines a register, so it is one step and nothing but registers changes.
  have hleaves : found.code.Leaves cells [] _ := Core.Expr.leaves_code htyped.declarable hfits
  obtain ⟨hneat, -⟩ := hleaves session.builder.nextRegister
  dsimp only
  cases heval : found.eval (.ofWords cells memory) with
  | some number =>
    rw [heval] at hcomputes
    obtain ⟨last, hlast, -, hstands⟩ := hcomputes
    exact ⟨last, Module.run_computeAll hneat hlast rest, hstands.holds.read⟩
  | none =>
    rw [heval] at hcomputes
    exact hcomputes.stuck hneat rest

/-- A session in a procedure whose first assignment breaks off before its expression. -/
def beforeExpr : Session :=
  (Session.start "unit").fed
    [.source "PROCEDURE P; VAR X: UINT8; VAR Y: INT16; BEGIN X :="]

/-- The tokens of `X - Y * 2 - 1`. -/
def mixedExpr : Ahead where
  tokens := [.identifier "X", .sign .minus, .identifier "Y", .sign .star, .number "2", .sign .minus,
    .number "1"].map fun token => ⟨token, default⟩
  stop := default

/-- With 250 and minus seven in the variables, the code leaves 263 in 32 bits. -/
theorem readExpr_translates_mixedExpr :
    ∃ operand next instrs last, (readExpr mixedExpr).1.emit beforeExpr = .ok operand next ∧
      next.builder = beforeExpr.builder.written instrs ∧
      Module.run next.builder.code instrs.length
        ⟨[⟨8, 250⟩, ⟨16, -7⟩], [⟨0, instrs ++ [.ret], fun _ => none⟩]⟩ =
          some ⟨[⟨8, 250⟩, ⟨16, -7⟩], [⟨0, [.ret], last⟩]⟩ ∧
      operand.value.read? last 32 = some 263 := by
  cases hrun : (readExpr mixedExpr).1.emit beforeExpr with
  | error failure next =>
    have hgood : (match (readExpr mixedExpr).1.emit beforeExpr with
      | .ok _ _ => true
      | .error _ _ => false) = true := by decide +kernel
    rw [hrun] at hgood
    cases hgood
  | ok operand next =>
    obtain ⟨cells, found, -, -, hfound, hfits, htype, -, hnext, -, hcomputes⟩ :=
      readExpr_translates (Session.reached_fed _ _) hrun
    have hresolve : (readExpr mixedExpr).1.resolveBy beforeExpr.value? =
        some (.binary .sub (.binary .sub (.cell 0 ⟨8, false⟩)
          (.binary .mul (.cell 1 ⟨16, true⟩) (.number 2))) (.number 1)) := by
      decide +kernel
    obtain rfl := Option.some.inj (hfound.symm.trans hresolve)
    obtain ⟨⟨hfirst, hsecond, -⟩, -⟩ := hfits
    have hmemory : [(⟨8, 250⟩ : Word), ⟨16, -7⟩].map Word.width =
      beforeExpr.builder.code.globals.map (·.type.bits) := by decide +kernel
    have hstore : Core.Store.ofWords cells [⟨8, 250⟩, ⟨16, -7⟩] 0 = 250 ∧
        Core.Store.ofWords cells [⟨8, 250⟩, ⟨16, -7⟩] 1 = -7 := by
      unfold Core.Store.ofWords
      rw [hfirst, hsecond]
      decide
    have hleaves := hcomputes _ hmemory next.builder.code 0 (fun _ => none) [.ret] []
    simp only [Core.Expr.eval, hstore] at hleaves
    obtain ⟨last, hlast, hread⟩ := hleaves
    rw [htype] at hread
    exact ⟨operand, next, _, last, rfl, congrArg Session.builder hnext, hlast, hread⟩

end BlockLang
