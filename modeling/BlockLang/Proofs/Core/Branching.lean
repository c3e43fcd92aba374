import BlockLang.Proofs.Code.Control
import BlockLang.Proofs.Code.Fresh
import BlockLang.Proofs.Core.Placement

/-! Where the branches of a procedure lead. Blocks are made before the statements that jump to
them; once a statement is written, all its blocks are led to but those behind a return. -/

namespace BlockLang

namespace Code

/-- An instruction of the block `source` leads to the block `target`. -/
def Leads (blocks : List Block) (source target : BlockId) : Prop :=
  ∃ block, blocks[source]? = some block ∧ ∃ instr ∈ block.instrs, target ∈ instr.targets

/-- So are the blocks labelled that take what stands behind a return. -/
def behindReturn (label : String) : Bool :=
  "after.return".toList.isPrefixOf label.toList

namespace Draft

variable {draft final : Draft} {source target : BlockId}

/-- Some branch leads to the block. -/
def Led (draft : Draft) (target : BlockId) : Prop := ∃ source, Leads draft.blocks source target

/-- For each block whether it stands behind a return. -/
def behind (draft : Draft) : List Bool := (draft.blocks.map Block.label).map behindReturn

theorem Into.leads (h : draft.Into final) (hleads : Leads draft.blocks source target) :
    Leads final.blocks source target := by
  obtain ⟨block, hblock, instr, hinstr, htarget⟩ := hleads
  obtain ⟨last, hlast, hprefix⟩ := h source block hblock
  exact ⟨last, hlast, instr, hprefix.subset hinstr, htarget⟩

private theorem leads_modify (hinside : draft.cursor < draft.blocks.length) (instrs : List Instr) :
    Leads (draft.blocks.modify draft.cursor (·.pushAll instrs)) source target ↔
      Leads draft.blocks source target ∨
        source = draft.cursor ∧ ∃ instr ∈ instrs, target ∈ instr.targets := by
  unfold Leads
  rw [List.getElem?_modify]
  by_cases hsource : draft.cursor = source
  · subst hsource
    simp [List.getElem?_eq_getElem hinside, or_and_right, exists_or]
  · simp [hsource, Ne.symm hsource]

theorem leads_push (hinside : draft.cursor < draft.blocks.length) (instr : Instr) :
    Leads (draft.push instr).blocks source target ↔
      Leads draft.blocks source target ∨ source = draft.cursor ∧ target ∈ instr.targets :=
  (leads_modify hinside [instr]).trans (by simp)

theorem leads_extend (hinside : draft.cursor < draft.blocks.length) {instrs : List Instr}
    (h : ∀ instr ∈ instrs, instr.targets = []) :
    Leads (draft.extend instrs).blocks source target ↔ Leads draft.blocks source target := by
  refine (leads_modify hinside instrs).trans (or_iff_left ?_)
  rintro ⟨-, instr, hinstr, htarget⟩
  rw [h instr hinstr] at htarget
  cases htarget

theorem led_push (hinside : draft.cursor < draft.blocks.length) (instr : Instr) :
    (draft.push instr).Led target ↔ draft.Led target ∨ target ∈ instr.targets := by
  simp only [Led, leads_push hinside, exists_or, exists_eq_left]

theorem led_moveTo (draft : Draft) (block : BlockId) :
    (draft.moveTo block).Led target ↔ draft.Led target := Iff.rfl

theorem led_openAll (draft : Draft) (labels : List String) :
    (draft.openAll labels).Led target ↔ draft.Led target := by
  obtain ⟨blocks, taken, hopened, -, hempty⟩ := draft.openAll_eq labels
  rw [hopened]
  constructor
  · rintro ⟨source, block, hblock, instr, hinstr, htarget⟩
    rcases List.mem_append.1 (List.mem_of_getElem? hblock) with hold | hnew
    · obtain ⟨source, hsource⟩ := List.mem_iff_getElem?.1 hold
      exact ⟨source, block, hsource, instr, hinstr, htarget⟩
    · rw [hempty block hnew] at hinstr
      cases hinstr
  · rintro ⟨source, block, hblock, hinstr⟩
    exact ⟨source, block, List.getElem?_append_left (List.getElem?_eq_some_iff.1 hblock).1 ▸ hblock,
      hinstr⟩

@[simp] theorem behind_push (draft : Draft) (instr : Instr) :
    (draft.push instr).behind = draft.behind :=
  congrArg (List.map behindReturn) (map_modify_of_eq (Block.label_push · instr) _ _)

@[simp] theorem behind_moveTo (draft : Draft) (block : BlockId) :
    (draft.moveTo block).behind = draft.behind :=
  rfl

/-- Whether a label is that of a block behind a return is told by what was asked for. -/
theorem behind_openAll (draft : Draft) {labels : List String}
    (h : ∀ label ∈ labels, ∀ number, behindReturn (numbered label number) = behindReturn label) :
    (draft.openAll labels).behind = draft.behind ++ labels.map behindReturn := by
  induction labels generalizing draft with
  | nil => simp [openAll]
  | cons label rest ih =>
    obtain ⟨hlabel, hrest⟩ := List.forall_mem_cons.1 h
    obtain ⟨number, hnumber, -⟩ := fresh_eq draft.taken label
    have hopened : (draft.openBlock label).behind = draft.behind ++ [behindReturn label] := by
      simp [behind, openBlock, hnumber, hlabel]
    have htail := ih (draft.openBlock label) hrest
    rw [hopened] at htail
    rw [openAll, List.foldl_cons]
    simpa [openAll] using htail

end Draft

/-- The code leads nowhere. -/
def Straight.Quiet {α : Type} (code : Straight α) : Prop :=
  ∀ next, ∀ instr ∈ code.instrs next, instr.targets = []

namespace Straight

variable {α β : Type}

theorem quiet_pure (value : α) : (pure value : Straight α).Quiet :=
  fun _ => List.forall_mem_nil _

theorem Quiet.bind {code : Straight α} {rest : α → Straight β} (h : code.Quiet)
    (hrest : ∀ value, (rest value).Quiet) : (code >>= rest).Quiet :=
  fun next => List.forall_mem_append.2 ⟨h next, hrest _ _⟩

theorem quiet_define {type : Ty} {instr : Value → Instr} (h : ∀ dest, (instr dest).targets = []) :
    (define type instr).Quiet :=
  fun _ => List.forall_mem_singleton.2 (h _)

theorem quiet_load (source : GlobalId) (type : Ty) : (load source type).Quiet :=
  quiet_define fun _ => rfl

theorem quiet_binary (op : BinOp) (left right : Value) : (binary op left right).Quiet :=
  quiet_define fun _ => rfl

theorem quiet_compare (predicate : Predicate) (left right : Value) :
    (compare predicate left right).Quiet :=
  quiet_define fun _ => rfl

theorem quiet_intCast (value : Value) (type : Ty) (signed : Bool) :
    (intCast value type signed).Quiet := by
  unfold intCast
  split
  · exact quiet_pure _
  · cases value with
    | const source constant => exact quiet_pure _
    | register source id => exact quiet_define fun _ => rfl

theorem quiet_unify (left right : Operand) : (unify left right).Quiet :=
  (quiet_intCast _ _ _).bind fun _ => (quiet_intCast _ _ _).bind fun _ => quiet_pure _

theorem quiet_combine (op : Tree.Operator) (left right : Operand) :
    (combine op left right).Quiet :=
  (quiet_unify left right).bind fun _ => (quiet_binary _ _ _).bind fun _ => quiet_pure _

theorem quiet_negate (operand : Operand) : (negate operand).Quiet := by
  unfold negate
  split
  · exact quiet_pure _
  · exact (quiet_binary _ _ _).bind fun _ => quiet_pure _

theorem quiet_compareOperands (op : Tree.Comparison) (left right : Operand) :
    (compareOperands op left right).Quiet :=
  (quiet_unify left right).bind fun _ => quiet_compare _ _ _

end Straight

namespace Draft

variable {α : Type} {draft : Draft} {target : BlockId}

theorem led_say (hinside : draft.cursor < draft.blocks.length) {code : Straight α}
    (h : code.Quiet) (last : α → Instr) : (draft.say code last).Led target ↔
      draft.Led target ∨ target ∈ (last (code.value draft.nextRegister)).targets := by
  have hwritten : (draft.write code).cursor < (draft.write code).blocks.length := by
    simpa using hinside
  unfold say
  rw [led_push hwritten]
  apply or_congr_left
  exact exists_congr fun source => leads_extend hinside (h _)

@[simp] theorem behind_say (draft : Draft) (code : Straight α) (last : α → Instr) :
    (draft.say code last).behind = draft.behind :=
  (behind_push _ _).trans
    (congrArg (List.map behindReturn) (map_modify_of_eq (Block.label_pushAll · _) _ _))

/-- What is said last in a block can be followed from there. -/
theorem leads_say (hinside : draft.cursor < draft.blocks.length) (code : Straight α)
    (last : α → Instr) (h : target ∈ (last (code.value draft.nextRegister)).targets) :
    Leads (draft.say code last).blocks draft.cursor target := by
  have hwritten : (draft.write code).cursor < (draft.write code).blocks.length := by
    simpa using hinside
  exact (leads_push hwritten _).2 (.inr ⟨rfl, h⟩)

end Draft

theorem behindReturn_numbered {label : String} (h : behindReturn label = true ∨
    label.toList.head?.any (· != 'a') = true) (number : Nat) :
    behindReturn (numbered label number) = behindReturn label := by
  obtain ⟨rest, hrest⟩ : ∃ rest, (numbered label number).toList = label.toList ++ rest := by
    cases number with
    | zero => exact ⟨[], (List.append_nil _).symm⟩
    | succ number =>
      rw [numbered, String.toList_append, String.toList_append, List.append_assoc]
      exact ⟨_, rfl⟩
  unfold behindReturn at h ⊢
  rw [hrest]
  rcases h with hbehind | hother
  · rw [hbehind, List.isPrefixOf_iff_prefix]
    exact (List.isPrefixOf_iff_prefix.1 hbehind).trans (List.prefix_append _ _)
  · cases hlabel : label.toList with
    | nil =>
      rw [hlabel] at hother
      cases hother
    | cons char chars =>
      rw [hlabel] at hother
      have hne : char ≠ 'a' := bne_iff_ne.1 hother
      have hchar : ('a' == char) = false := beq_eq_false_iff_ne.2 hne.symm
      have hlist : "after.return".toList = 'a' :: "fter.return".toList := by decide
      rw [hlist]
      simp [List.isPrefixOf, hchar]

end Code

namespace Core

open Code

theorem Expr.quiet_code (expr : Expr) : expr.code.Quiet := by
  induction expr with
  | number value => exact Straight.quiet_pure _
  | cell id type => exact (Straight.quiet_load id _).bind fun _ => Straight.quiet_pure _
  | negate operand ih => exact ih.bind fun _ => Straight.quiet_negate _
  | binary op left right ihleft ihright =>
    exact ihleft.bind fun _ => ihright.bind fun _ => Straight.quiet_combine op _ _

theorem Expr.quiet_codeAs (expr : Expr) (type : IntType) : (expr.codeAs type).Quiet :=
  expr.quiet_code.bind fun _ => Straight.quiet_intCast _ _ _

theorem Cond.quiet_code (cond : Cond) : cond.code.Quiet :=
  cond.left.quiet_code.bind fun _ => cond.right.quiet_code.bind fun _ =>
    Straight.quiet_compareOperands _ _ _

namespace Stmt

def returns : Stmt → Nat
  | skip | assign .. | call _ => 0
  | seq first second => first.returns + second.returns
  | branch _ yes no => yes.returns + no.returns
  | loop _ body => body.returns
  | ret => 1

/-- The blocks that a statement makes: for each of them whether it stands behind a return. -/
def made : Stmt → List Bool
  | skip | assign .. | call _ => []
  | seq first second => first.made ++ second.made
  | branch _ yes no => [false, false, false] ++ yes.made ++ no.made
  | loop _ body => [false, false, false] ++ body.made
  | ret => [true]

theorem count_made (stmt : Stmt) : stmt.made.count true = stmt.returns := by
  induction stmt with
  | skip | assign | call | ret => rfl
  | seq first second ihfirst ihsecond => simp [made, returns, ihfirst, ihsecond]
  | branch condition yes no ihyes ihno => simp [made, returns, ihyes, ihno]
  | loop condition body ih => simp [made, returns, ih]

/-- The blocks of statements are labelled so that those behind a return stand out. -/
private theorem behind_opened (draft : Draft) {labels : List String} (h : ∀ label ∈ labels, label ∈
    ["then", "else", "endif", "while.cond", "while.body", "while.end", "after.return"]) :
    (draft.openAll labels).behind = draft.behind ++ labels.map behindReturn := by
  have hall : ∀ label ∈ ["then", "else", "endif", "while.cond", "while.body", "while.end",
      "after.return"], behindReturn label = true ∨ label.toList.head?.any (· != 'a') = true := by
    decide
  exact draft.behind_openAll fun label hlabel => behindReturn_numbered (hall label (h label hlabel))

theorem behind_build (stmt : Stmt) (draft : Draft) :
    (stmt.build draft).behind = draft.behind ++ stmt.made := by
  induction stmt generalizing draft with
  | skip => exact (List.append_nil _).symm
  | seq first second ihfirst ihsecond =>
    rw [build, ihsecond, ihfirst, made, List.append_assoc]
  | assign target type value => rw [build, Draft.behind_say, made, List.append_nil]
  | call callee => rw [build, Draft.behind_push, made, List.append_nil]
  | branch condition yes no ihyes ihno =>
    have hopened : (draft.openAll ["then", "else", "endif"]).behind =
        draft.behind ++ [false, false, false] := behind_opened draft (by decide)
    simp only [build, Draft.behind_moveTo, Draft.behind_push, Draft.behind_say, ihyes, ihno, hopened,
      made, List.append_assoc]
  | loop condition body ih =>
    have hopened : (draft.openAll ["while.cond", "while.body", "while.end"]).behind =
        draft.behind ++ [false, false, false] := behind_opened draft (by decide)
    simp only [build, Draft.behind_moveTo, Draft.behind_push, Draft.behind_say, ih, hopened, made,
      List.append_assoc]
  | ret =>
    have hopened : (draft.openAll ["after.return"]).behind = draft.behind ++ [true] :=
      behind_opened draft (by decide)
    simp only [build, Draft.behind_moveTo, Draft.behind_push, hopened, made]

theorem length_build (stmt : Stmt) (draft : Draft) :
    (stmt.build draft).blocks.length = draft.blocks.length + stmt.made.length := by
  have hlength := congrArg List.length (stmt.behind_build draft)
  simpa [Draft.behind] using hlength

/-- Of the blocks made from number `base` on, as `made` tells of them, the block is one that does
not stand behind a return. -/
def Joined (base : Nat) (made : List Bool) (id : Nat) : Prop :=
  base ≤ id ∧ made[id - base]? = some false

theorem joined_append (base : Nat) (first second : List Bool) (id : Nat) :
    Joined base (first ++ second) id ↔
      Joined base first id ∨ Joined (base + first.length) second id := by
  unfold Joined
  rw [List.getElem?_append]
  split
  · next hfirst =>
    have hlt : id < base + first.length ∨ id < base := by omega
    constructor
    · exact .inl
    · rintro (h | ⟨hlow, -⟩)
      · exact h
      · omega
  · next hfirst =>
    rw [List.getElem?_eq_none (Nat.le_of_not_lt hfirst), Nat.sub_sub]
    constructor
    · rintro ⟨hlow, hmade⟩
      exact .inr ⟨by omega, hmade⟩
    · rintro (⟨-, hnone⟩ | ⟨hlow, hmade⟩)
      · cases hnone
      · exact ⟨by omega, hmade⟩

theorem joined_three (base id : Nat) :
    Joined base [false, false, false] id ↔ id = base ∨ id = base + 1 ∨ id = base + 2 := by
  unfold Joined
  constructor
  · rintro ⟨hlow, hmade⟩
    have hhigh := (List.getElem?_eq_some_iff.1 hmade).1
    simp only [List.length_cons, List.length_nil] at hhigh
    omega
  · rintro (rfl | rfl | rfl) <;> simp

theorem not_joined_nil (base id : Nat) : ¬Joined base [] id := by
  rintro ⟨-, hmade⟩
  cases hmade

theorem not_joined_return (base id : Nat) : ¬Joined base [true] id := by
  rintro ⟨-, hmade⟩
  rcases hoffset : id - base with _ | _ <;> simp [hoffset] at hmade

end Stmt

namespace Cond

variable {condition : Cond} {draft final : Draft} {target : Nat}

theorem led_forked (hinside : draft.cursor < draft.blocks.length) :
    (condition.forked draft).Led target ↔ draft.Led target ∨
      target = draft.blocks.length ∨ target = draft.blocks.length + 1 := by
  have hopened := Draft.Grows.openAll hinside ["then", "else", "endif"]
  rw [forked, Draft.led_say hopened.inside condition.quiet_code, Draft.led_openAll]
  simp [Instr.targets]

theorem led_tested (hinside : draft.cursor < draft.blocks.length) :
    (condition.tested draft).Led target ↔ draft.Led target ∨ target = draft.blocks.length ∨
      target = draft.blocks.length + 1 ∨ target = draft.blocks.length + 2 := by
  have hopened := Draft.Grows.openAll hinside ["while.cond", "while.body", "while.end"]
  rw [tested, Draft.led_say (inside_looped draft) condition.quiet_code, looped, Draft.led_moveTo,
    Draft.led_push hopened.inside, Draft.led_openAll]
  simp [Instr.targets, or_assoc]

/-- Control comes to both blocks that a branch chooses from. -/
theorem reaches_forked (hinside : draft.cursor < draft.blocks.length)
    (hinto : (condition.forked draft).Into final)
    (htarget : target = draft.blocks.length ∨ target = draft.blocks.length + 1) :
    Relation.ReflTransGen (Leads final.blocks) draft.cursor target := by
  have hopened := Draft.Grows.openAll hinside ["then", "else", "endif"]
  have hfork := Draft.leads_say hopened.inside condition.code
    (.fork · draft.blocks.length (draft.blocks.length + 1))
    (show target ∈ [draft.blocks.length, draft.blocks.length + 1] by simpa using htarget)
  rw [Draft.cursor_openAll] at hfork
  exact .single (hinto.leads hfork)

/-- Control comes to the test of a loop, and from there to its body and behind it. -/
theorem reaches_tested (hinside : draft.cursor < draft.blocks.length)
    (hinto : (condition.tested draft).Into final)
    (htarget : target = draft.blocks.length ∨ target = draft.blocks.length + 1 ∨
      target = draft.blocks.length + 2) :
    Relation.ReflTransGen (Leads final.blocks) draft.cursor target := by
  have hopened := Draft.Grows.openAll hinside ["while.cond", "while.body", "while.end"]
  have hlooped : (looped draft).Into final :=
    (Draft.Grows.say (inside_looped draft) _ _).into.trans hinto
  have hjump : Leads final.blocks draft.cursor draft.blocks.length := by
    have hpushed := (Draft.leads_push hopened.inside (.jump draft.blocks.length)).2
      (.inr ⟨rfl, List.mem_singleton_self draft.blocks.length⟩)
    rw [Draft.cursor_openAll] at hpushed
    exact hlooped.leads hpushed
  rcases htarget with rfl | htarget
  · exact .single hjump
  · have hfork := Draft.leads_say (inside_looped draft) condition.code
      (.fork · (draft.blocks.length + 1) (draft.blocks.length + 2))
      (show target ∈ [draft.blocks.length + 1, draft.blocks.length + 2] by simpa using htarget)
    exact (Relation.ReflTransGen.single hjump).tail (hinto.leads hfork)

end Cond

namespace Stmt

variable {draft stage final : Draft} {id last : Nat}

theorem length_aside (part : Stmt) (stage : Draft) (id last : Nat) :
    (part.aside stage id last).blocks.length = stage.blocks.length + part.made.length := by
  rw [aside, Draft.length_push, length_build, Draft.blocks_moveTo]

theorem into_aside (part : Stmt) (hid : id < stage.blocks.length) (last : Nat) :
    stage.Into (part.aside stage id last) :=
  (part.placed (show (stage.moveTo id).cursor < _ from hid)).1.into.trans (Draft.into_push _ _)

/-- The statement leads to all the blocks it makes but those behind a return, and to no others. -/
def Leading (stmt : Stmt) (draft : Draft) : Prop :=
  ∀ target, (stmt.build draft).Led target ↔
    draft.Led target ∨ Joined draft.blocks.length stmt.made target

theorem Leading.aside {part : Stmt} (hid : id < stage.blocks.length)
    (hpart : part.Leading (stage.moveTo id)) (last target : Nat) :
    (part.aside stage id last).Led target ↔
      stage.Led target ∨ Joined stage.blocks.length part.made target ∨ target = last := by
  have hbuilt := (part.placed (show (stage.moveTo id).cursor < _ from hid)).1
  rw [Stmt.aside, Draft.led_push hbuilt.inside, hpart, Draft.blocks_moveTo, ← or_assoc]
  exact or_congr_right List.mem_singleton

theorem Leading.branch {condition : Cond} {yes no : Stmt}
    (hinside : draft.cursor < draft.blocks.length)
    (hyes : yes.Leading ((condition.forked draft).moveTo draft.blocks.length))
    (hno : no.Leading ((yes.aside (condition.forked draft) draft.blocks.length
      (draft.blocks.length + 2)).moveTo (draft.blocks.length + 1))) :
    (branch condition yes no).Leading draft := by
  intro target
  rw [build_branch, Draft.led_moveTo, hno.aside (Nat.lt_of_succ_lt (lt_chosen condition yes draft)),
    hyes.aside (lt_forked condition draft), Cond.led_forked hinside, length_aside,
    condition.length_forked, made, joined_append, joined_append, joined_three,
    List.length_append, ← Nat.add_assoc]
  simp only [List.length_cons, List.length_nil]
  grind

theorem Leading.loop {condition : Cond} {body : Stmt} (hinside : draft.cursor < draft.blocks.length)
    (hbody : body.Leading ((condition.tested draft).moveTo (draft.blocks.length + 1))) :
    (loop condition body).Leading draft := by
  intro target
  rw [build_loop, Draft.led_moveTo, hbody.aside (Nat.lt_of_succ_lt (lt_tested condition draft)),
    Cond.led_tested hinside, condition.length_tested, made, joined_append, joined_three]
  simp only [List.length_cons, List.length_nil]
  grind

theorem leading (stmt : Stmt) (hinside : draft.cursor < draft.blocks.length) :
    stmt.Leading draft := by
  induction stmt generalizing draft with
  | skip => exact fun target => (or_iff_left (not_joined_nil _ _)).symm
  | seq first second ihfirst ihsecond =>
    intro target
    have hbuilt := (first.placed hinside).1
    rw [build, ihsecond hbuilt.inside, ihfirst hinside, made, joined_append, or_assoc,
      length_build]
  | assign id type value =>
    intro target
    rw [build, Draft.led_say hinside (value.quiet_codeAs type)]
    exact or_congr_right (iff_of_false List.not_mem_nil (not_joined_nil _ _))
  | call callee =>
    intro target
    rw [build, Draft.led_push hinside]
    exact or_congr_right (iff_of_false List.not_mem_nil (not_joined_nil _ _))
  | branch condition yes no ihyes ihno =>
    exact .branch hinside (ihyes (lt_forked condition draft))
      (ihno (Nat.lt_of_succ_lt (lt_chosen condition yes draft)))
  | loop condition body ih =>
    exact .loop hinside (ih (Nat.lt_of_succ_lt (lt_tested condition draft)))
  | ret =>
    intro target
    have hopened : draft.Grows (draft.openAll ["after.return"]) := .openAll hinside _
    change ((draft.openAll ["after.return"]).push .ret).Led target ↔ _
    rw [Draft.led_push hopened.inside, Draft.led_openAll]
    exact or_congr_right (iff_of_false List.not_mem_nil (not_joined_return _ _))

/-- From where the statement starts, control can come to all the blocks it makes and to where it
ends, whatever is written after it. -/
def Reaching (stmt : Stmt) (draft : Draft) : Prop :=
  ∀ final, (stmt.build draft).Into final → ∀ id : Nat,
    draft.blocks.length ≤ id ∧ id < (stmt.build draft).blocks.length ∨
      id = (stmt.build draft).cursor →
        Relation.ReflTransGen (Leads final.blocks) draft.cursor id

/-- The part can be come to if its first block can, and so can the block it leaves for. -/
theorem Reaching.aside {part : Stmt} {start : Nat} (hpart : part.Reaching (stage.moveTo id))
    (hid : id < stage.blocks.length) (hinto : (part.aside stage id last).Into final)
    (hstart : Relation.ReflTransGen (Leads final.blocks) start id) :
    (∀ other : Nat, stage.blocks.length ≤ other →
      other < (part.aside stage id last).blocks.length →
        Relation.ReflTransGen (Leads final.blocks) start other) ∧
    Relation.ReflTransGen (Leads final.blocks) start last := by
  have hbuilt := (part.placed (show (stage.moveTo id).cursor < _ from hid)).1
  have hbefore : (part.build (stage.moveTo id)).Into final := (Draft.into_push _ _).trans hinto
  have hjump := hinto.leads
    ((Draft.leads_push hbuilt.inside (.jump last)).2 (.inr ⟨rfl, List.mem_singleton_self last⟩))
  constructor
  · intro other hlow hhigh
    rw [Stmt.aside, Draft.length_push] at hhigh
    exact hstart.trans (hpart final hbefore other (.inl ⟨hlow, hhigh⟩))
  · exact (hstart.trans (hpart final hbefore _ (.inr rfl))).tail hjump

theorem Reaching.branch {condition : Cond} {yes no : Stmt}
    (hinside : draft.cursor < draft.blocks.length)
    (hyes : yes.Reaching ((condition.forked draft).moveTo draft.blocks.length))
    (hno : no.Reaching ((yes.aside (condition.forked draft) draft.blocks.length
      (draft.blocks.length + 2)).moveTo (draft.blocks.length + 1))) :
    (branch condition yes no).Reaching draft := by
  intro final hinto id hid
  let next := draft.blocks.length
  let chosen := yes.aside (condition.forked draft) next (next + 2)
  let other := no.aside chosen (next + 1) (next + 2)
  have hforked : (condition.forked draft).blocks.length = next + 3 := condition.length_forked draft
  have hlength : chosen.blocks.length = next + 3 + yes.made.length := by
    rw [yes.length_aside, hforked]
  have hthen : next < (condition.forked draft).blocks.length := lt_forked condition draft
  have helse : next + 1 < chosen.blocks.length := Nat.lt_of_succ_lt (lt_chosen condition yes draft)
  have hother : other.Into final := hinto
  have hchosen : chosen.Into final := (no.into_aside helse _).trans hother
  have hfork : ∀ target, target = next ∨ target = next + 1 →
      Relation.ReflTransGen (Leads final.blocks) draft.cursor target :=
    fun _ => Cond.reaches_forked hinside ((yes.into_aside hthen _).trans hchosen)
  obtain ⟨hfirst, hend⟩ := hyes.aside hthen hchosen (hfork next (.inl rfl))
  obtain ⟨hsecond, -⟩ := hno.aside helse hother (hfork (next + 1) (.inr rfl))
  have hbuild : (Stmt.branch condition yes no).build draft = other.moveTo (next + 2) := rfl
  rw [hbuild, Draft.blocks_moveTo, Draft.cursor_moveTo] at hid
  rcases hid with ⟨hlow, hhigh⟩ | rfl
  · by_cases hinner : id < next + 3
    · obtain rfl | rfl | rfl : id = next ∨ id = next + 1 ∨ id = next + 2 := by omega
      · exact hfork next (.inl rfl)
      · exact hfork (next + 1) (.inr rfl)
      · exact hend
    · by_cases hearly : id < chosen.blocks.length
      · exact hfirst id (by omega) hearly
      · exact hsecond id (Nat.le_of_not_lt hearly) hhigh
  · exact hend

theorem Reaching.loop {condition : Cond} {body : Stmt} (hinside : draft.cursor < draft.blocks.length)
    (hbody : body.Reaching ((condition.tested draft).moveTo (draft.blocks.length + 1))) :
    (loop condition body).Reaching draft := by
  intro final hinto id hid
  let next := draft.blocks.length
  have htested : (condition.tested draft).blocks.length = next + 3 := condition.length_tested draft
  have hinner : next + 1 < (condition.tested draft).blocks.length :=
    Nat.lt_of_succ_lt (lt_tested condition draft)
  have hdone : (body.aside (condition.tested draft) (next + 1) next).Into final := hinto
  have htest : ∀ target, target = next ∨ target = next + 1 ∨ target = next + 2 →
      Relation.ReflTransGen (Leads final.blocks) draft.cursor target :=
    fun _ => Cond.reaches_tested hinside ((body.into_aside hinner _).trans hdone)
  obtain ⟨hmade, -⟩ := hbody.aside hinner hdone (htest (next + 1) (.inr (.inl rfl)))
  rw [build_loop, Draft.blocks_moveTo, Draft.cursor_moveTo] at hid
  rcases hid with ⟨hlow, hhigh⟩ | rfl
  · by_cases hnew : id < next + 3
    · exact htest id (by omega)
    · exact hmade id (by omega) hhigh
  · exact htest _ (.inr (.inr rfl))

/-- Without a return, no block is cut off. -/
theorem reaching (stmt : Stmt) (h : stmt.returns = 0)
    (hinside : draft.cursor < draft.blocks.length) : stmt.Reaching draft := by
  induction stmt generalizing draft with
  | skip =>
    rintro final - id (⟨hlow, hhigh⟩ | rfl)
    · exact absurd hhigh (Nat.not_lt.2 hlow)
    · exact .refl
  | seq first second ihfirst ihsecond =>
    have hreturns : first.returns = 0 ∧ second.returns = 0 := Nat.add_eq_zero_iff.1 h
    have hfirst := (first.placed hinside).1
    have hsecond := (second.placed hfirst.inside).1
    intro final hinto id hid
    have hmiddle := hsecond.into.trans hinto
    have hstart := ihfirst hreturns.1 hinside final hmiddle _ (.inr rfl)
    by_cases hnew : draft.blocks.length ≤ id ∧ id < (first.build draft).blocks.length
    · exact ihfirst hreturns.1 hinside final hmiddle id (.inl hnew)
    · apply hstart.trans
      apply ihsecond hreturns.2 hfirst.inside final hinto id
      rcases hid with ⟨hlow, hhigh⟩ | hcursor
      · exact .inl ⟨Nat.le_of_not_lt fun hlt => hnew ⟨hlow, hlt⟩, hhigh⟩
      · exact .inr hcursor
  | assign target type value =>
    rintro final - id (⟨hlow, hhigh⟩ | rfl)
    · rw [length_build] at hhigh
      exact absurd hhigh (Nat.not_lt.2 hlow)
    · exact .refl
  | call callee =>
    rintro final - id (⟨hlow, hhigh⟩ | rfl)
    · rw [length_build] at hhigh
      exact absurd hhigh (Nat.not_lt.2 hlow)
    · exact .refl
  | branch condition yes no ihyes ihno =>
    have hreturns : yes.returns = 0 ∧ no.returns = 0 := Nat.add_eq_zero_iff.1 h
    exact .branch hinside (ihyes hreturns.1 (lt_forked condition draft))
      (ihno hreturns.2 (Nat.lt_of_succ_lt (lt_chosen condition yes draft)))
  | loop condition body ih =>
    exact .loop hinside (ih h (Nat.lt_of_succ_lt (lt_tested condition draft)))
  | ret => cases h

theorem behind_draft (body : Stmt) : body.draft.behind = false :: body.made := by
  have hentry : Draft.entry.behind = [false] := by decide +kernel
  rw [draft, Draft.behind_push, behind_build, hentry]
  rfl

/-- Branches lead to all blocks of a procedure but the first one and those behind a return. -/
theorem led_draft (body : Stmt) (target : BlockId) :
    body.draft.Led target ↔ target ≠ 0 ∧ body.draft.behind[target]? = some false := by
  have hinside : Draft.entry.cursor < Draft.entry.blocks.length := Nat.zero_lt_one
  have hbuilt := (body.placed hinside).1
  have hentry : ¬Draft.entry.Led target := by
    rintro hled
    obtain ⟨source, block, hblock, -⟩ := (Draft.led_openAll {} ["entry"]).1 hled
    cases hblock
  have hret : target ∉ Instr.ret.targets := List.not_mem_nil
  rw [behind_draft, draft, Draft.led_push hbuilt.inside, body.leading hinside,
    or_iff_left hret, or_iff_right hentry]
  change Joined 1 body.made target ↔ _
  unfold Joined
  cases target with
  | zero => simp
  | succ target => simp

/-- Without a return, all blocks of a procedure can be come to from the first one. -/
theorem reaches_draft (body : Stmt) (h : body.returns = 0) {id : BlockId}
    (hid : id < body.draft.blocks.length) :
    Relation.ReflTransGen (Leads body.draft.blocks) 0 id := by
  have hinside : Draft.entry.cursor < Draft.entry.blocks.length := Nat.zero_lt_one
  have hreaching := body.reaching h hinside body.draft (Draft.into_push _ _) id
  by_cases hzero : id = 0
  · rw [hzero]
  · rw [draft, Draft.length_push] at hid
    exact hreaching (.inl ⟨Nat.one_le_iff_ne_zero.2 hzero, hid⟩)

end Stmt

end Core

end BlockLang
