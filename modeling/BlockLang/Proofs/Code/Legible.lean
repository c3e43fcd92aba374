import Mathlib.Data.List.GetD
import Mathlib.Data.List.Nodup
import BlockLang.Proofs.Code.Fresh
import BlockLang.Proofs.Code.Wording
import BlockLang.Proofs.Registers

/-! Reading a listing back. Types that a line leaves out follow from those it shows, and a name
stands for one thing only. So checked code is told by its text, if its names and labels are
distinct and unbroken and its registers are counted. -/

namespace BlockLang.Code

theorem Ty.text_injective : Function.Injective Ty.text := by
  have hint : ∀ bits, (Ty.int bits).text.toList = 'i' :: (toString bits).toList := by
    intro bits
    simp [text]
  intro first second h
  have hlist := congrArg String.toList h
  cases first with
  | int bits =>
    cases second with
    | int others => exact congrArg int (toString_injective ((String.append_right_inj _).1 h))
    | void => cases (hint bits).symm.trans hlist
    | ptr => cases (hint bits).symm.trans hlist
  | void =>
    cases second with
    | int bits => cases hlist.trans (hint bits)
    | void => rfl
    | ptr => cases hlist
  | ptr =>
    cases second with
    | int bits => cases hlist.trans (hint bits)
    | void => cases hlist
    | ptr => rfl

theorem toString_int_injective : Function.Injective (toString : Int → String) := by
  -- A minus is no digit, so the sign is told by the first character.
  have hsign : ∀ {first second : Nat}, first.repr ≠ "-" ++ second.repr := by
    intro first second h
    have hminus : '-' ∈ (toString first).toList := by
      rw [Nat.toString_eq_repr, h]
      simp
    cases isDigit_toString first '-' hminus
  intro first second h
  rw [Int.toString_eq_repr, Int.toString_eq_repr, Int.repr_eq_if, Int.repr_eq_if] at h
  split at h <;> split at h
  · have hsame := toString_injective h
    omega
  · exact (hsign h).elim
  · exact (hsign h.symm).elim
  · have hsame := toString_injective ((String.append_right_inj _).1 h)
    omega

theorem Value.const_text_ne (type other : Ty) (value : Int64) (id : Nat) :
    (const type value).text ≠ (register other id).text := by
  intro h
  have hpercent : '%' ∈ (toString value.toInt).toList := by
    rw [show toString value.toInt = "%t" ++ toString id from h]
    simp
  cases isIntChar_toString _ _ hpercent

/-- A value is told by its type and its text. -/
theorem Value.eq_of_text {first second : Value} (htype : first.type = second.type)
    (htext : first.text = second.text) : first = second := by
  cases first with
  | const type value =>
    cases second with
    | const other number =>
      obtain rfl : type = other := htype
      rw [Int64.toInt_inj.1 (toString_int_injective htext)]
    | register other id => exact (const_text_ne type other value id htext).elim
  | register type id =>
    cases second with
    | const other number => exact (const_text_ne other type number id htext.symm).elim
    | register other number =>
      obtain rfl : type = other := htype
      rw [toString_injective ((String.append_right_inj _).1 htext)]

@[simp] theorem Ty.unbroken_text (type : Ty) : Unbroken type.text := by
  cases type with
  | int bits => exact unbroken_append.2 ⟨by decide, unbroken_toString bits⟩
  | _ => decide

@[simp] theorem Value.unbroken_text (value : Value) : Unbroken value.text := by
  cases value with
  | const type number => exact unbroken_toString_int _
  | register type id => exact unbroken_append.2 ⟨by decide, unbroken_toString id⟩

theorem BinOp.mnemonic_injective : Function.Injective BinOp.mnemonic := by
  intro first second h
  cases first <;> cases second <;> simp_all [mnemonic]

theorem Predicate.mnemonic_injective : Function.Injective Predicate.mnemonic := by
  intro first second h
  cases first <;> cases second <;> simp_all [mnemonic]

theorem CastOp.mnemonic_injective : Function.Injective CastOp.mnemonic := by
  intro first second h
  cases first <;> cases second <;> simp_all [mnemonic]

@[simp] theorem BinOp.mnemonic_ne_load (op : BinOp) : op.mnemonic ≠ "load" := by
  cases op <;> decide

@[simp] theorem CastOp.mnemonic_ne_icmp (op : CastOp) : op.mnemonic ≠ "icmp" := by
  cases op <;> decide

@[simp] theorem BinOp.unbroken_mnemonic (op : BinOp) : Unbroken op.mnemonic := by
  cases op <;> decide

@[simp] theorem Predicate.unbroken_mnemonic (predicate : Predicate) :
    Unbroken predicate.mnemonic := by
  cases predicate <;> decide

@[simp] theorem CastOp.unbroken_mnemonic (op : CastOp) : Unbroken op.mnemonic := by
  cases op <;> decide

/-- A distinct name is told by where it stands. -/
theorem getD_injective {names : List String} (hnodup : names.Nodup) {first second : Nat}
    (hfirst : first < names.length) (hsecond : second < names.length)
    (h : names.getD first "" = names.getD second "") : first = second := by
  rw [List.getD_eq_getElem _ _ hfirst, List.getD_eq_getElem _ _ hsecond] at h
  exact (List.Nodup.getElem_inj_iff hnodup).1 h

/-- The names that lines show tell their owners apart. -/
structure Terms.Distinct (terms : Terms) : Prop where
  globals : terms.globals.Nodup
  functions : terms.functions.Nodup
  labels : terms.labels.Nodup

/-- The names that lines show are words. -/
structure Terms.Plain (terms : Terms) : Prop where
  globals : ∀ name ∈ terms.globals, Unbroken name
  functions : ∀ name ∈ terms.functions, Unbroken name
  labels : ∀ name ∈ terms.labels, Unbroken name

theorem unbroken_getD {names : List String} (h : ∀ name ∈ names, Unbroken name) (index : Nat) :
    Unbroken (names.getD index "") := by
  rw [List.getD_eq_getElem?_getD]
  cases hname : names[index]? with
  | none => decide
  | some name => exact h name (List.mem_of_getElem? hname)

theorem Instr.unbroken_words {terms : Terms} (h : terms.Plain) (instr : Instr) :
    ∀ word ∈ instr.words terms, Unbroken word := by
  have hcomma : Unbroken "," := by decide
  have hat : Unbroken "@" := by decide
  have hpercent : Unbroken "%" := by decide
  have hglobal := unbroken_getD h.globals
  have hfunction := unbroken_getD h.functions
  have hlabel := unbroken_getD h.labels
  cases instr <;>
    simp only [words, List.forall_mem_cons, unbroken_append, Ty.unbroken_text,
      Value.unbroken_text, hcomma, hat, hpercent, hglobal, hfunction, hlabel,
      BinOp.unbroken_mnemonic, Predicate.unbroken_mnemonic, CastOp.unbroken_mnemonic,
      true_and, and_true]
  all_goals decide

/-- What the words of an instruction leave out is settled: the types they do not show, and
whether there is what they name. -/
def Instr.Settled (terms : Terms) : Instr → Prop
  | load _ source => source < terms.globals.length
  | store _ target => target < terms.globals.length
  | binary dest _ left right => left.type = right.type ∧ left.type = dest.type
  | compare dest _ left right => left.type = right.type ∧ dest.type = .int 1
  | cast _ _ _ => True
  | call callee => callee < terms.functions.length
  | jump target => target < terms.labels.length
  | fork condition yes no => condition.type = .int 1 ∧ yes < terms.labels.length ∧
      no < terms.labels.length
  | ret => True

theorem Instr.Proper.settled {code : Module} {function : Function} {instr : Instr}
    (h : instr.Proper code function) : instr.Settled (function.terms code) := by
  cases instr with
  | load dest source =>
    obtain ⟨global, hglobal, -⟩ := h
    simpa [Settled, Function.terms] using (List.getElem?_eq_some_iff.1 hglobal).1
  | store value target =>
    obtain ⟨global, hglobal, -⟩ := h
    simpa [Settled, Function.terms] using (List.getElem?_eq_some_iff.1 hglobal).1
  | binary dest op left right => exact h
  | compare dest predicate left right => exact h
  | cast dest op value => trivial
  | call callee => simpa [Settled, Proper, Function.terms] using h
  | jump target => simpa [Settled, Proper, Function.terms, Function.labels] using h
  | fork condition yes no => simpa [Settled, Proper, Function.terms, Function.labels] using h
  | ret => trivial

/-- An instruction is told by its words: the types they leave out follow from those they show. -/
theorem Instr.eq_of_words {terms : Terms} (hdistinct : terms.Distinct) {first second : Instr}
    (hfirst : first.Settled terms) (hsecond : second.Settled terms)
    (h : first.words terms = second.words terms) : first = second := by
  cases first with
  | load dest source =>
    cases second with
    | load other target =>
      simp only [words, List.cons.injEq, String.append_left_inj, String.append_right_inj,
        true_and, and_true] at h
      obtain ⟨hdest, htype, hname⟩ := h
      rw [Value.eq_of_text (Ty.text_injective htype) hdest,
        getD_injective hdistinct.globals hfirst hsecond hname]
    | binary other op left right =>
      simp only [words, List.cons.injEq] at h
      exact (op.mnemonic_ne_load h.2.2.1.symm).elim
    | _ => simp [words] at h
  | store value target =>
    cases second with
    | store other goal =>
      simp only [words, List.cons.injEq, String.append_left_inj, String.append_right_inj,
        true_and, and_true] at h
      obtain ⟨htype, hvalue, hname⟩ := h
      rw [Value.eq_of_text (Ty.text_injective htype) hvalue,
        getD_injective hdistinct.globals hfirst hsecond hname]
    | _ => simp [words] at h
  | binary dest op left right =>
    cases second with
    | binary dest' op' left' right' =>
      simp only [words, List.cons.injEq, String.append_left_inj, true_and, and_true] at h
      obtain ⟨hdest, hop, htype, hleft, hright⟩ := h
      have htypes : left.type = left'.type := Ty.text_injective htype
      rw [BinOp.mnemonic_injective hop, Value.eq_of_text htypes hleft,
        Value.eq_of_text (hfirst.1.symm.trans (htypes.trans hsecond.1)) hright,
        Value.eq_of_text (hfirst.2.symm.trans (htypes.trans hsecond.2)) hdest]
    | load dest source =>
      simp only [words, List.cons.injEq] at h
      exact (op.mnemonic_ne_load h.2.2.1).elim
    | _ => simp [words] at h
  | compare dest predicate left right =>
    cases second with
    | compare dest' predicate' left' right' =>
      simp only [words, List.cons.injEq, String.append_left_inj, true_and, and_true] at h
      obtain ⟨hdest, hpredicate, htype, hleft, hright⟩ := h
      have htypes : left.type = left'.type := Ty.text_injective htype
      rw [Predicate.mnemonic_injective hpredicate, Value.eq_of_text htypes hleft,
        Value.eq_of_text (hfirst.1.symm.trans (htypes.trans hsecond.1)) hright,
        Value.eq_of_text (hfirst.2.trans hsecond.2.symm) hdest]
    | cast dest op value =>
      simp only [words, List.cons.injEq] at h
      exact (op.mnemonic_ne_icmp h.2.2.1.symm).elim
    | _ => simp [words] at h
  | cast dest op value =>
    cases second with
    | cast dest' op' value' =>
      simp only [words, List.cons.injEq, true_and, and_true] at h
      obtain ⟨hdest, hop, htype, hvalue, htarget⟩ := h
      rw [CastOp.mnemonic_injective hop, Value.eq_of_text (Ty.text_injective htype) hvalue,
        Value.eq_of_text (Ty.text_injective htarget) hdest]
    | compare dest predicate left right =>
      simp only [words, List.cons.injEq] at h
      exact (op.mnemonic_ne_icmp h.2.2.1).elim
    | _ => simp [words] at h
  | call callee =>
    cases second with
    | call other =>
      simp only [words, List.cons.injEq, String.append_left_inj, String.append_right_inj,
        true_and, and_true] at h
      rw [getD_injective hdistinct.functions hfirst hsecond h]
    | _ => simp [words] at h
  | jump target =>
    cases second with
    | jump other =>
      simp only [words, List.cons.injEq, String.append_right_inj, true_and, and_true] at h
      rw [getD_injective hdistinct.labels hfirst hsecond h]
    | _ => simp [words] at h
  | fork condition yes no =>
    cases second with
    | fork condition' yes' no' =>
      simp only [words, List.cons.injEq, String.append_left_inj, String.append_right_inj,
        true_and, and_true] at h
      obtain ⟨hcondition, hyes, hno⟩ := h
      rw [Value.eq_of_text (hfirst.1.trans hsecond.1.symm) hcondition,
        getD_injective hdistinct.labels hfirst.2.1 hsecond.2.1 hyes,
        getD_injective hdistinct.labels hfirst.2.2 hsecond.2.2 hno]
    | _ => simp [words] at h
  | ret =>
    cases second with
    | ret => rfl
    | _ => simp [words] at h

theorem Global.eq_of_words {first second : Global} (h : first.words = second.words) :
    first = second := by
  simp only [words, List.cons.injEq, String.append_right_inj, true_and, and_true] at h
  cases first
  cases second
  simp_all [Ty.text_injective.eq_iff]

theorem Function.eq_of_words {first second : Function} (h : first.words = second.words) :
    first.name = second.name ∧ first.internal = second.internal := by
  unfold words at h
  cases hfirst : first.internal <;> cases hsecond : second.internal <;>
    simp_all [String.append_left_inj]

theorem Block.eq_of_rows {terms : Terms} (hdistinct : terms.Distinct) (hplain : terms.Plain)
    {first second : Block} (hfirst : ∀ instr ∈ first.instrs, instr.Settled terms)
    (hsecond : ∀ instr ∈ second.instrs, instr.Settled terms)
    (h : first.rows terms = second.rows terms) : first = second := by
  obtain ⟨hlabel, hinstrs⟩ := List.cons.inj h
  refine Block.ext_instrs ((String.append_left_inj _).1 hlabel) (eq_of_map_eq ?_ hinstrs)
  intro instr hinstr twin htwin htext
  have hwords : ∀ instr : Instr, instr.words terms ≠ [] := by
    rintro (_ | _) <;> simp [Instr.words]
  refine Instr.eq_of_words hdistinct (hfirst instr hinstr) (hsecond twin htwin) ?_
  exact words_eq (hwords instr) (hwords twin) (instr.unbroken_words hplain)
    (twin.unbroken_words hplain) ((String.append_right_inj _).1 htext)

/-- Every line of a block has something on it, and none is a closing brace. -/
theorem Block.row_ne {terms : Terms} {block : Block} {line : String}
    (h : line ∈ block.rows terms) : line ≠ "" ∧ line ≠ "\x7d" := by
  have hlist : ∀ {text : String}, text.toList ≠ [] → text.toList ≠ ['\x7d'] →
      text ≠ "" ∧ text ≠ "\x7d" := by
    rintro text hnil hbrace
    exact ⟨fun hsame => hnil (by simp [hsame]), fun hsame => hbrace (by simp [hsame])⟩
  rcases List.mem_cons.1 h with rfl | hinstr
  · exact hlist (by simp) (by simp [List.append_eq_cons_iff])
  · obtain ⟨instr, -, rfl⟩ := List.mem_map.1 hinstr
    exact hlist (by simp) (by simp)

/-- The labels of a function stand at the heads of its blocks. -/
theorem labels_eq_of_rows {terms others : Terms} {first second : Function}
    (h : first.blocks.map (Block.rows terms) = second.blocks.map (Block.rows others)) :
    first.labels = second.labels :=
  map_eq_of_map_eq
    (fun _ _ _ _ hrows => (String.append_left_inj _).1 (List.cons.inj hrows).1) h

/-- The registers of a function are counted by its instructions. -/
theorem Function.Assigned.nextRegister_eq {first second : Function} (hfirst : first.Assigned)
    (hsecond : second.Assigned) (hblocks : first.blocks = second.blocks) :
    first.nextRegister = second.nextRegister := by
  have hcount : ∀ id, id < first.nextRegister ↔ id < second.nextRegister := by
    intro id
    have hsame := hfirst.once id
    rw [Function.instrs, hblocks, ← Function.instrs, hsecond.once id] at hsame
    split at hsame <;> split at hsame <;> omega
  have hleft := hcount first.nextRegister
  have hright := hcount second.nextRegister
  omega

/-- Code whose listing tells all there is to it. -/
structure Module.Legible (code : Module) : Prop where
  checked : code.Checked
  inStep : code.InStep
  distinct : code.names.Nodup
  plain : ∀ name ∈ code.names, Unbroken name
  inStepLabels : ∀ function ∈ code.functions, function.InStep
  distinctLabels : ∀ function ∈ code.functions, function.labels.Nodup
  plainLabels : ∀ function ∈ code.functions, ∀ label ∈ function.labels, Unbroken label
  assigned : ∀ function ∈ code.functions, function.Assigned

namespace Module

variable {code other : Module} {function twin : Function}

theorem Legible.distinct_terms (h : code.Legible) (hfunction : function ∈ code.functions) :
    (function.terms code).Distinct := by
  obtain ⟨hglobals, hfunctions, -⟩ := List.nodup_append.1 h.distinct
  exact ⟨hglobals, hfunctions, h.distinctLabels function hfunction⟩

theorem Legible.plain_terms (h : code.Legible) (hfunction : function ∈ code.functions) :
    (function.terms code).Plain := by
  obtain ⟨hglobals, hfunctions⟩ := List.forall_mem_append.1 h.plain
  exact ⟨hglobals, hfunctions, h.plainLabels function hfunction⟩

theorem Legible.unbroken_function (h : code.Legible) (hfunction : function ∈ code.functions) :
    ∀ word ∈ function.words, Unbroken word := by
  have hname := h.plain function.name (List.mem_append_right _ (List.mem_map_of_mem hfunction))
  unfold Function.words
  cases function.internal <;>
    simp only [if_true, Bool.false_eq_true, if_false, List.cons_append, List.nil_append,
      List.forall_mem_cons, unbroken_append, hname, and_true] <;> decide

theorem Legible.unbroken_global (h : code.Legible) {global : Global}
    (hglobal : global ∈ code.globals) : ∀ word ∈ global.words, Unbroken word := by
  have hname := h.plain global.name (List.mem_append_left _ (List.mem_map_of_mem hglobal))
  simp only [Global.words, List.forall_mem_cons, unbroken_append, hname, Ty.unbroken_text,
    true_and, and_true]
  decide

def isGlobalRow (line : String) : Bool := line.toList.head? == some '@'

theorem isGlobalRow_header (function : Function) :
    isGlobalRow (" ".intercalate function.words) = false := by
  cases hinternal : function.internal <;> simp [isGlobalRow, Function.words, hinternal]

/-- The globals are read off the lines: those that start with their mark, from the second on. -/
theorem globalRows_eq (code : Module) : code.globalRows = code.rows.tail.takeWhile isGlobalRow := by
  have hblank : isGlobalRow "" = false := rfl
  have hstart : code.functionRows.takeWhile isGlobalRow = [] ∧
      code.functionRows.tail.takeWhile isGlobalRow = [] := by
    unfold functionRows
    cases code.functions with
    | nil => simp
    | cons function rest => simp [Function.body, isGlobalRow_header, hblank]
  unfold rows
  cases hglobals : code.globals with
  | nil => simp [globalRows, hglobals, hstart.2]
  | cons global rest =>
    have hrows : ∀ line ∈ code.globalRows, isGlobalRow line = true := by
      intro line hline
      obtain ⟨global, -, rfl⟩ := List.mem_map.1 hline
      simp [isGlobalRow, Global.words]
    simp [List.takeWhile_append_of_pos hrows, hstart.1]

theorem globals_eq_of_rows (h : code.Legible) (h' : other.Legible) (hrows : code.rows = other.rows) :
    code.globals = other.globals := by
  refine eq_of_map_eq (fun global hglobal twin htwin htext => ?_)
    (show code.globalRows = other.globalRows by rw [globalRows_eq, hrows, ← globalRows_eq])
  exact Global.eq_of_words (words_eq (by simp [Global.words]) (by simp [Global.words])
    (h.unbroken_global hglobal) (h'.unbroken_global htwin) htext)

theorem functionRows_eq_of_rows (h : code.Legible) (h' : other.Legible)
    (hrows : code.rows = other.rows) : code.functionRows = other.functionRows := by
  have hglobals := globals_eq_of_rows h h' hrows
  rw [rows, rows, globalRows, globalRows, hglobals] at hrows
  exact List.append_cancel_left hrows

theorem mem_body {line : String} (h : line ∈ function.body code) :
    line = "" ∨ line = " ".intercalate function.words ∨
      ∃ block ∈ function.blocks, line ∈ block.rows (function.terms code) := by
  rcases List.mem_cons.1 h with hblank | h
  · exact .inl hblank
  rcases List.mem_cons.1 h with hheader | h
  · exact .inr (.inl hheader)
  rcases mem_intercalate h with hblank | ⟨rows, hrows, hline⟩
  · exact .inl hblank
  · obtain ⟨block, hblock, rfl⟩ := List.mem_map.1 hrows
    exact .inr (.inr ⟨block, hblock, hline⟩)

theorem brace_notMem_body (code : Module) (function : Function) :
    "\x7d" ∉ function.body code := by
  intro hmem
  rcases mem_body hmem with hblank | hheader | ⟨block, -, hline⟩
  · simp at hblank
  · have hlist := congrArg String.toList hheader
    cases hinternal : function.internal <;> simp [Function.words, hinternal] at hlist
  · exact (Block.row_ne hline).2 rfl

theorem body_eq_of_rows (h : code.Legible) (h' : other.Legible) (hrows : code.rows = other.rows) :
    code.functions.map (Function.body code) = other.functions.map (Function.body other) := by
  have hfree : ∀ code : Module, ∀ body ∈ code.functions.map (Function.body code), "\x7d" ∉ body := by
    intro code body hbody
    obtain ⟨function, -, rfl⟩ := List.mem_map.1 hbody
    exact brace_notMem_body code function
  exact eq_of_flatMap_concat_eq (hfree code) (hfree other) (functionRows_eq_of_rows h h' hrows)

theorem heads_eq_of_body (h : code.Legible) (h' : other.Legible)
    (hfunction : function ∈ code.functions) (htwin : twin ∈ other.functions)
    (hbody : function.body code = twin.body other) :
    function.name = twin.name ∧ function.internal = twin.internal := by
  obtain ⟨hheader, -⟩ := List.cons.inj (List.cons.inj hbody).2
  exact Function.eq_of_words (words_eq (by simp [Function.words]) (by simp [Function.words])
    (h.unbroken_function hfunction) (h'.unbroken_function htwin) hheader)

theorem blocks_eq_of_body (h : code.Legible) (h' : other.Legible)
    (hfunction : function ∈ code.functions) (htwin : twin ∈ other.functions)
    (hglobals : code.globals = other.globals)
    (hnames : code.functions.map Function.name = other.functions.map Function.name)
    (hbody : function.body code = twin.body other) : function.blocks = twin.blocks := by
  obtain ⟨-, hjoined⟩ := List.cons.inj (List.cons.inj hbody).2
  have hfree : ∀ {code : Module} {function : Function},
      ∀ rows ∈ function.blocks.map (Block.rows (function.terms code)), "" ∉ rows := by
    intro code function rows hrows hmem
    obtain ⟨block, -, rfl⟩ := List.mem_map.1 hrows
    exact (Block.row_ne hmem).1 rfl
  have hrows := eq_of_intercalate_eq (by simpa using h.checked.entry function hfunction)
    (by simpa using h'.checked.entry twin htwin) hfree hfree hjoined
  have hterms : function.terms code = twin.terms other := by
    unfold Function.terms
    rw [hglobals, hnames, labels_eq_of_rows hrows]
  refine eq_of_map_eq (fun block hblock copy hcopy hsame => ?_) hrows
  rw [← hterms] at hsame
  refine Block.eq_of_rows (h.distinct_terms hfunction) (h.plain_terms hfunction) ?_ ?_ hsame
  · intro instr hinstr
    exact (h.checked.proper function hfunction block hblock instr hinstr).settled
  · intro instr hinstr
    rw [hterms]
    exact (h'.checked.proper twin htwin copy hcopy instr hinstr).settled

theorem functions_eq_of_rows (h : code.Legible) (h' : other.Legible)
    (hrows : code.rows = other.rows) : code.functions = other.functions := by
  have hbodies := body_eq_of_rows h h' hrows
  have hnames : code.functions.map Function.name = other.functions.map Function.name :=
    map_eq_of_map_eq (fun function hfunction twin htwin hbody =>
      (heads_eq_of_body h h' hfunction htwin hbody).1) hbodies
  refine eq_of_map_eq (fun function hfunction twin htwin hbody => ?_) hbodies
  obtain ⟨hname, hinternal⟩ := heads_eq_of_body h h' hfunction htwin hbody
  have hblocks := blocks_eq_of_body h h' hfunction htwin (globals_eq_of_rows h h' hrows) hnames hbody
  have hnext := (h.assigned function hfunction).nextRegister_eq (h'.assigned twin htwin) hblocks
  have hlabels : function.labels = twin.labels := congrArg (List.map Block.label) hblocks
  have htaken := (h.inStepLabels function hfunction).unique (h'.inStepLabels twin htwin) hlabels
  cases function
  cases twin
  simp_all

theorem Legible.newline_notMem_body (h : code.Legible) (hfunction : function ∈ code.functions) :
    ∀ line ∈ function.body code, '\n' ∉ line.toList := by
  intro line hline
  rcases mem_body hline with rfl | rfl | ⟨block, hblock, hrow⟩
  · simp
  · exact newline_notMem_intercalate (h.unbroken_function hfunction)
  · rcases List.mem_cons.1 hrow with rfl | hinstr
    · have hlabel := h.plainLabels function hfunction block.label (List.mem_map_of_mem hblock)
      exact (unbroken_append.2 ⟨hlabel, by decide⟩).2
    · obtain ⟨instr, -, rfl⟩ := List.mem_map.1 hinstr
      have hwords := newline_notMem_intercalate (instr.unbroken_words (h.plain_terms hfunction))
      simpa using hwords

theorem Legible.newline_notMem_rows (h : code.Legible) :
    ∀ line ∈ code.rows, '\n' ∉ line.toList := by
  unfold rows
  refine List.forall_mem_append.2 ⟨?_, ?_⟩
  · intro line hline
    split at hline
    · cases hline
    · rcases List.mem_cons.1 hline with rfl | hrow
      · simp
      · obtain ⟨global, hglobal, rfl⟩ := List.mem_map.1 hrow
        exact newline_notMem_intercalate (h.unbroken_global hglobal)
  · intro line hline
    obtain ⟨body, hbody, hline⟩ := List.mem_flatMap.1 hline
    obtain ⟨function, hfunction, rfl⟩ := List.mem_map.1 hbody
    rcases List.mem_append.1 hline with hline | hbrace
    · exact h.newline_notMem_body hfunction line hline
    · rw [List.mem_singleton.1 hbrace]
      decide

/-- Code of a given name is told by its listing. -/
theorem Legible.eq_of_listing (h : code.Legible) (h' : other.Legible)
    (hname : code.name = other.name) (hlisting : code.listing = other.listing) : code = other := by
  rw [h.checked.listing_eq, h'.checked.listing_eq] at hlisting
  have hjoined := Except.ok.inj hlisting
  have hheader : code.header = other.header := by rw [header, header, hname]
  rw [hheader, List.map_append, List.map_append, String.join_append, String.join_append,
    String.append_right_inj] at hjoined
  have hrows := join_lines_injective h.newline_notMem_rows h'.newline_notMem_rows hjoined
  have hglobals := globals_eq_of_rows h h' hrows
  have hfunctions := functions_eq_of_rows h h' hrows
  have hnames : code.names = other.names := by rw [names, names, hglobals, hfunctions]
  have htaken := h.inStep.unique h'.inStep hnames
  cases code
  cases other
  simp_all

end Module

end BlockLang.Code
