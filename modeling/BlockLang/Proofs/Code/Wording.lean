import BlockLang.Proofs.Code.Checked
import BlockLang.Proofs.Text.Joining

/-! The text of checked code, line by line. A line is made of words, and what an instruction
refers to stands there by its name. -/

namespace BlockLang.Code

/-- What the globals, the functions and the blocks around an instruction are called. -/
structure Terms where
  globals : List String
  functions : List String
  labels : List String

def Function.terms (code : Module) (function : Function) : Terms where
  globals := code.globals.map Global.name
  functions := code.functions.map Function.name
  labels := function.labels

def Instr.words (terms : Terms) : Instr → List String
  | load dest source =>
    [dest.text, "=", "load", dest.type.text ++ ",", "ptr", "@" ++ terms.globals.getD source ""]
  | store value target =>
    ["store", value.type.text, value.text ++ ",", "ptr", "@" ++ terms.globals.getD target ""]
  | binary dest op left right =>
    [dest.text, "=", op.mnemonic, left.type.text, left.text ++ ",", right.text]
  | compare dest predicate left right =>
    [dest.text, "=", "icmp", predicate.mnemonic, left.type.text, left.text ++ ",", right.text]
  | cast dest op value =>
    [dest.text, "=", op.mnemonic, value.type.text, value.text, "to", dest.type.text]
  | call callee => ["call", "void", "@" ++ terms.functions.getD callee "" ++ "()"]
  | jump target => ["br", "label", "%" ++ terms.labels.getD target ""]
  | fork condition yes no =>
    ["br", "i1", condition.text ++ ",", "label", "%" ++ terms.labels.getD yes "" ++ ",", "label",
      "%" ++ terms.labels.getD no ""]
  | ret => ["ret", "void"]

def Global.words (global : Global) : List String :=
  ["@" ++ global.name, "=", "global", global.type.text, "0"]

def Function.words (function : Function) : List String :=
  "define" :: (if function.internal then ["internal"] else []) ++
    ["void", "@" ++ function.name ++ "()", "\x7b"]

def Block.rows (terms : Terms) (block : Block) : List String :=
  (block.label ++ ":") :: block.instrs.map fun instr => "  " ++ " ".intercalate (instr.words terms)

/-- The lines of a function down to its closing brace. -/
def Function.body (code : Module) (function : Function) : List String :=
  "" :: " ".intercalate function.words ::
    List.intercalate [""] (function.blocks.map (Block.rows (function.terms code)))

def Module.globalRows (code : Module) : List String :=
  code.globals.map fun global => " ".intercalate global.words

def Module.functionRows (code : Module) : List String :=
  (code.functions.map (Function.body code)).flatMap fun body => body ++ ["\x7d"]

/-- The lines below the header. -/
def Module.rows (code : Module) : List String :=
  (if code.globals.isEmpty then [] else "" :: code.globalRows) ++ code.functionRows

variable {code : Module} {function : Function} {instr : Instr} {block : Block}

theorem Global.line_eq (global : Global) : global.line = " ".intercalate global.words := by
  apply String.toList_inj.1
  simp [line, words]

/-- What an instruction refers to is there, so it has a text. -/
theorem Instr.Proper.text_eq (h : instr.Proper code function) :
    instr.text code function = .ok (" ".intercalate (instr.words (function.terms code))) := by
  have hok : ∀ {text : String} {words : List String},
      text.toList = [' '].intercalate (words.map String.toList) →
        (.ok text : Except Fault String) = .ok (" ".intercalate words) := by
    intro text words hlist
    refine congrArg Except.ok (String.toList_inj.1 (hlist.trans ?_))
    rw [String.toList_intercalate]
    rfl
  cases instr with
  | load dest source =>
    obtain ⟨global, hglobal, -⟩ := h
    simp only [Instr.text, Module.global, fetch_eq_ok.2 hglobal]
    exact hok (by simp [words, Function.terms, hglobal])
  | store value target =>
    obtain ⟨global, hglobal, -⟩ := h
    simp only [Instr.text, Module.global, fetch_eq_ok.2 hglobal]
    exact hok (by simp [words, Function.terms, hglobal])
  | call callee =>
    have hcallee := List.getElem?_eq_getElem h
    simp only [Instr.text, Module.function, fetch_eq_ok.2 hcallee]
    exact hok (by simp [words, Function.terms, hcallee])
  | jump target =>
    have htarget := List.getElem?_eq_getElem h
    simp only [Instr.text, fetch_eq_ok.2 htarget]
    exact hok (by simp [words, Function.terms, Function.labels, htarget])
  | fork condition yes no =>
    have hyes := List.getElem?_eq_getElem h.2.1
    have hno := List.getElem?_eq_getElem h.2.2
    simp only [Instr.text, fetch_eq_ok.2 hyes, fetch_eq_ok.2 hno]
    exact hok (by simp [words, Function.terms, Function.labels, hyes, hno])
  | _ => exact hok (by simp [words])

theorem Block.lines_eq (h : ∀ instr ∈ block.instrs, instr.Proper code function) :
    block.lines code function = .ok (block.rows (function.terms code)) := by
  unfold lines
  rw [mapM_eq_ok_map fun instr hinstr => (h instr hinstr).text_eq]
  simp [rows, bind, Except.bind, pure, Except.pure]

theorem Function.lines_eq
    (h : ∀ block ∈ function.blocks, ∀ instr ∈ block.instrs, instr.Proper code function) :
    function.lines code = .ok (function.body code ++ ["\x7d"]) := by
  have hheader : "define " ++ (if function.internal then "internal " else "") ++ "void @" ++
      function.name ++ "() \x7b" = " ".intercalate function.words := by
    apply String.toList_inj.1
    cases hinternal : function.internal <;> simp [words, hinternal]
  unfold lines
  rw [mapM_eq_ok_map fun block hblock => Block.lines_eq (h block hblock)]
  simp only [hheader, bind, Except.bind, pure, Except.pure]
  rfl

/-- Code that passed the check has a text. -/
theorem Module.Checked.listing_eq (h : code.Checked) :
    code.listing = .ok (String.join ((code.header ++ code.rows).map (· ++ "\n"))) := by
  have hlines : code.lines = .ok (code.header ++ code.rows) := by
    unfold lines
    rw [mapM_eq_ok_map fun function hfunction => Function.lines_eq (h.proper function hfunction)]
    simp [rows, globalRows, functionRows, List.flatMap, Function.comp_def, bind, Except.bind, pure,
      Except.pure, funext Global.line_eq]
  unfold listing
  rw [hlines]
  rfl

end BlockLang.Code
