import BlockLang.Proofs.Checking
import BlockLang.Proofs.Code.Wording
import BlockLang.Proofs.Shell.Files
import BlockLang.Shell.Run

/-! What a run of a command leaves behind. It either fails, and then tells one error and
changes nothing, or it does all it was asked for. -/

namespace BlockLang.Shell

open Code
open Files (readText writeText)

/-- Where the code of a source is written. -/
def target (input : String) (output? : Option String) : String :=
  output?.getD (withExtension input "ll")

variable {σ : Type} [Files σ]

namespace Command

/-- The errors a command ends in, each with the source it points into. -/
inductive Fails (files : σ) : Command → Error → Option String → Prop
  | unread {command : Command} {refusal : Refusal}
    (hread : readText files command.input = .error refusal) :
    Fails files command (.inaccessible command.input refusal.message) none
  | uncompiled {input source : String} {output? : Option String} {scrutiny : Scrutiny}
    {error : Error} (hread : readText files input = .ok source)
    (hcode : outcome (BlockLang.compile input source scrutiny) = .error (.error error)) :
    Fails files (.compile input output? scrutiny) error (some source)
  | unwritten {input source text : String} {output? : Option String} {scrutiny : Scrutiny}
    {code : Module} {refusal : Refusal} (hread : readText files input = .ok source)
    (hcode : outcome (BlockLang.compile input source scrutiny) = .ok code)
    (htext : code.listing = .ok text) (hfile : output? ≠ some "-")
    (hwrite : writeText files (target input output?) text = .error refusal) :
    Fails files (.compile input output? scrutiny)
      (.inaccessible (target input output?) refusal.message) none
  | unchecked {input source : String} {error : Error} (hread : readText files input = .ok source)
    (hcode : outcome (BlockLang.compile input source .all) = .error (.error error)) :
    Fails files (.check input) error (some source)
  | unscanned {input source : String} {error : Error} (hread : readText files input = .ok source)
    (hscan : Compiler.scanAt (.top input) source = .error error) :
    Fails files (.tokens input) error (some source)

/-- What a command that succeeds prints, and the files after it. -/
inductive Succeeds [LawfulFiles σ] (files : σ) : Command → String → σ → Prop
  | printed {input source text : String} {scrutiny : Scrutiny} {code : Module}
    (hread : readText files input = .ok source)
    (hcode : outcome (BlockLang.compile input source scrutiny) = .ok code)
    (htext : code.listing = .ok text) :
    Succeeds files (.compile input (some "-") scrutiny) text files
  | saved {input source text : String} {output? : Option String} {scrutiny : Scrutiny}
    {code : Module} {after : σ} (hread : readText files input = .ok source)
    (hcode : outcome (BlockLang.compile input source scrutiny) = .ok code)
    (htext : code.listing = .ok text) (hfile : output? ≠ some "-")
    (hreplaced : Replaced files after (target input output?) text) :
    Succeeds files (.compile input output? scrutiny) "" after
  | checked {input source : String} {code : Module} (hread : readText files input = .ok source)
    (hcode : outcome (BlockLang.compile input source .all) = .ok code) :
    Succeeds files (.check input) (summary input code) files
  | listed {input source : String} {lexemes : List Lexeme}
    (hread : readText files input = .ok source)
    (hscan : Compiler.scanAt (.top input) source = .ok lexemes) :
    Succeeds files (.tokens input) (String.join (lexemes.map tokenLine)) files

end Command

/-- A compilation gives code that has a listing, or an error of the source. -/
theorem outcome_compile_cases (input source : String) (scrutiny : Scrutiny) :
    (∃ code text, outcome (compile input source scrutiny) = .ok code ∧ code.listing = .ok text) ∨
      ∃ error, outcome (compile input source scrutiny) = .error (.error error) := by
  cases houtcome : outcome (compile input source scrutiny) with
  | ok code =>
    obtain ⟨session, hread, rfl⟩ := readUnit_of_outcome houtcome
    have hchecked := Module.checked_of_check (readUnit_check hread)
    exact .inl ⟨_, _, rfl, hchecked.listing_eq⟩
  | error failure =>
    rw [outcome_compile] at houtcome
    split at houtcome
    · cases houtcome
    · next hread =>
      cases houtcome
      obtain ⟨error, rfl⟩ := readUnit_error hread
      exact .inr ⟨error, rfl⟩

theorem compileThen_of_ok {input source : String} {scrutiny : Scrutiny} {code : Module}
    {use : Module → Except Fault Product} {product : Product}
    (h : outcome (compile input source scrutiny) = .ok code) (huse : use code = .ok product) :
    (compileThen input source scrutiny use).product = product := by
  unfold compileThen
  unfold outcome at h
  split at h
  · next hrun =>
    cases h
    simp [hrun, huse]
  · cases h

theorem compileThen_of_error {input source : String} {scrutiny : Scrutiny} {error : Error}
    (h : outcome (compile input source scrutiny) = .error (.error error))
    (use : Module → Except Fault Product) :
    (compileThen input source scrutiny use).product = .failed error (some source) := by
  unfold compileThen
  unfold outcome at h
  split at h
  · cases h
  · next hrun =>
    cases h
    simp [hrun]

theorem Files.source_eq_ok {files : σ} {path source : String}
    (h : readText files path = .ok source) : Files.source files path = .ok source := by
  unfold Files.source
  rw [h]
  rfl

theorem Files.source_eq_error {files : σ} {path : String} {refusal : Refusal}
    (h : readText files path = .error refusal) :
    Files.source files path = .error (.inaccessible path refusal.message) := by
  unfold Files.source
  rw [h]
  rfl

namespace Command

variable {command : Command} {files : σ} {verbosity : Nat}

/-- The log of a command's work. -/
def log (command : Command) (files : σ) : List Log.Entry :=
  (command.answer (Files.source files command.input)).log

def product (command : Command) (files : σ) : Product :=
  (command.answer (Files.source files command.input)).product

theorem run_of_print {text : String} (h : command.product files = .print text) :
    command.run verbosity files =
      (⟨0, text, logText verbosity (command.log files)⟩, files) := by
  unfold product at h
  unfold run Reply.outcome log
  simp only [h]

theorem run_of_failed {error : Error} {source? : Option String}
    (h : command.product files = .failed error source?) :
    command.run verbosity files =
      (⟨1, "", logText verbosity (command.log files) ++ error.report source? ++ "\n"⟩, files) := by
  unfold product at h
  unfold run Reply.outcome log
  simp only [h]

theorem run_of_refused {path text : String} {refusal : Refusal}
    (h : command.product files = .save path text)
    (hwrite : writeText files path text = .error refusal) :
    command.run verbosity files = (⟨1, "", logText verbosity (command.log files) ++
      (Error.inaccessible path refusal.message).report none ++ "\n"⟩, files) := by
  unfold product at h
  unfold run Reply.outcome log
  simp only [h, hwrite]

theorem run_of_saved {path text : String} {after : σ}
    (h : command.product files = .save path text)
    (hwrite : writeText files path text = .ok after) :
    command.run verbosity files = (⟨0, "", logText verbosity (command.log files) ++
      "Compiled to: " ++ path ++ "\n"⟩, after) := by
  unfold product at h
  unfold run Reply.outcome log
  simp only [h, hwrite]

theorem product_of_unread {refusal : Refusal}
    (h : readText files command.input = .error refusal) :
    command.product files = .failed (.inaccessible command.input refusal.message) none := by
  rw [product, Files.source_eq_error h]
  rfl

theorem product_of_read {source : String} (h : readText files command.input = .ok source) :
    command.product files = (command.reply source).product := by
  rw [product, Files.source_eq_ok h]
  rfl

theorem reply_of_code {input source text : String} {scrutiny : Scrutiny} {code : Module}
    (hcode : outcome (BlockLang.compile input source scrutiny) = .ok code)
    (htext : code.listing = .ok text) (output? : Option String) :
    ((compile input output? scrutiny).reply source).product =
      if output? = some "-" then .print text else .save (target input output?) text := by
  refine compileThen_of_ok hcode ?_
  rw [htext]
  rfl

variable [LawfulFiles σ]

/-- The ways a run can end: all that was asked for is done, or nothing but the error is told. -/
theorem run_cases (command : Command) (verbosity : Nat) (files : σ) :
    (∃ stdout stderr after, command.run verbosity files = (⟨0, stdout, stderr⟩, after) ∧
      command.Succeeds files stdout after) ∨
    ∃ error source?, command.Fails files error source? ∧ command.run verbosity files =
      (⟨1, "", logText verbosity (command.log files) ++ error.report source? ++ "\n"⟩, files) := by
  cases hread : readText files command.input with
  | error refusal =>
    exact .inr ⟨_, _, .unread hread, run_of_failed (product_of_unread hread)⟩
  | ok source =>
    have hproduct := product_of_read hread
    cases command with
    | compile input output? scrutiny =>
      rcases outcome_compile_cases input source scrutiny with ⟨code, text, hcode, htext⟩ | ⟨error, hcode⟩
      · rw [reply_of_code hcode htext] at hproduct
        split at hproduct
        · next hprint =>
          subst hprint
          exact .inl ⟨_, _, _, run_of_print hproduct, .printed hread hcode htext⟩
        · next hfile =>
          cases hwrite : writeText files (target input output?) text with
          | ok after =>
            exact .inl ⟨_, _, _, run_of_saved hproduct hwrite,
              .saved hread hcode htext hfile (replaced_of_write hwrite)⟩
          | error refusal =>
            exact .inr ⟨_, _, .unwritten hread hcode htext hfile hwrite,
              run_of_refused hproduct hwrite⟩
      · rw [reply, compileThen_of_error hcode] at hproduct
        exact .inr ⟨_, _, .uncompiled hread hcode, run_of_failed hproduct⟩
    | check input =>
      rcases outcome_compile_cases input source .all with ⟨code, text, hcode, -⟩ | ⟨error, hcode⟩
      · rw [reply, compileThen_of_ok hcode rfl] at hproduct
        exact .inl ⟨_, _, _, run_of_print hproduct, .checked hread hcode⟩
      · rw [reply, compileThen_of_error hcode] at hproduct
        exact .inr ⟨_, _, .unchecked hread hcode, run_of_failed hproduct⟩
    | tokens input =>
      cases hscan : Compiler.scanAt (.top input) source with
      | ok lexemes =>
        rw [reply, hscan] at hproduct
        exact .inl ⟨_, _, _, run_of_print hproduct, .listed hread hscan⟩
      | error error =>
        rw [reply, hscan] at hproduct
        exact .inr ⟨_, _, .unscanned hread hscan, run_of_failed hproduct⟩

theorem exit_check {input : String} :
    ((check input).run verbosity files).1.exit = 0 ↔ ∃ source code,
      readText files input = .ok source ∧ outcome (BlockLang.compile input source .all) = .ok code := by
  rcases run_cases (check input) verbosity files with ⟨_, _, _, hrun, hdone⟩ | ⟨_, _, hfails, hrun⟩
  · cases hdone with
    | checked hread hcode => exact iff_of_true (by rw [hrun]) ⟨_, _, hread, hcode⟩
  · refine iff_of_false (by simp [hrun]) ?_
    rintro ⟨source, code, hread, hcode⟩
    cases hfails with
    | unread hunread => cases hread.symm.trans hunread
    | unchecked hread' hfailed =>
      cases hread.symm.trans hread'
      cases hcode.symm.trans hfailed

theorem exit_print {input : String} {scrutiny : Scrutiny} :
    ((compile input (some "-") scrutiny).run verbosity files).1.exit = 0 ↔ ∃ source code,
      readText files input = .ok source ∧
        outcome (BlockLang.compile input source scrutiny) = .ok code := by
  rcases run_cases (compile input (some "-") scrutiny) verbosity files with
    ⟨_, _, _, hrun, hdone⟩ | ⟨_, _, hfails, hrun⟩
  · cases hdone with
    | printed hread hcode htext => exact iff_of_true (by rw [hrun]) ⟨_, _, hread, hcode⟩
    | saved hread hcode htext hfile hreplaced => exact (hfile rfl).elim
  · refine iff_of_false (by simp [hrun]) ?_
    rintro ⟨source, code, hread, hcode⟩
    cases hfails with
    | unread hunread => cases hread.symm.trans hunread
    | uncompiled hread' hfailed =>
      cases hread.symm.trans hread'
      cases hcode.symm.trans hfailed
    | unwritten hread' hcode' htext hfile hwrite => exact (hfile rfl).elim

/-- What is checked makes no difference to what can be compiled. -/
theorem exit_check_iff_print {input : String} {louder : Nat} (scrutiny : Scrutiny) :
    ((check input).run verbosity files).1.exit = 0 ↔
      ((compile input (some "-") scrutiny).run louder files).1.exit = 0 := by
  rw [exit_check, exit_print]
  simp only [outcome_compile]

end Command

theorem run_eq {arguments : List String} {verbosity : Nat} {command : Command}
    (h : Request.ofArguments arguments = .run verbosity command) (files : σ) :
    run arguments files = command.run verbosity files := by
  unfold run
  rw [h]

/-- A run that fails changes no file, prints nothing and tells the error it failed with; a run
that succeeds does what its command is for. Checking a source succeeds exactly if printing its
code does, however little of the code is checked then. -/
theorem run_all_or_nothing [LawfulFiles σ] (files : σ) {arguments : List String} {verbosity : Nat}
    {command : Command} (h : Request.ofArguments arguments = .run verbosity command) :
    ((run arguments files).1.exit = 0 ∨ (run arguments files).1.exit = 1) ∧
    ((run arguments files).1.exit = 1 → (run arguments files).2 = files ∧
      (run arguments files).1.stdout = "" ∧
      ∃ error source?, command.Fails files error source? ∧ (run arguments files).1.stderr =
        logText verbosity (command.log files) ++ error.report source? ++ "\n") ∧
    ((run arguments files).1.exit = 0 →
      command.Succeeds files (run arguments files).1.stdout (run arguments files).2) ∧
    ∀ input, command = .check input → ∀ others louder scrutiny,
      Request.ofArguments others = .run louder (.compile input (some "-") scrutiny) →
        ((run arguments files).1.exit = 0 ↔ (run others files).1.exit = 0) := by
  have hagree : ∀ input, command = .check input → ∀ others louder scrutiny,
      Request.ofArguments others = .run louder (.compile input (some "-") scrutiny) →
        ((command.run verbosity files).1.exit = 0 ↔ (run others files).1.exit = 0) := by
    rintro input rfl others louder scrutiny hothers
    rw [run_eq hothers]
    exact Command.exit_check_iff_print scrutiny
  rw [run_eq h]
  rcases command.run_cases verbosity files with
    ⟨stdout, stderr, after, hrun, hdone⟩ | ⟨error, source?, hfails, hrun⟩
  · rw [hrun] at hagree ⊢
    exact ⟨.inl rfl, nofun, fun _ => hdone, hagree⟩
  · rw [hrun] at hagree ⊢
    exact ⟨.inr rfl, fun _ => ⟨rfl, rfl, error, source?, hfails, rfl⟩, nofun, hagree⟩

/-- A disk with one source on it. -/
def loneSource : Disk := Disk.makeFile {} "unit.nst" "PROCEDURE P; BEGIN END.".toUTF8

/-- A disk on which nothing may be written. -/
structure Sealed where
  disk : Disk

instance : Files Sealed where
  readText files := readText files.disk
  writeText _ _ _ := .error (.other "Permission denied (os error 13)")

instance : LawfulFiles Sealed where
  Spot := Route
  spot? files := files.disk.spot?
  node? files := files.disk.node?
  read_stands h := LawfulFiles.read_stands (σ := Disk) h
  write_reads h := nomatch h
  write_spares h := nomatch h

/-- Code that goes to its own file, code that cannot go where a folder is or where nothing may be
written, and a check. -/
theorem loneSource_all_or_nothing :
    loneSource.source "unit.nst" = .ok "PROCEDURE P; BEGIN END." ∧
    (Command.compile "unit.nst" none .outermost).Succeeds loneSource
      (run ["-v", "compile", "unit.nst"] loneSource).1.stdout
      (run ["-v", "compile", "unit.nst"] loneSource).2 ∧
    (run ["compile", "-o", ".", "unit.nst"] loneSource).1.exit = 1 ∧
    (run ["compile", "-o", ".", "unit.nst"] loneSource).2 = loneSource ∧
    (run ["-v", "compile", "unit.nst"] (Sealed.mk loneSource)).1.exit = 1 ∧
    (run ["-v", "compile", "unit.nst"] (Sealed.mk loneSource)).2 = Sealed.mk loneSource ∧
    (run ["check", "unit.nst"] loneSource).1.exit = 0 ∧
    (run ["compile", "--no-verify", "-o-", "unit.nst"] loneSource).1.exit = 0 := by
  have hsaves : Request.ofArguments ["-v", "compile", "unit.nst"] =
      .run 1 (.compile "unit.nst" none .outermost) := by decide +kernel
  have hmisses : Request.ofArguments ["compile", "-o", ".", "unit.nst"] =
      .run 0 (.compile "unit.nst" (some ".") .outermost) := by decide +kernel
  have hchecks : Request.ofArguments ["check", "unit.nst"] = .run 0 (.check "unit.nst") := by
    decide +kernel
  have hprints : Request.ofArguments ["compile", "--no-verify", "-o-", "unit.nst"] =
      .run 0 (.compile "unit.nst" (some "-") .none) := by decide +kernel
  have hread : loneSource.source "unit.nst" = .ok "PROCEDURE P; BEGIN END." := by decide +kernel
  have hsaved : (run ["-v", "compile", "unit.nst"] loneSource).1.exit = 0 := by decide +kernel
  have hmissed : (run ["compile", "-o", ".", "unit.nst"] loneSource).1.exit = 1 := by
    decide +kernel
  have hrefused : (run ["-v", "compile", "unit.nst"] (Sealed.mk loneSource)).1.exit = 1 := by
    decide +kernel
  have hchecked : (run ["check", "unit.nst"] loneSource).1.exit = 0 := by decide +kernel
  obtain ⟨-, -, hdone, -⟩ := run_all_or_nothing loneSource hsaves
  obtain ⟨-, hundone, -⟩ := run_all_or_nothing loneSource hmisses
  obtain ⟨-, hbarred, -⟩ := run_all_or_nothing (Sealed.mk loneSource) hsaves
  obtain ⟨-, -, -, hagree⟩ := run_all_or_nothing loneSource hchecks
  exact ⟨hread, hdone hsaved, hmissed, (hundone hmissed).1, hrefused, (hbarred hrefused).1, hchecked,
    (hagree _ rfl _ _ _ hprints).1 hchecked⟩

end BlockLang.Shell
