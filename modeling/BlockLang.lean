import BlockLang.Place
import BlockLang.Text.Unprintable
import BlockLang.Text.Basic
import BlockLang.Numeral
import BlockLang.IntType
import BlockLang.Token
import BlockLang.Token.Scan
import BlockLang.Failure
import BlockLang.Report
import BlockLang.Code.Instr
import BlockLang.Code.Fresh
import BlockLang.Code.Module
import BlockLang.Code.Listing
import BlockLang.Code.Check
import BlockLang.Code.Builder
import BlockLang.Names.Symbol
import BlockLang.Names.Forest
import BlockLang.Log
import BlockLang.Session
import BlockLang.Tree
import BlockLang.Tree.Read
import BlockLang.Emit
import BlockLang.Compile
import BlockLang.Shell.Path
import BlockLang.Shell.Disk
import BlockLang.Shell.Arguments
import BlockLang.Shell.Run
import BlockLang.Main
import BlockLang.Proofs.Ends
import BlockLang.Proofs.Code.Fresh
import BlockLang.Proofs.Code.Changes
import BlockLang.Proofs.Code.Store
import BlockLang.Proofs.Code.Counting
import BlockLang.Proofs.Code.Made
import BlockLang.Proofs.Code.Straight
import BlockLang.Proofs.Code.Draft
import BlockLang.Proofs.Code.Neat
import BlockLang.Proofs.Code.Steps
import BlockLang.Proofs.Code.Layout
import BlockLang.Proofs.Code.Machine
import BlockLang.Proofs.Code.Computes
import BlockLang.Proofs.Code.Running
import BlockLang.Proofs.Session.Runs
import BlockLang.Proofs.Session.Sound
import BlockLang.Proofs.Session.Safety
import BlockLang.Proofs.Tree.Declarable
import BlockLang.Proofs.Tree.Grammar
import BlockLang.Proofs.Tree.Readers
import BlockLang.Proofs.Tree.Derivation
import BlockLang.Proofs.Tree.Acceptance
import BlockLang.Proofs.Tree.Whole
import BlockLang.Proofs.Core.Program
import BlockLang.Proofs.Core.Resolve
import BlockLang.Proofs.Core.Build
import BlockLang.Proofs.Core.Typing
import BlockLang.Proofs.Core.Writing
import BlockLang.Proofs.Core.Meaning
import BlockLang.Proofs.Core.Arithmetic
import BlockLang.Proofs.Core.Evaluation
import BlockLang.Proofs.Core.Placement
import BlockLang.Proofs.Core.Simulation
import BlockLang.Proofs.Core.Scene
import BlockLang.Proofs.Core.Agreement
import BlockLang.Proofs.Core.Translation
import BlockLang.Proofs.Core.Procedures
import BlockLang.Proofs.Intake
import BlockLang.Proofs.Session.Outline
import BlockLang.Proofs.Session.Laying
import BlockLang.Proofs.Session.Gains
import BlockLang.Proofs.Session.Items
import BlockLang.Proofs.Session.Returns
import BlockLang.Proofs.Balance
import BlockLang.Proofs.Unit
import BlockLang.Proofs.Checking
import BlockLang.Proofs.Registers
import BlockLang.Proofs.Preservation
import BlockLang.Proofs.Token.Spelling
import BlockLang.Proofs.Token.Scanned
import BlockLang.Proofs.Positions
import BlockLang.Proofs.Rendering
import BlockLang.Proofs.Recognition
import BlockLang.Proofs.Core.Access
import BlockLang.Proofs.Lexical.Marks
import BlockLang.Proofs.Lexical.Regions
import BlockLang.Proofs.Lexical.Frames
import BlockLang.Proofs.Lexical.Tracking
import BlockLang.Proofs.Lexical.Nesting
import BlockLang.Proofs.Scoping
import BlockLang.Proofs.Naming
import BlockLang.Proofs.Tree.Unplaced
import BlockLang.Proofs.Session.Overlooks
import BlockLang.Proofs.Spacing
import BlockLang.Proofs.Names.Lookup
import BlockLang.Proofs.Fallible
import BlockLang.Proofs.Code.Checked
import BlockLang.Proofs.Code.Control
import BlockLang.Proofs.Text.Joining
import BlockLang.Proofs.Code.Wording
import BlockLang.Proofs.Code.Legible
import BlockLang.Proofs.Listing
import BlockLang.Proofs.Shell.Files
import BlockLang.Proofs.Shell.Commands
import BlockLang.Proofs.Folding
import BlockLang.Proofs.Operands
import BlockLang.Proofs.Shell.Sources
import BlockLang.Proofs.Session.Reached
import BlockLang.Proofs.Session.Met
import BlockLang.Proofs.Session.Crafted
import BlockLang.Proofs.Session.Detour
import BlockLang.Proofs.Core.Branching
import BlockLang.Proofs.Flow
import BlockLang.Proofs.Expressions
import BlockLang.Proofs.Lexical.Spots
import BlockLang.Proofs.Lexical.Blame
import BlockLang.Proofs.Session.Titles
import BlockLang.Proofs.Tree.Standing
import BlockLang.Proofs.Pointing
import BlockLang.Proofs.Tree.Mistakes
import BlockLang.Proofs.Tree.Predicting
import BlockLang.Proofs.Tree.Tracing
import BlockLang.Proofs.Session.Halting
import BlockLang.Proofs.Refusal
import BlockLang.Proofs.Numeral
import BlockLang.Proofs.Token.Pieces
import BlockLang.Proofs.Constants
import BlockLang.Proofs.Text.Lines
import BlockLang.Proofs.Excerpts
import BlockLang.Proofs.Mirrored
import BlockLang.Proofs.Leaves
