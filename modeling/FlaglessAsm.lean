import FlaglessAsm.CommandLine.Arguments
import FlaglessAsm.CommandLine.Assemble
import FlaglessAsm.CommandLine.Files
import FlaglessAsm.CommandLine.Inspect
import FlaglessAsm.CommandLine.Outcome
import FlaglessAsm.Config.Basic
import FlaglessAsm.Config.Document
import FlaglessAsm.Directive.Basic
import FlaglessAsm.Directive.Document
import FlaglessAsm.Error
import FlaglessAsm.Expansion
import FlaglessAsm.Image.Basic
import FlaglessAsm.Image.ControlFlow
import FlaglessAsm.Image.Listing
import FlaglessAsm.Image.Report
import FlaglessAsm.Image.Section
import FlaglessAsm.Instruction.Basic
import FlaglessAsm.Instruction.BitString
import FlaglessAsm.Instruction.Decode
import FlaglessAsm.Instruction.Disassembly
import FlaglessAsm.Instruction.Encode
import FlaglessAsm.Json.Number
import FlaglessAsm.Json.Reader
import FlaglessAsm.Json.Value
import FlaglessAsm.Json.Writer
import FlaglessAsm.Machine
import FlaglessAsm.Main
import FlaglessAsm.Mnemonic
import FlaglessAsm.Operand.Basic
import FlaglessAsm.Operand.Literal
import FlaglessAsm.Operand.Nesting
import FlaglessAsm.Operand.Printer
import FlaglessAsm.Operand.Reader
import FlaglessAsm.Program.Basic
import FlaglessAsm.Program.Listing
import FlaglessAsm.Program.Report
import FlaglessAsm.Register
import FlaglessAsm.Session.Basic
import FlaglessAsm.Session.Emission
import FlaglessAsm.Session.Placement
import FlaglessAsm.Session.Resolution
import FlaglessAsm.Source.Line
import FlaglessAsm.Source.Statement
import FlaglessAsm.SymbolTable
import FlaglessAsm.Text.Blank
import FlaglessAsm.Text.Lines
import FlaglessAsm.Text.Numeral
import FlaglessAsm.Word
import FlaglessAsm.Proofs.Labels
import FlaglessAsm.Proofs.Emission
import FlaglessAsm.Proofs.Patching
import FlaglessAsm.Proofs.Placement
import FlaglessAsm.Proofs.Assembly
import FlaglessAsm.Proofs.Encoding
import FlaglessAsm.Proofs.Unresolved
import FlaglessAsm.Proofs.WellFormed
import FlaglessAsm.Proofs.ControlFlow
import FlaglessAsm.Proofs.Stream
import FlaglessAsm.Proofs.DataAccess
import FlaglessAsm.Proofs.CompareLiveness
import FlaglessAsm.Proofs.Arrangement
import FlaglessAsm.Proofs.Padding
import FlaglessAsm.Proofs.Relocation
import FlaglessAsm.Proofs.Changes
import FlaglessAsm.Proofs.Calls
import FlaglessAsm.Proofs.DeferredBranches
import FlaglessAsm.Proofs.Numerals
import FlaglessAsm.Proofs.Pieces
import FlaglessAsm.Proofs.DirectiveText
import FlaglessAsm.Proofs.FieldRows
import FlaglessAsm.Proofs.CanonicalWords
import FlaglessAsm.Proofs.ProgramImage
import FlaglessAsm.Proofs.Listings
import FlaglessAsm.Proofs.Reading
import FlaglessAsm.Proofs.SourceMeaning
import FlaglessAsm.Proofs.RegisterLists
import FlaglessAsm.Proofs.BlockTransfers
import FlaglessAsm.Proofs.OperandText
import FlaglessAsm.Proofs.Reassembly
import FlaglessAsm.Proofs.StrictImages
import FlaglessAsm.Proofs.SessionData
import FlaglessAsm.Proofs.LineParts
import FlaglessAsm.Proofs.RegisterDiscipline
import FlaglessAsm.Proofs.SingleLines
import FlaglessAsm.Proofs.ImmediateText
import FlaglessAsm.Proofs.Immediates
import FlaglessAsm.Proofs.NumberLiterals
import FlaglessAsm.Proofs.OperandLists
import FlaglessAsm.Proofs.ErrorLines
import FlaglessAsm.Proofs.LetterCase
import FlaglessAsm.Proofs.Relining
import FlaglessAsm.Proofs.Restyling
import FlaglessAsm.Proofs.BitRows
import FlaglessAsm.Proofs.Sections
import FlaglessAsm.Proofs.TargetNames
import FlaglessAsm.Proofs.TopLevelSplit
