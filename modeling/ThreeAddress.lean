import ThreeAddress.Double
import ThreeAddress.Decimal.Shortest
import ThreeAddress.Decimal.Layout
import ThreeAddress.Text.Visible
import ThreeAddress.Text.Quoted
import ThreeAddress.Constant
import ThreeAddress.Source.Syntax
import ThreeAddress.Code.Operator
import ThreeAddress.Code.Operand
import ThreeAddress.Code.Operand.Text
import ThreeAddress.Code.Instr
import ThreeAddress.Code.TempSupply
import ThreeAddress.Code.VarTable
import ThreeAddress.Code.CodeUnit
import ThreeAddress.Code.Verify
import ThreeAddress.Log
import ThreeAddress.Lowering.Config
import ThreeAddress.Lowering.Rejection
import ThreeAddress.Lowering.Session
import ThreeAddress.Lowering.Basic
import ThreeAddress.Pipeline.SourceUnit
import ThreeAddress.Pipeline.Basic
import ThreeAddress.Proofs.Decimal.Characters
import ThreeAddress.Proofs.Decimal.Rounding
import ThreeAddress.Proofs.Decimal.Reading
import ThreeAddress.Proofs.Text.Unquote
import ThreeAddress.Proofs.Constants
import ThreeAddress.Proofs.Code.VarTable
import ThreeAddress.Proofs.Code.Interning
import ThreeAddress.Proofs.Code.WellFormed
import ThreeAddress.Proofs.Lowering.Growth
import ThreeAddress.Proofs.Lowering.Verified
import ThreeAddress.Proofs.Lowering.IndexBase
import ThreeAddress.Proofs.Meaning.Source
import ThreeAddress.Proofs.Meaning.Machine
import ThreeAddress.Proofs.Meaning.Preservation
import ThreeAddress.Proofs.Pipeline.Runs
import ThreeAddress.Proofs.Pipeline.Stages
import ThreeAddress.Proofs.Pipeline.Incremental
import ThreeAddress.Proofs.Meaning.Safety
import ThreeAddress.Proofs.Code.Reader
import ThreeAddress.Proofs.Code.Grouping
import ThreeAddress.Proofs.Code.Lexer
import ThreeAddress.Proofs.Code.Dump
import ThreeAddress.Proofs.Code.Precedence
import ThreeAddress.Proofs.Code.FirstFault
import ThreeAddress.Proofs.Lowering.Defects
import ThreeAddress.Proofs.Lowering.Residue
import ThreeAddress.Proofs.Pipeline.Pass
import ThreeAddress.Proofs.Code.Temps
import ThreeAddress.Proofs.Lowering.Accepted
import ThreeAddress.Proofs.Code.Unfolding
import ThreeAddress.Proofs.Lowering.Relocation
import ThreeAddress.Proofs.Lowering.Numbering
import ThreeAddress.Proofs.Lowering.StackOrder
import ThreeAddress.Proofs.Lowering.Inlining
import ThreeAddress.Proofs.Lowering.FirstUse
import ThreeAddress.Proofs.Pipeline.Records
