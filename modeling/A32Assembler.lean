import A32Assembler.Main
import A32Assembler.Proofs.Assembler.Frame
import A32Assembler.Proofs.Assembler.Ownership
import A32Assembler.Proofs.Assembler.Scopes
import A32Assembler.Proofs.Branch.Displacement
import A32Assembler.Proofs.Branch.Field
import A32Assembler.Proofs.Branch.Landing
import A32Assembler.Proofs.Buffer.Words
import A32Assembler.Proofs.Calculator.Allocation
import A32Assembler.Proofs.Calculator.Function
import A32Assembler.Proofs.Calculator.Parsing
import A32Assembler.Proofs.Calculator.Printing
import A32Assembler.Proofs.Decoding.Address
import A32Assembler.Proofs.Decoding.Constant
import A32Assembler.Proofs.Decoding.Layout
import A32Assembler.Proofs.Decoding.Operand
import A32Assembler.Proofs.Features.Description
import A32Assembler.Proofs.Float.Widening
import A32Assembler.Proofs.Sequence.FloatConstant
import A32Assembler.Proofs.Sequence.Offset
import A32Assembler.Proofs.Sequence.Refinement
import A32Assembler.Proofs.Sequence.Scratch
import A32Assembler.Proofs.Sequence.Shortest
import A32Assembler.Script
