import JasminGen.Attempt
import JasminGen.ClassFile
import JasminGen.Code.Instr
import JasminGen.Code.Line
import JasminGen.Code.Pattern
import JasminGen.Config
import JasminGen.Context
import JasminGen.Error
import JasminGen.Lowering.Expr
import JasminGen.Lowering.Stmt
import JasminGen.Method
import JasminGen.Names
import JasminGen.Proofs.Accepts
import JasminGen.Proofs.Admissible
import JasminGen.Proofs.Compiles
import JasminGen.Proofs.Computes
import JasminGen.Proofs.Decoding
import JasminGen.Proofs.Depth
import JasminGen.Proofs.Emits
import JasminGen.Proofs.Executes
import JasminGen.Proofs.Exits
import JasminGen.Proofs.History
import JasminGen.Proofs.Independence
import JasminGen.Proofs.InitialValues
import JasminGen.Proofs.Labels
import JasminGen.Proofs.Layout
import JasminGen.Proofs.Logic
import JasminGen.Proofs.Lowers
import JasminGen.Proofs.Machine
import JasminGen.Proofs.Metering
import JasminGen.Proofs.Need
import JasminGen.Proofs.Operators
import JasminGen.Proofs.Output
import JasminGen.Proofs.Parallel
import JasminGen.Proofs.Parentheses
import JasminGen.Proofs.Reference
import JasminGen.Proofs.References
import JasminGen.Proofs.Renaming
import JasminGen.Proofs.Runs
import JasminGen.Proofs.Scope
import JasminGen.Proofs.Shape
import JasminGen.Proofs.Simulation
import JasminGen.Proofs.Symbol
import JasminGen.Proofs.Watermark
import JasminGen.Queue
import JasminGen.Registry
import JasminGen.Signature
import JasminGen.Sink
import JasminGen.StackMeter
import JasminGen.Syntax.DataType
import JasminGen.Syntax.Expr
import JasminGen.Syntax.Operator
import JasminGen.Syntax.Program
import JasminGen.Syntax.Stmt
import JasminGen.Variable
