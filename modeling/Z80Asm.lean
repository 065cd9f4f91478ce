import Z80Asm.Main
import Z80Asm.Proofs.Builder.Completeness
import Z80Asm.Proofs.Program.Confinement
import Z80Asm.Proofs.Program.Hygiene
import Z80Asm.Proofs.Expr.Inquiry
import Z80Asm.Proofs.Expr.Shape
import Z80Asm.Proofs.Program.Course
import Z80Asm.Proofs.Expr.Circularity
import Z80Asm.Proofs.Expr.Termination
import Z80Asm.Proofs.Expr.Recursion
import Z80Asm.Proofs.Expr.Folding
import Z80Asm.Proofs.Program.Evaluation
import Z80Asm.Proofs.Program.Runs
import Z80Asm.Proofs.Scope.Past
import Z80Asm.Proofs.Program.Horizon
import Z80Asm.Proofs.Image.HexRoundTrip
import Z80Asm.Proofs.Block.Balance
import Z80Asm.Proofs.Cpu.Decoding
import Z80Asm.Proofs.Cpu.Ranges
import Z80Asm.Proofs.Line.Spelling
import Z80Asm.Proofs.Program.Naming
import Z80Asm.Proofs.Scope.Listed
import Z80Asm.Proofs.Line.Definition
import Z80Asm.Proofs.Program.Relisting
import Z80Asm.Proofs.Scope.History
import Z80Asm.Proofs.Program.Instances
import Z80Asm.Proofs.Program.Expansions
import Z80Asm.Proofs.Program.Spaces
import Z80Asm.Proofs.Program.Causes
import Z80Asm.Proofs.Program.Reports
import Z80Asm.Proofs.Program.Placing
import Z80Asm.Proofs.Program.Contexts
import Z80Asm.Proofs.Program.Addresses
import Z80Asm.Proofs.Program.Inclusion
import Z80Asm.Proofs.Line.Printing
import Z80Asm.Proofs.Line.RoundTrip
import Z80Asm.Proofs.Program.Sections
import Z80Asm.Proofs.Program.Filling
import Z80Asm.Proofs.Program.Instructions
import Z80Asm.Proofs.Program.Rearranging
import Z80Asm.Proofs.Expr.Deepening
import Z80Asm.Proofs.Scope.Dotted
import Z80Asm.Proofs.Scope.Hiding
import Z80Asm.Proofs.Scope.Paths
import Z80Asm.Proofs.Cpu.Symmetry
import Z80Asm.Proofs.Program.DataStatements
import Z80Asm.Proofs.Program.Overlay
import Z80Asm.Proofs.Program.Lineage
import Z80Asm.Proofs.Line.Strings
import Z80Asm.Proofs.Image.Records
import Z80Asm.Proofs.Image.Damage
import Z80Asm.Proofs.Line.Literals
import Z80Asm.Proofs.Line.Layout
import Z80Asm.Proofs.Error.Marking
import Z80Asm.Proofs.Image.Memory
import Z80Asm.Proofs.Builder.Operands
import Z80Asm.Proofs.Program.Drains
