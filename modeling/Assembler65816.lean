import Assembler65816.Assembly.Run
import Assembler65816.CommandLine.Options
import Assembler65816.Expression.Depth
import Assembler65816.Image.Format
import Assembler65816.Main
import Assembler65816.Program.FileTree
import Assembler65816.Program.Run
import Assembler65816.Proofs.Convergence
import Assembler65816.Proofs.FixedPoint
import Assembler65816.Proofs.Replay
import Assembler65816.Proofs.Signals
import Assembler65816.Proofs.SweepOrder
import Assembler65816.Proofs.Truncation
import Assembler65816.Proofs.Provisional
import Assembler65816.Proofs.Approach
import Assembler65816.Proofs.Budgets
import Assembler65816.Proofs.Grammar
import Assembler65816.Proofs.HexReading
import Assembler65816.Proofs.Location
import Assembler65816.Proofs.Partitions
import Assembler65816.Proofs.Scanning
import Assembler65816.Proofs.Evaluation
import Assembler65816.Proofs.Monotonicity
import Assembler65816.Proofs.Blame
import Assembler65816.Proofs.Window
import Assembler65816.Proofs.ByteScanners
import Assembler65816.Proofs.ByteLines
import Assembler65816.Proofs.ByteItems
import Assembler65816.Proofs.ByteTokens
import Assembler65816.Proofs.ByteExpressions
import Assembler65816.Proofs.ByteOperands
import Assembler65816.Proofs.ByteStatements
import Assembler65816.Proofs.ByteStores
import Assembler65816.Proofs.Crash
import Assembler65816.Proofs.PassNumbers
import Assembler65816.Proofs.StoredDefinitions
import Assembler65816.Proofs.Probes
import Assembler65816.Proofs.StringData
import Assembler65816.Proofs.Branches
import Assembler65816.Proofs.Modes
import Assembler65816.Proofs.Guesses
import Assembler65816.Proofs.Hints
import Assembler65816.Proofs.Contents
import Assembler65816.Proofs.Cosmetics
import Assembler65816.Proofs.Stores
import Assembler65816.Proofs.OperandForms
import Assembler65816.Proofs.PolishTrees
import Assembler65816.Proofs.OperandPlaces
import Assembler65816.Proofs.Groups
import Assembler65816.Proofs.CodeLines
import Assembler65816.Proofs.Duplicates
import Assembler65816.Proofs.TopLevelCommas
import Assembler65816.Proofs.ArgumentReading
import Assembler65816.Proofs.Filters
