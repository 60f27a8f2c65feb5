import MiniLogo.Interpreter.Evaluate
import MiniLogo.CommandLine.Program
import MiniLogo.Main
import MiniLogo.Proofs.Evaluation.Congruence
import MiniLogo.Proofs.Evaluation.Consumption
import MiniLogo.Proofs.Evaluation.Reads
import MiniLogo.Proofs.Evaluation.Drive
import MiniLogo.Proofs.Evaluation.InputFailure
import MiniLogo.Proofs.Evaluation.Fuel
import MiniLogo.Proofs.Evaluation.Sequencing
import MiniLogo.Proofs.Text.Utf8
import MiniLogo.Proofs.Text.WellNested
import MiniLogo.Proofs.Text.Pieces
import MiniLogo.Proofs.Evaluation.Bodies
import MiniLogo.Proofs.Text.Joined
import MiniLogo.Proofs.Evaluation.Sound
import MiniLogo.Proofs.Evaluation.SoundBuiltins
import MiniLogo.Proofs.Evaluation.Watched
import MiniLogo.Proofs.Evaluation.Lists
import MiniLogo.Proofs.Evaluation.Replies
import MiniLogo.Proofs.Evaluation.Uniform
import MiniLogo.Proofs.Evaluation.Growth
import MiniLogo.Proofs.Evaluation.Halting
import MiniLogo.Proofs.Evaluation.Operands
import MiniLogo.Proofs.Evaluation.Exit
import MiniLogo.Proofs.Evaluation.LimitedOutput
import MiniLogo.Proofs.Evaluation.Messages
import MiniLogo.Proofs.Evaluation.Tame
import MiniLogo.Proofs.Evaluation.Termination
import MiniLogo.Proofs.CommandLine.Drivers
import MiniLogo.Proofs.Text.Groups
import MiniLogo.Proofs.Text.Elements
import MiniLogo.Proofs.Value.Parts
import MiniLogo.Proofs.Value.Functions
import MiniLogo.Proofs.Evaluation.Printing
import MiniLogo.Proofs.Evaluation.Storable
import MiniLogo.Proofs.Evaluation.Balancing
import MiniLogo.Proofs.Evaluation.Settling
import MiniLogo.Proofs.Evaluation.OwnFaults
import MiniLogo.Proofs.Evaluation.Targets
import MiniLogo.Proofs.Evaluation.Variables
import MiniLogo.Proofs.Evaluation.Placeholders
import MiniLogo.Proofs.Evaluation.Filling
import MiniLogo.Proofs.Evaluation.Erased
import MiniLogo.Proofs.Value.Procedures
import MiniLogo.Proofs.Evaluation.Readouts
import MiniLogo.Proofs.Evaluation.Numbers
import MiniLogo.Proofs.Evaluation.Truncation
import MiniLogo.Proofs.Text.Partition
import MiniLogo.Proofs.CommandLine.Arguments
import MiniLogo.Proofs.Value.Comparison
import MiniLogo.Proofs.Text.GroupPartition
import MiniLogo.Proofs.Interpreter.Frames
