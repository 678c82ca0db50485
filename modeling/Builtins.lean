import Builtins.Main
import Builtins.Host.Stock
import Builtins.Proofs.Generator.Shared
import Builtins.Proofs.Range.Agreement
import Builtins.Proofs.Sequence.Growing
import Builtins.Proofs.Mapping.Each
import Builtins.Proofs.Filtering.Kept
import Builtins.Proofs.Session.Frame
import Builtins.Proofs.Snapshot.Unambiguous
import Builtins.Proofs.Literal.ReadBack
import Builtins.Proofs.Loop.Ending
import Builtins.Proofs.CommandLine.Runs
import Builtins.Proofs.CommandLine.Grammar
import Builtins.Proofs.Iteration.Transparent
import Builtins.Proofs.Progression.Count
import Builtins.Proofs.Text.Unquoted
import Builtins.Proofs.Summing.Classes
import Builtins.Proofs.Iteration.Resumed
import Builtins.Proofs.Builtin.Refused
import Builtins.Proofs.Sequence.Sized
import Builtins.Proofs.Arithmetic.Regrouping
import Builtins.Proofs.Arithmetic.Comparison
import Builtins.Proofs.Snapshot.Exceptions
import Builtins.Proofs.Snapshot.Controls
import Builtins.Proofs.Literal.Offences
import Builtins.Proofs.Literal.Inverse
import Builtins.Proofs.Literal.Reference
import Builtins.Proofs.Session.Definitions
import Builtins.Proofs.Globals.Seeding
import Builtins.Proofs.Config.Settings
