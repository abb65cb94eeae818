import SsaGraph.Func
import SsaGraph.Op

/-!
Comparisons that wait for the instruction that uses them.
-/

namespace SsaGraph

structure Comparison where
  predicate : Predicate
  left : Handle
  right : Handle
  deriving DecidableEq, Repr

namespace Comparison

/-- The operator that records the comparison when it is combined into a return
code.  It holds when the comparison fails, and takes the operands swapped. -/
def recording? (c : Comparison) : Option Op :=
  match c.predicate with
  | .float .one => some .compEq
  | .float .olt => some .compLe
  | .float .ole => some .compLt
  | .float .oeq => some .compNe
  | _ => none

/-- The conditional expression that the comparison selects with. -/
def selecting? (c : Comparison) : Option Op :=
  match c.predicate with
  | .float .oeq => some .cexpEq
  | .float .ole => some .cexpLe
  | .float .olt => some .cexpLt
  | _ => none

end Comparison
end SsaGraph
