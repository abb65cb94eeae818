import SsaGraph.Func
import SsaGraph.Table

/-!
Building a function instruction by instruction.  Each literal gets a value of
its own; a symbol and a label have one value however often they are named.
-/

namespace SsaGraph

structure Builder where
  func : Func
  symbols : Table String Handle
  labels : Table String Handle
  /-- The place given to instructions pushed from now on. -/
  span : Span
  deriving Inhabited

namespace Builder

def start (f : Func) : Builder := ⟨f, .empty, .empty, .absent⟩

def literal (b : Builder) (kind : ValueKind) (type : Ty) : Builder × Handle :=
  let (f, v) := b.func.pushValue kind type none
  ({ b with func := f }, v)

def float (b : Builder) (x : Binary64) : Builder × Handle := b.literal (.float x) .double

def int (b : Builder) (bits : Nat) (n : UInt64) : Builder × Handle := b.literal (.int n) (.int bits)

def symbol (b : Builder) (name : String) : Builder × Handle :=
  match b.symbols.get? name with
  | some v => (b, v)
  | none =>
    let (f, v) := b.func.pushValue (.symbol name) .ptr (some name)
    ({ b with func := f, symbols := b.symbols.insert name v }, v)

/-- A label may be named before its block. -/
def label (b : Builder) (name : String) : Builder × Handle :=
  match b.labels.get? name with
  | some v => (b, v)
  | none =>
    let (f, v) := b.func.pushValue (.block name) .label (some name)
    ({ b with func := f, labels := b.labels.insert name v }, v)

/-- Append an instruction.  It has a result unless the type is `void`. -/
def push (b : Builder) (opcode : Opcode) (operands : List Handle) (type : Ty)
    (predicate : Option Predicate) (name : Option String) : Builder × Option Handle :=
  let index := b.func.instructions.size
  let (f, result) :=
    if type = .void then (b.func, none)
    else
      let (f, v) := b.func.pushValue (.result index) type name
      (f, some v)
  let inst : Instruction := ⟨opcode, operands, result, predicate, b.span⟩
  ({ b with func := { f with instructions := f.instructions.push inst } }, result)

end Builder
end SsaGraph
