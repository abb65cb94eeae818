import SsaGraph.Binary64.Style
import SsaGraph.Opcode
import SsaGraph.Predicate
import SsaGraph.Span
import SsaGraph.Ty

/-!
Functions: an arena of values and the instructions in program order.  Values
are named by handles, their positions in the arena.  Two literals with the same
value are two values, so a handle is the only notion of sameness.
-/

namespace SsaGraph

/-- Position of a value in the arena of its function.  Handles are stored in
thirty-two bits, and an arena is taken to have fewer than `2 ^ 32` values. -/
abbrev Handle := Nat

/-- What a value is. -/
inductive ValueKind where
  | argument (position : Nat)
  | float (value : Binary64)
  | int (value : UInt64)
  /-- A function that may be called, by its name. -/
  | symbol (name : String)
  /-- A basic block, by its label. -/
  | block (name : String)
  /-- The result of the instruction with this index. -/
  | result (instruction : Nat)
  deriving DecidableEq, Repr

structure Value where
  kind : ValueKind
  type : Ty
  name : Option String
  deriving DecidableEq, Repr

structure Instruction where
  opcode : Opcode
  operands : List Handle
  result : Option Handle
  /-- Set for comparisons. -/
  predicate : Option Predicate
  span : Span
  deriving DecidableEq, Repr

namespace Instruction

/-- The function a call goes to, its last operand. -/
def callee? (i : Instruction) : Option Handle :=
  if i.opcode = .call then i.operands.getLast? else none

/-- The operands of a call before the callee. -/
def callArguments (i : Instruction) : List Handle :=
  if i.opcode = .call then i.operands.dropLast else []

end Instruction

/-- Blocks are not kept apart: a label is a value, and the instructions of all
blocks stand in the order of the text. -/
structure Func where
  name : String
  values : Array Value
  args : List Handle
  instructions : Array Instruction
  deriving DecidableEq, Repr

/-! ## The calling convention

A lowered function takes the length and the address of the input, of the output
and of the message buffer. -/

namespace Convention

def input : Nat := 1
def output : Nat := 3
def message : Nat := 5
def arity : Nat := 6

def types : List Ty := [.int 64, .ptr, .int 64, .ptr, .int 64, .ptr]

def names : List String := ["len_input", "input", "len_output", "output", "len_msg", "msg"]

end Convention

namespace Func

/-- Append a value; its handle is the former size of the arena. -/
def pushValue (f : Func) (kind : ValueKind) (type : Ty) (name : Option String) : Func × Handle :=
  ({ f with values := f.values.push ⟨kind, type, name⟩ }, f.values.size)

/-- A function without instructions, with arguments of the given types and
names. -/
def withArgs (name : String) (args : List (Ty × String)) : Func where
  name := name
  values := (args.mapIdx fun i a => ⟨.argument i, a.1, some a.2⟩).toArray
  args := List.range args.length
  instructions := #[]

/-- A function without instructions that takes the conventional arguments. -/
def standard (name : String) : Func :=
  withArgs name (Convention.types.zip Convention.names)

instance : Inhabited Func := ⟨withArgs "" []⟩

def value? (f : Func) (v : Handle) : Option Value := f.values[v]?

def type? (f : Func) (v : Handle) : Option Ty := (f.value? v).map (·.type)

def int? (f : Func) (v : Handle) : Option UInt64 :=
  match f.value? v with
  | some ⟨.int n, _, _⟩ => some n
  | _ => none

def float? (f : Func) (v : Handle) : Option Binary64 :=
  match f.value? v with
  | some ⟨.float x, _, _⟩ => some x
  | _ => none

def symbol? (f : Func) (v : Handle) : Option String :=
  match f.value? v with
  | some ⟨.symbol name, _, _⟩ => some name
  | _ => none

/-- A value as messages show it: a literal by its text, a symbol as `@name` and
anything else as `%name`, or by its handle when it has no name. -/
def display (f : Func) (v : Handle) : String :=
  match f.value? v with
  | none => s!"<invalid {v}>"
  | some ⟨.float x, _, _⟩ => x.text
  | some ⟨.int n, _, _⟩ => toString n
  | some ⟨.symbol name, _, _⟩ => s!"@{name}"
  | some ⟨_, _, some name⟩ => s!"%{name}"
  | some ⟨_, _, none⟩ => s!"%{v}"

end Func
end SsaGraph
