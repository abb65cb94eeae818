/-!
Operators of a graph: their names, and what their arguments mean.
-/

namespace SsaGraph

/-- Operator tags.  `atom` takes the index of a name, a number of results, a
number of arguments and then the arguments; `atom4` has a call number behind the
name; `discrete` takes the index of a name and one argument. -/
inductive Op where
  | abs | acos | acosh | add | asin | asinh | atan | atanh | atom | atom4 | azmul | cexpEq
  | cexpLe | cexpLt | compEq | compLe | compLt | compNe | cos | cosh | discrete | div | erf
  | erfc | exp | expm1 | log1p | log | mul | neg | pow | print | sign | sin | sinh | sqrt | sub
  | sum | tan | tanh
  deriving DecidableEq, Repr

namespace Op

/-- All operators, in the order of their codes. -/
def all : List Op :=
  [abs, acos, acosh, add, asin, asinh, atan, atanh, atom, atom4, azmul, cexpEq, cexpLe, cexpLt,
   compEq, compLe, compLt, compNe, cos, cosh, discrete, div, erf, erfc, exp, expm1, log1p, log,
   mul, neg, pow, print, sign, sin, sinh, sqrt, sub, sum, tan, tanh]

def name : Op → String
  | abs => "abs"
  | acos => "acos"
  | acosh => "acosh"
  | add => "add"
  | asin => "asin"
  | asinh => "asinh"
  | atan => "atan"
  | atanh => "atanh"
  | atom => "atom"
  | atom4 => "atom4"
  | azmul => "azmul"
  | cexpEq => "cexp_eq"
  | cexpLe => "cexp_le"
  | cexpLt => "cexp_lt"
  | compEq => "comp_eq"
  | compLe => "comp_le"
  | compLt => "comp_lt"
  | compNe => "comp_ne"
  | cos => "cos"
  | cosh => "cosh"
  | discrete => "discrete"
  | div => "div"
  | erf => "erf"
  | erfc => "erfc"
  | exp => "exp"
  | expm1 => "expm1"
  | log1p => "log1p"
  | log => "log"
  | mul => "mul"
  | neg => "neg"
  | pow => "pow"
  | print => "print"
  | sign => "sign"
  | sin => "sin"
  | sinh => "sinh"
  | sqrt => "sqrt"
  | sub => "sub"
  | sum => "sum"
  | tan => "tan"
  | tanh => "tanh"

def ofName? (name : String) : Option Op := all.find? fun op => op.name == name

theorem ofName?_name (op : Op) : ofName? op.name = some op := by
  cases op <;> decide

/-- Position in the list of all operators. -/
def code (op : Op) : Nat := all.idxOf op

theorem getElem?_code (op : Op) : all[op.code]? = some op := by
  cases op <;> decide

/-- Comparisons record a condition and produce no node. -/
def isComparison : Op → Bool
  | compEq | compLe | compLt | compNe => true
  | _ => false

/-- Number of nodes produced, given all arguments. -/
def resultCount (op : Op) (args : List Nat) : Nat :=
  match op with
  | compEq | compLe | compLt | compNe | print => 0
  | atom => args[1]?.getD 0
  | atom4 => args[2]?.getD 0
  | _ => 1

/-- Number of leading arguments that are not nodes. -/
def headSize : Op → Nat
  | atom => 3
  | atom4 => 4
  | discrete => 1
  | _ => 0

/-! ## Calls -/

/-- The name by which a call reaches the operator, for operators that can be
called. -/
def callee? : Op → Option String
  | acos => some "acos"
  | acosh => some "acosh"
  | asin => some "asin"
  | asinh => some "asinh"
  | atan => some "atan"
  | atanh => some "atanh"
  | cos => some "cos"
  | cosh => some "cosh"
  | erf => some "erf"
  | erfc => some "erfc"
  | exp => some "exp"
  | expm1 => some "expm1"
  | log1p => some "log1p"
  | log => some "log"
  | pow => some "pow"
  | sin => some "sin"
  | sinh => some "sinh"
  | sqrt => some "sqrt"
  | tan => some "tan"
  | tanh => some "tanh"
  | azmul => some "cppad_link_azmul"
  | abs => some "cppad_link_fabs"
  | sign => some "cppad_link_sign"
  | _ => none

/-- The operator that a call of the given name reaches. -/
def ofCallee? (name : String) : Option Op := all.find? fun op => op.callee? == some name

theorem callee?_of_ofCallee? {name : String} {op : Op} (h : ofCallee? name = some op) :
    op.callee? = some name := by
  simpa using List.find?_some h

end Op

/-! ## Reserved names -/

/-- Calls of names with this start are discrete functions of one argument. -/
def discreteStart : String := "discrete_"

/-- Calls of names with this start are atomic functions on buffers. -/
def atomicStart : String := "atomic_"

/-- What follows `start` in a name, if something does. -/
def reservedRest? (start name : String) : Option String :=
  if start.toList.isPrefixOf name.toList && start.length < name.length then
    some (String.ofList (name.toList.drop start.length))
  else none

end SsaGraph
