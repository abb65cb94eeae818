import SsaGraph.Text.Digits

/-!
Types of values.
-/

namespace SsaGraph

inductive Ty where
  | void
  /-- 64-bit IEEE float. -/
  | double
  /-- 32-bit IEEE float. -/
  | float
  | int (bits : Nat)
  | ptr
  | label
  | array (length : Nat) (element : Ty)
  deriving DecidableEq, Repr, Inhabited

namespace Ty

def text : Ty → String
  | void => "void"
  | double => "double"
  | float => "float"
  | int bits => s!"i{bits}"
  | ptr => "ptr"
  | label => "label"
  | array length element => s!"[{length} x {element.text}]"

def isDouble : Ty → Bool
  | double => true
  | _ => false

def isInt : Ty → Bool
  | int _ => true
  | _ => false

def isPtr : Ty → Bool
  | ptr => true
  | _ => false

def isLabel : Ty → Bool
  | label => true
  | _ => false

/-- Types whose literals are floating point numbers. -/
def isFloating : Ty → Bool
  | double | float => true
  | _ => false

/-- Width of an integer type written `iN`, with `N` positive and below
`2 ^ 32`. -/
def intWidth? (word : String) : Option Nat :=
  match word.toList with
  | 'i' :: digits => (Digits.signedBelow? (1 <<< 32) digits).filter (0 < ·)
  | _ => none

/-- The type a single word names. -/
def ofWord? (word : String) : Option Ty :=
  match word with
  | "double" => some double
  | "float" => some float
  | "void" => some void
  | "ptr" => some ptr
  | "label" => some label
  | _ => (intWidth? word).map int

end Ty
end SsaGraph
