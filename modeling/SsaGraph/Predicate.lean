/-!
Comparison predicates.
-/

namespace SsaGraph

/-- Floating point predicates: ordered (`o…`) ones are false and unordered
(`u…`) ones true when an operand is not a number. -/
inductive FloatPredicate where
  | never | oeq | ogt | oge | olt | ole | one | ord
  | uno | ueq | ugt | uge | ult | ule | une | always
  deriving DecidableEq, Repr

namespace FloatPredicate

def name : FloatPredicate → String
  | never => "false"
  | oeq => "oeq"
  | ogt => "ogt"
  | oge => "oge"
  | olt => "olt"
  | ole => "ole"
  | one => "one"
  | ord => "ord"
  | uno => "uno"
  | ueq => "ueq"
  | ugt => "ugt"
  | uge => "uge"
  | ult => "ult"
  | ule => "ule"
  | une => "une"
  | always => "true"

def ofName? : String → Option FloatPredicate
  | "false" => some never
  | "oeq" => some oeq
  | "ogt" => some ogt
  | "oge" => some oge
  | "olt" => some olt
  | "ole" => some ole
  | "one" => some one
  | "ord" => some ord
  | "uno" => some uno
  | "ueq" => some ueq
  | "ugt" => some ugt
  | "uge" => some uge
  | "ult" => some ult
  | "ule" => some ule
  | "une" => some une
  | "true" => some always
  | _ => none

end FloatPredicate

inductive IntPredicate where
  | eq | ne | ugt | uge | ult | ule | sgt | sge | slt | sle
  deriving DecidableEq, Repr

namespace IntPredicate

def name : IntPredicate → String
  | eq => "eq"
  | ne => "ne"
  | ugt => "ugt"
  | uge => "uge"
  | ult => "ult"
  | ule => "ule"
  | sgt => "sgt"
  | sge => "sge"
  | slt => "slt"
  | sle => "sle"

def ofName? : String → Option IntPredicate
  | "eq" => some eq
  | "ne" => some ne
  | "ugt" => some ugt
  | "uge" => some uge
  | "ult" => some ult
  | "ule" => some ule
  | "sgt" => some sgt
  | "sge" => some sge
  | "slt" => some slt
  | "sle" => some sle
  | _ => none

end IntPredicate

/-- The predicate of a comparison of either kind. -/
inductive Predicate where
  | float (p : FloatPredicate)
  | int (p : IntPredicate)
  deriving DecidableEq, Repr

namespace Predicate

def name : Predicate → String
  | float p => p.name
  | int p => p.name

end Predicate
end SsaGraph
