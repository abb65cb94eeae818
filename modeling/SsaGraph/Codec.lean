import SsaGraph.Binary64

/-!
Documents, as a library writes and reads them.  A document is a record of named fields, or
the value of a field alone.  What is read is a value of the library, which is then asked for
what is expected in its place.
-/

namespace SsaGraph

inductive Scalar where
  | text (s : String)
  /-- A word of 64 bits. -/
  | count (n : Nat)
  | number (x : Binary64)
  /-- One of several cases, none of which has data. -/
  | tag (name : String)
  deriving DecidableEq, Repr

inductive FieldValue where
  | scalar (s : Scalar)
  | list (items : List Scalar)
  deriving DecidableEq, Repr

/-- A record, or the value of a field alone. -/
inductive Document where
  | value (v : FieldValue)
  | record (fields : List (String × FieldValue))
  deriving DecidableEq, Repr

/-- The operations of a library that writes and reads documents. -/
structure Codec where
  Value : Type
  write : Document → String
  /-- Read a text; none if it is no document. -/
  read? : String → Option Value
  text? : Value → Option String
  count? : Value → Option Nat
  number? : Value → Option Binary64
  tag? : Value → Option String
  list? : Value → Option (List Value)
  /-- The fields with the given names, in their order. -/
  record? : List String → Value → Option (List Value)

namespace Codec

/-- A list of what each of its items is read as. -/
def array? (c : Codec) {α : Type} (read : c.Value → Option α) (v : c.Value) : Option (Array α) :=
  (c.list? v).bind fun vs => (vs.mapM read).map List.toArray

end Codec
end SsaGraph
