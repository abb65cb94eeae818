import SsaGraph.Blake3
import SsaGraph.Graph
import SsaGraph.Text.Digits

/-!
The fingerprint of a graph: a hash of all that a reader of the graph can see.
Each entry of each section starts with the tag of its section, and whatever has
a variable length is preceded by its length.
-/

namespace SsaGraph
namespace Graph

/-- The `width` low bytes of a number, least first. -/
def littleEndian : Nat → Nat → List UInt8
  | 0, _ => []
  | width + 1, n => UInt8.ofNat (n % 256) :: littleEndian width (n / 256)

def encodeCount (n : Nat) : List UInt8 := littleEndian 8 n

def encodeText (s : String) : List UInt8 :=
  encodeCount s.utf8ByteSize ++ s.toUTF8.data.toList

def encodeOperator (o : Operator) : List UInt8 :=
  3 :: UInt8.ofNat o.op.code :: encodeCount o.args.length ++ o.args.flatMap encodeCount

/-- The bytes that are hashed. -/
def encoding (g : Graph) : List UInt8 :=
  1 :: encodeText g.name ++ encodeCount g.dynamics ++ encodeCount g.independents ++
    g.constants.toList.flatMap (fun x => 2 :: encodeCount x.bits.toNat) ++
    g.operators.flatMap encodeOperator ++
    g.atomicNames.toList.flatMap (fun s => 4 :: encodeText s) ++
    g.discreteNames.toList.flatMap (fun s => 5 :: encodeText s) ++
    g.dependents.toList.flatMap (fun n => 6 :: encodeCount n)

def fingerprint (g : Graph) : List UInt8 := Blake3.hash g.encoding

/-! ## Written forms -/

/-- All bytes, in hexadecimal. -/
def fingerprintHex (g : Graph) : String :=
  String.ofList (g.fingerprint.flatMap fun b => Digits.hex 2 b.toNat)

def shortAlphabet : List Char := "0123456789abcdefghjkmnpqrstuvwxyz".toList

/-- The `width` low groups of five bits, one letter each. -/
def fiveBits : Nat → Nat → List Char
  | 0, _ => []
  | width + 1, n => fiveBits width (n / 32) ++ [shortAlphabet[n % 32]?.getD '0']

/-- The first 40 bits in eight letters. -/
def fingerprintShort (g : Graph) : String :=
  let first := (g.fingerprint.take 5).foldl (fun n b => n * 256 + b.toNat) 0
  String.ofList ('#' :: fiveBits 8 first)

end Graph
end SsaGraph
