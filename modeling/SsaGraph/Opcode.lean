/-!
Instruction opcodes.
-/

namespace SsaGraph

/-- The opcode fixes the order of an instruction's operands:
`load [ptr]`, `store [value, ptr]`, `getelementptr [base, index, …]`,
`fneg` and `zext [value]`, `select [condition, then, else]`,
`call [argument, …, callee]`, `br [condition, then, else]` or `[target]`,
`ret [value]` or `[]`, and `[left, right]` for the remaining ones.  `alloca` has
none. -/
inductive Opcode where
  | alloca | load | store | getelementptr
  | fadd | fsub | fmul | fdiv | fneg
  | fcmp | icmp | zext | or | select
  | call | br | ret
  /-- An opcode without a meaning here, by its name. -/
  | other (name : String)
  deriving DecidableEq, Repr

namespace Opcode

def known : List Opcode :=
  [alloca, load, store, getelementptr, fadd, fsub, fmul, fdiv, fneg, fcmp, icmp, zext, or,
   select, call, br, ret]

def name : Opcode → String
  | alloca => "alloca"
  | load => "load"
  | store => "store"
  | getelementptr => "getelementptr"
  | fadd => "fadd"
  | fsub => "fsub"
  | fmul => "fmul"
  | fdiv => "fdiv"
  | fneg => "fneg"
  | fcmp => "fcmp"
  | icmp => "icmp"
  | zext => "zext"
  | or => "or"
  | select => "select"
  | call => "call"
  | br => "br"
  | ret => "ret"
  | other name => name

def isOther : Opcode → Bool
  | other _ => true
  | _ => false

/-- The opcode with the given name; a name that is not known stands for
itself. -/
def ofName (name : String) : Opcode :=
  (known.find? fun op => op.name == name).getD (other name)

theorem name_ofName (s : String) : (ofName s).name = s := by
  unfold ofName
  cases h : known.find? fun op => op.name == s with
  | none => rfl
  | some op => simpa using List.find?_some h

end Opcode
end SsaGraph
