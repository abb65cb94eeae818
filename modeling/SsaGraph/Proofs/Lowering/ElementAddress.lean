import SsaGraph.Proofs.Lowering.ResultBuffer
import SsaGraph.Proofs.Meaning.Agreement
import SsaGraph.Proofs.Program.Arena
import SsaGraph.Proofs.Program.Origin

/-!
What a load from the input sees.

The address of an element is written with a type and indices, and stands for a number of
bytes: each index counts values of the type it steps over (`byteOffset?`).  The type is
read and dropped, and the last index alone says which element of the input is loaded.  So
a load sees the element that the byte offset says exactly when the offset is eight times
the index, which is so for index zero and for types of eight bytes.
-/

namespace SsaGraph

/-! ## Bytes -/

/-- Bytes that a value of a type takes. -/
def Ty.size? : Ty → Option Nat
  | double | ptr => some 8
  | float => some 4
  | int bits => some ((bits + 7) / 8)
  | array length element => element.size?.map (length * ·)
  | void | label => none

/-- The type that an index steps over, behind `depth` others: a type itself, and then the
elements of arrays. -/
def Ty.stepped? : Ty → Nat → Option Ty
  | type, 0 => some type
  | array _ element, depth + 1 => element.stepped? depth
  | _, _ + 1 => none

/-- Bytes that the last of `count` indices counts. -/
def Ty.stride? (type : Ty) (count : Nat) : Option Nat := (type.stepped? (count - 1)).bind size?

namespace Func

/-- An integer literal as a signed number of its width.  No literal has more than 64 bits. -/
def index? (f : Func) (v : Handle) : Option Int :=
  match f.int? v, f.type? v with
  | some n, some (.int bits) => some (Int.bmod n.toNat (1 <<< min bits 64))
  | _, _ => none

/-- The bytes that indices, behind `depth` others, add to an address of the given type. -/
def byteOffsetFrom? (f : Func) (type : Ty) (depth : Nat) : List Handle → Option Int
  | [] => some 0
  | v :: rest => do
    let stepped ← type.stepped? depth
    return (← f.index? v) * (← stepped.size?) + (← f.byteOffsetFrom? type (depth + 1) rest)

/-- The bytes between a base and the address with the given element type and indices. -/
def byteOffset? (f : Func) (type : Ty) (indices : List Handle) : Option Int :=
  f.byteOffsetFrom? type 0 indices

end Func

/-! ## The written type -/

namespace Reader

/-- The type behind the result, the opcode and the flags of a line. -/
def elementType : Reader Ty := do
  let _ ← resultName
  let _ ← expectWord
  skip (·.dropWhile fun t => isAddressFlag t.val)
  type

/-- The element type that the line at the front of `ts` is written with. -/
def elementType? (ts : List (Located Token)) : Option Ty :=
  match elementType ⟨ts, [], default, .empty⟩ with
  | .ok type _ => some type
  | .error _ _ => none

theorem local_elementType {plain d : Prop} : Local False plain d elementType := by
  refine local_resultName.bind fun _ => local_expectWord (fun _ => ?_) fun _ _ _ _ => .refl _
  refine (local_skip_dropWhile fun t ht => ?_).bind fun _ => local_type
  cases t <;> first | rfl | cases ht

/-- What is read of a type depends on the tokens alone. -/
theorem elementType?_eq_some {s t : ReadState} {type : Ty} (h : elementType s = .ok type t) :
    elementType? s.rest = some type := by
  have hbeside : Beside .anywhere False s ⟨s.rest, [], default, .empty⟩ := beside_anywhere rfl
  obtain ⟨u, hrun, _⟩ := ((local_elementType s : LocalAt False True False _ s).ok h).2.2 hbeside
    (List.append_nil _).symm (.inl rfl)
  rw [elementType?, hrun]

theorem WrittenAt.elementType {ts : List (Located Token)} {i : Instruction} (h : WrittenAt ts i)
    (hop : i.opcode = .getelementptr) :
    ∃ type, elementType? ts = some type := by
  obtain ⟨s, s₁, s₂, u, name, word, line, rfl, hname, hword, _, hline, _⟩ :=
    h.operands (by rw [hop]; exact Opcode.noConfusion)
  rw [hop] at hline
  have hline : getelementptr s₂ = .ok line u := hline
  obtain ⟨_, s₃, hskip, hline⟩ := bind_eq_ok hline
  obtain ⟨_, s₄, hdiscard, _⟩ := bind_eq_ok hline
  obtain ⟨type, _, htype, hdiscard⟩ := bind_eq_ok hdiscard
  cases hdiscard
  have hrun : Reader.elementType s = .ok type s₄ := by
    rw [Reader.elementType, bind_of_ok hname, bind_of_ok hword, bind_of_ok hskip, htype]
  exact ⟨type, elementType?_eq_some hrun⟩

end Reader

/-! ## Lowered addresses -/

namespace Lowering

variable {f : Func} {s t : Lowering} {i : Instruction}

/-- An address has one index, or a zero in front of it. -/
theorem addressParts_eq_ok {base : Handle} {k : Nat} (h : addressParts f i = .ok (base, k)) :
    ∃ w n, f.int? w = some n ∧ n.toNat = k ∧
      (i.operands = [base, w] ∨ ∃ z, f.int? z = some 0 ∧ i.operands = [base, z, w]) := by
  unfold addressParts at h
  split at h
  next b w hargs =>
    obtain ⟨_, hcount, h⟩ := bind_eq_ok.mp h
    cases h
    obtain ⟨n, hn, hk⟩ := count_eq_ok.mp hcount
    exact ⟨w, n, hn, hk, .inl hargs⟩
  next b z w hargs =>
    split at h
    next hz =>
      obtain ⟨_, hcount, h⟩ := bind_eq_ok.mp h
      cases h
      obtain ⟨n, hn, hk⟩ := count_eq_ok.mp hcount
      exact ⟨w, n, hn, hk, .inr ⟨z, hz, hargs⟩⟩
    · exact absurd h malformed_ne_ok
  · exact absurd h malformed_ne_ok

theorem parts_of_lowered (hop : i.opcode = .getelementptr) (h : Lowered f s i t) :
    ∃ q base k, i.result = some q ∧ addressParts f i = .ok (base, k) := by
  cases h with
  | element _ hparts _ hv | pointer _ hparts _ hv => exact ⟨_, _, _, hv, hparts⟩
  | alloca hop' | load hop' | message hop' | store hop' | binary hop' | negate hop' | extend hop'
  | combine hop' | selectCode hop' | select hop' | math hop' | discrete hop' | atomic hop'
  | branch hop' | ret hop' =>
    rw [hop] at hop'
    cases hop'
  | compare hop' => rcases hop' with hop' | hop' <;> rw [hop] at hop' <;> cases hop'

end Lowering

namespace Func

open Lowering

variable {f : Func} {c : Context} {g : Graph} {index : Nat} {i : Instruction} {input q : Handle}

/-- Instruction number `index` loads `v` through `q`, and no call has filled `q` by then. -/
def LoadsThrough (f : Func) (q : Handle) (index : Nat) (v : Handle) : Prop :=
  (∃ i, f.instructions[index]? = some i ∧ i.opcode = .load ∧ i.operands = [q] ∧
    i.result = some v) ∧ ∀ k < index, ¬ f.Fills q k

/-- What instruction number `index` loads as `v` is the element of the input at byte
`b`. -/
def LoadsByte (f : Func) (c : Context) (index : Nat) (v : Handle) (b : Int) : Prop :=
  ∃ e : Nat, b = 8 * e ∧ e < c.dynamics + c.independents ∧ f.node? c (index + 1) v = some (1 + e)

/-- The address of an element of the input, as long as no call has filled the input. -/
theorem exists_inputAddress (hlower : f.lower c = .ok g)
    (hinput : f.args[Convention.input]? = some input) {k : Nat}
    (haddr : f.Addresses q input k index) (hfree : ∀ j < index, ¬ f.Fills input j) :
    k < c.dynamics + c.independents ∧
      ∃ t, f.before c (index + 1) = .ok t ∧ t.bindings.pointers.get? q = some (1 + k) := by
  obtain ⟨r, output, _, hp, _, _⟩ := lower_eq_ok.mp hlower
  obtain ⟨input', hready⟩ := ready_of_prepared hp
  have hinput' : input' = input := by
    obtain ⟨_, _, _, _, hargs⟩ := hready.args
    rw [hargs] at hinput
    exact Option.some.inj hinput
  subst hinput'
  obtain ⟨i, hi, _⟩ := id haddr
  have hsize : index ≤ f.instructions.size := Nat.le_of_lt (Array.getElem?_eq_some_iff.mp hi).1
  obtain ⟨s, t, hs, ht, hcases⟩ := exists_address hlower haddr
  -- The input is where it was from the start.
  have hlayout : s.bindings.layouts.get? input' = some (.contiguous 1 c.inputs) :=
    contiguous_between (Nat.zero_le index) (fun j _ hj => hfree j hj) hsize
      (before_zero_eq_ok.mpr ⟨output, hp⟩) hready.input_layout hs
  rcases hcases with ⟨slots, written, hl⟩ | ⟨first, length, hl, hlt, hq⟩
  · rw [hlayout] at hl
    cases hl
  · rw [hlayout] at hl
    cases hl
    exact ⟨hready.inputs ▸ hlt, t, ht, hq⟩

/-- Such an address stands for the same node whenever it is loaded. -/
theorem node?_of_loadsThrough (hlower : f.lower c = .ok g) (hscoped : f.Scoped)
    (hinput : f.args[Convention.input]? = some input) {k j : Nat} {v : Handle}
    (haddr : f.Addresses q input k index) (hfree : ∀ j < index, ¬ f.Fills input j)
    (hload : f.LoadsThrough q j v) : f.node? c (j + 1) v = some (1 + k) := by
  obtain ⟨_, t, ht, hq⟩ := exists_inputAddress hlower hinput haddr hfree
  obtain ⟨⟨l, hl, hop, hargs, hv⟩, hunfilled⟩ := hload
  obtain ⟨s, n, hs, hn, hnode⟩ := exists_load hlower hl hop hargs hv
  obtain ⟨i, hi, _, hresult, _⟩ := id haddr
  have hlt : index < j := by
    apply hscoped.definedBefore_operand hl (v := q)
    · rw [hargs]
      exact List.mem_singleton_self q
    · exact hscoped.results.mpr ⟨i, hi, hresult⟩
  have hlast : LastBefore (f.Binds q) j index := by
    refine ⟨hlt, .inr ⟨input, k, haddr⟩, ?_⟩
    rintro m hm hmj (hfills | ⟨_, _, i', hi', _, hresult', _⟩)
    · exact hunfilled m hmj hfills
    · exact absurd (hscoped.result_inj hi hi' hresult hresult') (Nat.ne_of_lt hm)
  have hsize : j ≤ f.instructions.size := Nat.le_of_lt (Array.getElem?_eq_some_iff.mp hl).1
  rw [pointers_between hlast hsize ht hs, hq] at hn
  rw [hnode, hn]

theorem loadsByte_iff {j k : Nat} {v : Handle} {b : Int} (hlt : k < c.dynamics + c.independents)
    (hnode : f.node? c (j + 1) v = some (1 + k)) : f.LoadsByte c j v b ↔ b = 8 * k := by
  constructor
  · rintro ⟨e, rfl, _, he⟩
    rw [hnode] at he
    cases Nat.add_left_cancel (Option.some.inj he)
    rfl
  · intro hb
    exact ⟨k, hb, hlt, hnode⟩

theorem byteOffsetFrom?_cons {type : Ty} {depth : Nat} {v : Handle} {rest : List Handle} {b : Int}
    (h : f.byteOffsetFrom? type depth (v :: rest) = some b) :
    ∃ a size later, f.index? v = some a ∧ (type.stepped? depth).bind Ty.size? = some size ∧
      f.byteOffsetFrom? type (depth + 1) rest = some later ∧ b = a * size + later := by
  rw [byteOffsetFrom?] at h
  obtain ⟨stepped, hstepped, h⟩ := Option.bind_eq_some_iff.mp h
  obtain ⟨a, ha, h⟩ := Option.bind_eq_some_iff.mp h
  obtain ⟨size, hsize, h⟩ := Option.bind_eq_some_iff.mp h
  obtain ⟨later, hlater, h⟩ := Option.bind_eq_some_iff.mp h
  rw [hstepped]
  exact ⟨a, size, later, ha, hsize, hlater, (Option.some.inj h).symm⟩

theorem index?_eq_zero {z : Handle} {a : Int} (hz : f.int? z = some 0) (h : f.index? z = some a) :
    a = 0 := by
  rw [index?, hz] at h
  split at h
  next hn _ =>
    cases hn
    exact (Option.some.inj h).symm.trans Int.zero_bmod
  · cases h

/-- The byte offset of an address with one index, or a zero in front of it, is the index
times the size of what it counts. -/
theorem byteOffset?_eq_some {type : Ty} {indices : List Handle} {w : Handle} {b : Int}
    (hindices : indices = [w] ∨ ∃ z, f.int? z = some 0 ∧ indices = [z, w])
    (h : f.byteOffset? type indices = some b) :
    ∃ a size, f.index? w = some a ∧ type.stride? indices.length = some size ∧ b = a * size := by
  rcases hindices with rfl | ⟨z, hz, rfl⟩
  · obtain ⟨a, size, later, ha, hsize, hlater, rfl⟩ := byteOffsetFrom?_cons h
    cases hlater
    exact ⟨a, size, ha, hsize, Int.add_zero _⟩
  · obtain ⟨first, _, b, hfirst, _, hrest, rfl⟩ := byteOffsetFrom?_cons h
    obtain ⟨a, size, later, ha, hsize, hlater, rfl⟩ := byteOffsetFrom?_cons hrest
    cases hlater
    refine ⟨a, size, ha, hsize, ?_⟩
    rw [index?_eq_zero hz hfirst, Int.zero_mul, Int.zero_add, Int.add_zero]

theorem offset_eq_eight_mul_iff {k size : Nat} :
    (k : Int) * size = 8 * k ↔ k = 0 ∨ size = 8 := by
  constructor
  · intro h
    by_cases hk : k = 0
    · exact .inl hk
    · have h : k * size = k * 8 := by omega
      exact .inr (Nat.eq_of_mul_eq_mul_left (Nat.pos_of_ne_zero hk) h)
  · rintro (rfl | rfl)
    · exact Int.zero_mul _
    · exact Int.mul_comm _ _

end Func

/-- An address of the input stands for the element that its last index says, whatever type
it is written with.  That is the element at its byte offset exactly when the offset is
eight times the index: for index zero, or if the index counts values of eight bytes. -/
theorem Program.lower_input_element {text : String} {p : Program} {f : Func} {c : Context}
    {g : Graph} {index : Nat} {i : Instruction} {input : Handle} {indices : List Handle}
    (hread : read text = .ok p) (hf : f ∈ p.functions) (hlower : f.lower c = .ok g)
    (hi : f.instructions[index]? = some i) (hop : i.opcode = .getelementptr)
    (hinput : f.args[Convention.input]? = some input) (hargs : i.operands = input :: indices)
    (hfree : ∀ j < index, ¬ f.Fills input j) :
    ∃ ts type q w n, Reader.Onward (Token.scan text).tokens ts ∧ i.span = Reader.lineSpan ts ∧
      Reader.elementType? ts = some type ∧ i.result = some q ∧
      (indices = [w] ∨ ∃ z, f.int? z = some 0 ∧ indices = [z, w]) ∧ f.int? w = some n ∧
      n.toNat < c.dynamics + c.independents ∧
      (∀ j v, f.LoadsThrough q j v → f.node? c (j + 1) v = some (1 + n.toNat)) ∧
      ∀ b, f.byteOffset? type indices = some b →
        (∀ j v, f.LoadsThrough q j v →
          (f.LoadsByte c j v b ↔ b = 8 * n.toNat)) ∧
        (f.index? w = some (n.toNat : Int) →
          (b = 8 * n.toNat ↔ n.toNat = 0 ∨ type.stride? indices.length = some 8)) := by
  have hscoped := (arena_of_read hread f hf).toScoped
  obtain ⟨ts, hon, hwritten⟩ := writtenAt_of_read hread hf (Array.mem_of_getElem? hi)
  obtain ⟨type, htype⟩ := hwritten.elementType hop
  obtain ⟨s, t, _, _, hstep⟩ := Func.exists_step hlower hi
  obtain ⟨q, base, k, hq, hparts⟩ := Lowering.parts_of_lowered hop hstep
  obtain ⟨w, n, hn, rfl, hoperands⟩ := Lowering.addressParts_eq_ok hparts
  rw [hargs] at hoperands
  have hbase : base = input := by
    rcases hoperands with he | ⟨_, _, he⟩ <;> exact (List.cons.inj he).1.symm
  subst hbase
  have hindices : indices = [w] ∨ ∃ z, f.int? z = some 0 ∧ indices = [z, w] := by
    rcases hoperands with he | ⟨z, hz, he⟩
    · exact .inl (List.cons.inj he).2
    · exact .inr ⟨z, hz, (List.cons.inj he).2⟩
  have haddr : f.Addresses q base n.toNat index := ⟨i, hi, hop, hq, hparts⟩
  have hlt := (Func.exists_inputAddress hlower hinput haddr hfree).1
  have hloads := fun j v hload =>
    Func.node?_of_loadsThrough (j := j) (v := v) hlower hscoped hinput haddr hfree hload
  refine ⟨ts, type, q, w, n, hon, hwritten.span, htype, hq, hindices, hn, hlt, hloads, ?_⟩
  intro b hb
  constructor
  · intro j v hload
    exact Func.loadsByte_iff hlt (hloads j v hload)
  · intro hw
    obtain ⟨a, size, ha, hsize, rfl⟩ := Func.byteOffset?_eq_some hindices hb
    rw [hw] at ha
    cases ha
    rw [hsize, Option.some.injEq]
    exact Func.offset_eq_eight_mul_iff

/-- The third element of an array at the start of the input. -/
def Program.thirdOfArray : String :=
  "define i32 @f(i64 %0, ptr %in, i64 %2, ptr %out, i64 %4, ptr %msg) \x7b
    %p = getelementptr inbounds [4 x double], ptr %in, i64 0, i64 2
    %x = load double, ptr %p
    store double %x, ptr %out
    ret i32 0
  \x7d"

/-- The line of the address is written with the type of the array. -/
theorem Program.elementType?_thirdOfArray {ts : List (Located Token)}
    (hon : Reader.Onward (Token.scan thirdOfArray).tokens ts)
    (hspan : Reader.lineSpan ts = ⟨73, 136⟩) :
    Reader.elementType? ts = some (.array 4 .double) := by
  -- No other line has this place.
  have hall : ∀ k < 65, Reader.lineSpan ((Token.scan thirdOfArray).tokens.drop k) = ⟨73, 136⟩ →
      Reader.elementType? ((Token.scan thirdOfArray).tokens.drop k) = some (.array 4 .double) := by
    decide +kernel
  have hlength : (Token.scan thirdOfArray).tokens.length = 64 := by decide +kernel
  obtain ⟨passed, hpassed, _⟩ := hon
  have hdrop : (Token.scan thirdOfArray).tokens.drop passed.length = ts := by
    rw [hpassed, List.drop_left]
  rw [hpassed, List.length_append] at hlength
  have htype := hall passed.length (by omega)
  rw [hdrop] at htype
  exact htype hspan

theorem Program.lower_input_element_thirdOfArray :
    ∃ p f g ts type, read thirdOfArray = .ok p ∧ f ∈ p.functions ∧
      f.lower ⟨"f", 0, 4, 1⟩ = .ok g ∧ Reader.Onward (Token.scan thirdOfArray).tokens ts ∧
      Reader.elementType? ts = some type ∧ f.node? ⟨"f", 0, 4, 1⟩ 2 9 = some 3 ∧
      f.byteOffset? type [6, 7] = some 16 ∧
      ∀ b, f.byteOffset? type [6, 7] = some b → (f.LoadsByte ⟨"f", 0, 4, 1⟩ 1 9 b ↔ b = 16) := by
  have hread : (match read thirdOfArray with
      | .ok p => p.functions.any fun f => match f.lower ⟨"f", 0, 4, 1⟩ with
        | .ok _ => decide (f.args[Convention.input]? = some 1 ∧ f.int? 7 = some 2 ∧ ¬ f.Fills 8 0 ∧
            f.byteOffset? (.array 4 .double) [6, 7] = some 16 ∧
            (f.instructions[0]?).any (fun i => i.opcode = .getelementptr ∧ i.operands = [1, 6, 7] ∧
              i.result = some 8 ∧ i.span = ⟨73, 136⟩) ∧
            (f.instructions[1]?).any fun i => i.opcode = .load ∧ i.operands = [8] ∧ i.result = some 9)
        | .error _ => false
      | .error _ => false) = true := by
    decide +kernel
  split at hread
  next p hp =>
    obtain ⟨f, hf, hlower⟩ := List.any_eq_true.mp hread
    split at hlower
    next g hg =>
      obtain ⟨hinput, htwo, hfills, hoffset, haddress, hload⟩ := of_decide_eq_true hlower
      obtain ⟨i, hi, haddress⟩ := (Option.any_eq_true _ _).mp haddress
      obtain ⟨l, hl, hload⟩ := (Option.any_eq_true _ _).mp hload
      obtain ⟨hop, hargs, hresult, hplace⟩ := of_decide_eq_true haddress
      have hloads : f.LoadsThrough 8 1 9 := by
        refine ⟨⟨l, hl, of_decide_eq_true hload⟩, fun k hk => ?_⟩
        obtain rfl : k = 0 := by omega
        exact hfills
      obtain ⟨ts, type, q, w, n, hon, hspan, htype, hq, hindices, hn, _, hnode, hbyte⟩ :=
        lower_input_element hp hf hg hi hop hinput hargs (fun j hj => absurd hj (Nat.not_lt_zero j))
      obtain rfl : type = .array 4 .double := Option.some.inj
        (htype.symm.trans (elementType?_thirdOfArray hon (hspan.symm.trans hplace)))
      obtain rfl : q = 8 := Option.some.inj (hq.symm.trans hresult)
      obtain rfl : w = 7 := by
        rcases hindices with he | ⟨z, _, he⟩ <;> simp_all
      obtain rfl : n = 2 := Option.some.inj (hn.symm.trans htwo)
      exact ⟨p, f, g, ts, _, hp, hf, hg, hon, htype, hnode 1 9 hloads, hoffset,
        fun b hb => (hbyte b hb).1 1 9 hloads⟩
    · cases hlower
  · cases hread

/-- An address that is written in bytes. -/
def Program.byteAddress : String :=
  "define i32 @f(i64 %0, ptr %in, i64 %2, ptr %out, i64 %4, ptr %msg) \x7b
    %p = getelementptr i8, ptr %in, i64 8
    %x = load double, ptr %p
    store double %x, ptr %out
    ret i32 0
  \x7d"

/-- Byte 8 of the input is in its second element; the load sees the ninth one. -/
theorem Program.lower_byteAddress_ninth :
    Reader.elementType? ((Token.scan byteAddress).tokens.drop 24) = some (.int 8) ∧
      ∃ p f g, read byteAddress = .ok p ∧ f ∈ p.functions ∧ f.lower ⟨"f", 0, 9, 1⟩ = .ok g ∧
        g.dependents = #[9] ∧ f.byteOffset? (.int 8) [6] = some 8 ∧
        f.node? ⟨"f", 0, 9, 1⟩ 2 8 = some 9 ∧ ¬ f.LoadsByte ⟨"f", 0, 9, 1⟩ 1 8 8 := by
  refine ⟨by decide +kernel, ?_⟩
  have hread : (match read byteAddress with
      | .ok p => p.functions.any fun f => match f.lower ⟨"f", 0, 9, 1⟩ with
        | .ok g => decide (g.dependents = #[9] ∧ f.byteOffset? (.int 8) [6] = some 8 ∧
            f.node? ⟨"f", 0, 9, 1⟩ 2 8 = some 9)
        | .error _ => false
      | .error _ => false) = true := by
    decide +kernel
  split at hread
  next p hp =>
    obtain ⟨f, hf, hlower⟩ := List.any_eq_true.mp hread
    split at hlower
    next g hg =>
      obtain ⟨hdependents, hoffset, hnode⟩ := of_decide_eq_true hlower
      refine ⟨p, f, g, hp, hf, hg, hdependents, hoffset, hnode, ?_⟩
      intro hloads
      have he := (Func.loadsByte_iff (k := 8) (by decide) hnode).mp hloads
      cases he
    · cases hlower
  · cases hread

end SsaGraph
