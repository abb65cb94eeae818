import SsaGraph.Proofs.Func.Arena
import SsaGraph.Proofs.Token.Written

/-!
The text form of a function: one instruction to a line, with names in quotes and a type
in front of each operand or pair of operands.  `Writable` says which functions have one,
and `SameAs` compares two functions up to the handles they use and the places they were
read from.
-/

namespace SsaGraph

/-! ## Types and operands -/

namespace Ty

def tokens : Ty → List Token
  | array length element =>
    .lbracket :: .int (UInt64.ofNat length) :: .word "x" :: (element.tokens ++ [.rbracket])
  | type => [.word type.text]

/-- Widths are positive 32-bit words and lengths are 64-bit words. -/
def Valid : Ty → Prop
  | int bits => 0 < bits ∧ bits < 1 <<< 32
  | array length element => length < 1 <<< 64 ∧ element.Valid
  | _ => True

instance decidableValid : (ty : Ty) → Decidable ty.Valid
  | int _ => inferInstanceAs (Decidable (_ ∧ _))
  | array _ element =>
    have := decidableValid element
    inferInstanceAs (Decidable (_ ∧ _))
  | void | double | float | ptr | label => .isTrue trivial

theorem toList_text_int (bits : Nat) : (int bits).text.toList = 'i' :: Nat.toDigits 10 bits := by
  show ("i" ++ toString bits).toList = _
  simp

/-- A width is read back. -/
theorem ofWord?_text_int {bits : Nat} (h : (int bits).Valid) :
    ofWord? (int bits).text = some (int bits) := by
  have hwidth : intWidth? (int bits).text = some bits := by
    have hsigned : Digits.signedBelow? (1 <<< 32) (Nat.toDigits 10 bits) = some bits := by
      unfold Digits.signedBelow?
      split
      next cs hdigits =>
        have hplus := Digits.isDigit_of_mem_toDigits (hdigits ▸ List.mem_cons_self)
        exact absurd hplus (by decide)
      · exact Digits.natBelow?_toDigits h.2
    rw [intWidth?, toList_text_int]
    show (Digits.signedBelow? (1 <<< 32) (Nat.toDigits 10 bits)).filter (0 < ·) = _
    rw [hsigned, Option.filter_some, if_pos (decide_eq_true h.1)]
  have hne : ∀ w : String, w.toList.head? ≠ some 'i' → (int bits).text ≠ w := by
    intro w hw e
    rw [← e, toList_text_int] at hw
    exact hw rfl
  unfold ofWord?
  split
  next e => exact absurd e (hne _ (by decide))
  next e => exact absurd e (hne _ (by decide))
  next e => exact absurd e (hne _ (by decide))
  next e => exact absurd e (hne _ (by decide))
  next e => exact absurd e (hne _ (by decide))
  · rw [hwidth]
    rfl

end Ty

theorem Ty.mem_tokens {ty : Ty} {t : Token} (h : t ∈ ty.tokens) :
    t = .lbracket ∨ t = .rbracket ∨ (∃ n, t = .int n) ∨ ∃ w, t = .word w := by
  induction ty with
  | array length element ih =>
    simp only [tokens, List.mem_cons, List.mem_append, List.not_mem_nil, or_false] at h
    rcases h with h | h | h | h | h
    · exact .inl h
    · exact .inr (.inr (.inl ⟨_, h⟩))
    · exact .inr (.inr (.inr ⟨_, h⟩))
    · exact ih h
    · exact .inr (.inl h)
  | _ => exact .inr (.inr (.inr ⟨_, List.mem_singleton.mp h⟩))

def Token.startsType : Token → Bool
  | .lbracket => true
  | .word w => (Ty.ofWord? w).isSome
  | _ => false

theorem Token.ne_of_startsType {t u : Token} (ht : t.startsType = true)
    (hu : u.startsType = false) : t ≠ u := by
  rintro rfl
  rw [ht] at hu
  cases hu

/-- A type starts with a bracket or with the word that names it. -/
theorem Ty.exists_tokens {ty : Ty} (h : ty.Valid) : ∃ t ts, ty.tokens = t :: ts ∧
    t.startsType = true ∧ ∀ w, t = .word w → ofWord? w = some ty := by
  have hword : ∀ {w}, ofWord? w = some ty → (Token.word w).startsType = true ∧
      ∀ v, Token.word w = .word v → ofWord? v = some ty := by
    intro w hw
    refine ⟨?_, fun v hv => Token.word.inj hv ▸ hw⟩
    rw [Token.startsType, hw]
    rfl
  cases ty with
  | int bits => exact ⟨_, [], rfl, hword (ofWord?_text_int h)⟩
  | array length element => exact ⟨.lbracket, _, rfl, rfl, by simp⟩
  | void | double | float | ptr | label => exact ⟨_, [], rfl, hword rfl⟩

/-- Tokens that are values. -/
def Token.isOperand : Token → Bool
  | .loc _ | .glob _ | .float _ | .int _ => true
  | _ => false

theorem Token.ne_of_isOperand {t u : Token} (ht : t.isOperand = true) (hu : u.isOperand = false) :
    t ≠ u := by
  rintro rfl
  rw [ht] at hu
  cases hu

/-- A name that can be written in quotes. -/
def IsName (s : String) : Prop := s ≠ "" ∧ Token.Quotable s

instance (s : String) : Decidable (IsName s) :=
  decidable_of_iff (s ≠ "" ∧ s.toList.all Token.isQuotable = true)
    (and_congr_right fun _ => List.all_eq_true)

namespace Value

/-- Arguments and results are used by their names. -/
def isLocal (x : Value) : Bool :=
  match x.kind with
  | .argument _ | .result _ => true
  | _ => false

def isArgument (x : Value) : Bool :=
  match x.kind with
  | .argument _ => true
  | _ => false

def token (x : Value) : Token :=
  match x.kind with
  | .argument _ | .result _ => .loc (x.name.getD "")
  | .float y => .float y
  | .int n => .int n
  | .symbol name => .glob name
  | .block name => .loc name

theorem token_of_isLocal {x : Value} (h : x.isLocal = true) : x.token = .loc (x.name.getD "") := by
  unfold isLocal at h
  unfold token
  split at h
  next hkind => rw [hkind]
  next hkind => rw [hkind]
  · cases h

theorem isOperand_token (x : Value) : x.token.isOperand = true := by
  unfold token
  split <;> rfl

/-- A value behind its type. -/
def typed (x : Value) : List Token := x.type.tokens ++ [x.token]

theorem typed_append (x : Value) (ts : List Token) :
    x.typed ++ ts = x.type.tokens ++ x.token :: ts := by
  rw [typed, List.append_assoc]
  rfl

/-- The type fits the kind of value, and what has a name has one that can be written. -/
def WellTyped (x : Value) : Prop :=
  match x.kind with
  | .argument _ | .result _ =>
    x.type.Valid ∧ x.type ≠ .void ∧ x.type ≠ .label ∧ ∃ name ∈ x.name, IsName name
  | .float _ => x.type = .double
  | .int _ => x.type.isInt = true ∧ x.type.Valid
  | .symbol name => x.type = .ptr ∧ IsName name
  | .block name => x.type = .label ∧ IsName name

instance (x : Value) : Decidable x.WellTyped :=
  match x with
  | ⟨.argument _, _, _⟩ | ⟨.result _, _, _⟩ => inferInstanceAs (Decidable (_ ∧ _ ∧ _ ∧ _))
  | ⟨.float _, type, _⟩ => inferInstanceAs (Decidable (type = .double))
  | ⟨.int _, _, _⟩ | ⟨.symbol _, _, _⟩ | ⟨.block _, _, _⟩ => inferInstanceAs (Decidable (_ ∧ _))

theorem WellTyped.ne_void {x : Value} (h : x.WellTyped) : x.type ≠ .void := by
  obtain ⟨kind, type, name⟩ := x
  cases kind with
  | argument _ | result _ => exact h.2.1
  | float _ =>
    obtain rfl : type = .double := h
    simp
  | int _ =>
    rintro rfl
    cases h.1
  | symbol _ | block _ =>
    obtain ⟨rfl, _⟩ := h
    simp

theorem WellTyped.valid {x : Value} (h : x.WellTyped) : x.type.Valid := by
  obtain ⟨kind, type, name⟩ := x
  cases kind with
  | argument _ | result _ => exact h.1
  | float _ =>
    obtain rfl : type = .double := h
    exact trivial
  | int _ => exact h.2
  | symbol _ | block _ =>
    obtain ⟨rfl, _⟩ := h
    exact trivial

end Value

/-! ## Instructions -/

/-- Operands and result types of the known opcodes.  Nothing is asked of a type that the
text form does not depend on. -/
inductive Opcode.Typed : Opcode → Option Predicate → List Value → Ty → Prop where
  | alloca : Typed .alloca none [] .ptr
  | load {pointer : Value} {type : Ty} (h : type.Valid) :
    Typed .load none [pointer] type
  | store {stored pointer : Value} : Typed .store none [stored, pointer] .void
  | address {base : Value} {indices : List Value} :
    Typed .getelementptr none (base :: indices) .ptr
  | arithmetic {opcode : Opcode} {left right : Value}
    (h : opcode ∈ [.fadd, .fsub, .fmul, .fdiv, .or]) (htype : right.type = left.type) :
    Typed opcode none [left, right] left.type
  | fneg {operand : Value} : Typed .fneg none [operand] operand.type
  | fcmp (p : FloatPredicate) {left right : Value} (htype : right.type = left.type) :
    Typed .fcmp (some (.float p)) [left, right] (.int 1)
  | icmp (p : IntPredicate) {left right : Value} (htype : right.type = left.type) :
    Typed .icmp (some (.int p)) [left, right] (.int 1)
  | zext {operand : Value} {type : Ty} (h : type.Valid) :
    Typed .zext none [operand] type
  | select {condition ifTrue ifFalse : Value} :
    Typed .select none [condition, ifTrue, ifFalse] ifTrue.type
  | call {args : List Value} {callee : Value} {name : String} {type : Ty}
    (hcallee : callee.kind = .symbol name) (h : type.Valid) :
    Typed .call none (args ++ [callee]) type
  | jump {target : Value} (h : target.type = .label) : Typed .br none [target] .void
  | branch {condition ifTrue ifFalse : Value} (h : condition.type = .int 1) :
    Typed .br none [condition, ifTrue, ifFalse] .void
  | retVoid : Typed .ret none [] .void
  | ret {returned : Value} : Typed .ret none [returned] .void

def commaSeparated (parts : List (List Token)) : List Token := [Token.comma].intercalate parts

theorem commaSeparated_singleton (ts : List Token) : commaSeparated [ts] = ts :=
  List.intercalate_singleton

theorem commaSeparated_cons_cons (ts us : List Token) (parts : List (List Token)) :
    commaSeparated (ts :: us :: parts) = ts ++ .comma :: commaSeparated (us :: parts) := by
  rw [commaSeparated, List.intercalate_cons_cons, List.append_assoc]
  rfl

theorem commaSeparated_two (p q ts : List Token) :
    commaSeparated [p, q] ++ ts = p ++ .comma :: (q ++ ts) := by
  simp [commaSeparated_cons_cons, commaSeparated_singleton]

theorem commaSeparated_three (p q r ts : List Token) :
    commaSeparated [p, q, r] ++ ts = p ++ .comma :: (q ++ .comma :: (r ++ ts)) := by
  simp [commaSeparated_cons_cons, commaSeparated_singleton]

theorem commaSeparated_typed (x y : Value) (xs : List Value) (ts : List Token) :
    commaSeparated ((x :: y :: xs).map Value.typed) ++ ts =
      x.typed ++ .comma :: (commaSeparated ((y :: xs).map Value.typed) ++ ts) := by
  simp [commaSeparated_cons_cons]

/-- All but the first stand behind a comma. -/
theorem commaSeparated_cons (p : List Token) (parts : List (List Token)) :
    commaSeparated (p :: parts) = p ++ parts.flatMap (.comma :: ·) := by
  induction parts generalizing p with
  | nil => simp [commaSeparated_singleton]
  | cons q parts ih => rw [commaSeparated_cons_cons, ih, List.flatMap_cons, List.cons_append]

/-! ## Predicates -/

def FloatPredicate.word : FloatPredicate → String
  | never => "false"
  | oeq => "oeq"
  | ogt => "ogt"
  | oge => "oge"
  | olt => "olt"
  | ole => "ole"
  | one => "one"
  | ord => "ord"
  | uno => "uno"
  | ueq => "ueq"
  | ugt => "ugt"
  | uge => "uge"
  | ult => "ult"
  | ule => "ule"
  | une => "une"
  | always => "true"

theorem FloatPredicate.ofName?_word (p : FloatPredicate) : ofName? p.word = some p := by
  cases p <;> decide

def IntPredicate.word : IntPredicate → String
  | eq => "eq"
  | ne => "ne"
  | ugt => "ugt"
  | uge => "uge"
  | ult => "ult"
  | ule => "ule"
  | sgt => "sgt"
  | sge => "sge"
  | slt => "slt"
  | sle => "sle"

theorem IntPredicate.ofName?_word (p : IntPredicate) : ofName? p.word = some p := by
  cases p <;> decide

def Predicate.word : Predicate → String
  | float p => p.word
  | int p => p.word

/-! ## Operands of an opcode -/

/-- What stands behind an opcode, with the result type `type`.  `element` is a type that
the instruction does not keep: what is allocated, or what an address steps over. -/
def operandTokens (element type : Ty) (predicate : Option Predicate) :
    Opcode → List Value → List Token
  | .alloca, _ => element.tokens
  | .load, xs => commaSeparated (type.tokens :: xs.map Value.typed)
  | .getelementptr, xs => commaSeparated (element.tokens :: xs.map Value.typed)
  | .fadd, [x, y] | .fsub, [x, y] | .fmul, [x, y] | .fdiv, [x, y] | .or, [x, y] =>
    x.typed ++ [.comma, y.token]
  | .fcmp, [x, y] | .icmp, [x, y] =>
    (predicate.map fun p => Token.word p.word).toList ++ (x.typed ++ [.comma, y.token])
  | .zext, [x] => x.typed ++ .word "to" :: type.tokens
  | .call, xs =>
    type.tokens ++ ((xs.getLast?.map Value.token).toList ++
      .lparen :: (commaSeparated (xs.dropLast.map Value.typed) ++ [.rparen]))
  | .ret, [] => [.word "void"]
  | _, xs => commaSeparated (xs.map Value.typed)

/-! ## Functions -/

namespace Func

def operandValues (f : Func) (inst : Instruction) : List Value := inst.operands.filterMap f.value?

/-- The result of an instruction. -/
def result? (f : Func) (inst : Instruction) : Option Value := inst.result.bind f.value?

def argumentValues (f : Func) : List Value := f.args.filterMap f.value?

def resultType (f : Func) (inst : Instruction) : Ty := ((f.result? inst).map (·.type)).getD .void

/-- What stands behind the name of the result. -/
def effectTokens (f : Func) (element : Ty) (inst : Instruction) : List Token :=
  .word inst.opcode.name ::
    operandTokens element (f.resultType inst) inst.predicate inst.opcode (f.operandValues inst)

def lineTokens (f : Func) (element : Ty) (inst : Instruction) : List Token :=
  match f.result? inst with
  | some x => x.token :: .equals :: f.effectTokens element inst
  | none => f.effectTokens element inst

theorem lineTokens_ne_nil (f : Func) (element : Ty) (inst : Instruction) :
    f.lineTokens element inst ≠ [] := by
  unfold lineTokens effectTokens
  split <;> simp

/-- The lines of instructions, the first of which has the given index. -/
def bodyTokens (f : Func) (elements : Nat → Ty) : Nat → List Instruction → List Token
  | _, [] => []
  | i, inst :: rest =>
    f.lineTokens (elements i) inst ++ .newline :: f.bodyTokens elements (i + 1) rest

/-- The tokens of a function that returns `returns`.  `elements` are the types that the
instructions do not keep. -/
def tokens (f : Func) (returns : Ty) (elements : Nat → Ty) : List Token :=
  .word "define" :: (returns.tokens ++ .glob f.name :: .lparen ::
    (commaSeparated (f.argumentValues.map Value.typed) ++ .rparen :: .lbrace :: .newline ::
      (f.bodyTokens elements 0 f.instructions.toList ++ [.rbrace, .newline])))

/-- Tokens that stand side by side. -/
def tight : Token → Token → Bool
  | .lparen, _ | .lbracket, _ | .newline, _ => true
  | _, .comma | _, .rparen | _, .rbracket | _, .newline => true
  | .glob _, .lparen => true
  | _, _ => false

def text (f : Func) (returns : Ty) (elements : Nat → Ty) : String :=
  String.ofList (Token.written tight (f.tokens returns elements))

/-- Functions over the known opcodes whose operands fit, and whose names can be written
and are told apart.  Only the first values are arguments. -/
structure Writable (f : Func) : Prop extends Scoped f where
  name : IsName f.name
  arguments : ∀ x ∈ f.values.toList.drop f.args.length, x.isArgument = false
  values : ∀ x ∈ f.values.toList, x.WellTyped
  distinct : f.values.toList.Pairwise fun x y =>
    x.isLocal = true → y.isLocal = true → x.name ≠ y.name
  instructions : ∀ inst ∈ f.instructions.toList,
    inst.opcode.Typed inst.predicate (f.operandValues inst) (f.resultType inst)

theorem Writable.wellTyped {f : Func} (h : f.Writable) {v : Handle} {x : Value}
    (hx : f.value? v = some x) : x.WellTyped :=
  h.values x (Array.mem_toList_iff.mpr (Array.mem_of_getElem? hx))

theorem Writable.arg_of_kind {f : Func} (h : f.Writable) {v : Handle} {j : Nat}
    (hv : f.kind? v = some (.argument j)) : f.args[j]? = some v := by
  by_cases hlt : v < f.args.length
  · have hget := List.getElem?_eq_getElem hlt
    obtain ⟨hw, hkind⟩ := h.args hget
    rw [hw] at hget hkind
    rw [hkind] at hv
    cases hv
    exact hget
  · obtain ⟨x, hx, hkind⟩ := Option.map_eq_some_iff.mp hv
    have hmem : x ∈ f.values.toList.drop f.args.length := by
      rw [value?, ← Array.getElem?_toList] at hx
      refine List.mem_iff_getElem?.mpr ⟨v - f.args.length, ?_⟩
      rw [List.getElem?_drop, Nat.add_sub_cancel' (Nat.le_of_not_lt hlt), hx]
    have hfalse := h.arguments x hmem
    rw [Value.isArgument, hkind] at hfalse
    cases hfalse

/-- A name belongs to one argument or result. -/
theorem Writable.eq_of_name {f : Func} (h : f.Writable) {v w : Handle} {x y : Value}
    (hx : f.value? v = some x) (hy : f.value? w = some y) (hxlocal : x.isLocal = true)
    (hylocal : y.isLocal = true) (hname : x.name = y.name) : v = w := by
  rw [value?, ← Array.getElem?_toList] at hx hy
  obtain ⟨hv, hx⟩ := List.getElem?_eq_some_iff.mp hx
  obtain ⟨hw, hy⟩ := List.getElem?_eq_some_iff.mp hy
  have hpairwise := List.pairwise_iff_getElem.mp h.distinct
  rcases Nat.lt_trichotomy v w with hlt | heq | hgt
  · have hne := hpairwise v w hv hw hlt
    rw [hx, hy] at hne
    exact absurd hname (hne hxlocal hylocal)
  · exact heq
  · have hne := hpairwise w v hw hv hgt
    rw [hx, hy] at hne
    exact absurd hname.symm (hne hylocal hxlocal)

/-- The result of an instruction has a name and a type. -/
theorem Writable.result {f : Func} (h : f.Writable) {i : Nat} {inst : Instruction}
    (hinst : f.instructions[i]? = some inst) {v : Handle} (hv : inst.result = some v) :
    ∃ x name, f.value? v = some x ∧ x.kind = .result i ∧ x.name = some name ∧ x.type ≠ .void := by
  obtain ⟨x, hx, hkind⟩ := Option.map_eq_some_iff.mp (h.results.mpr ⟨inst, hinst, hv⟩)
  have htyped := h.wellTyped hx
  rw [Value.WellTyped, hkind] at htyped
  obtain ⟨_, hvoid, _, name, hname, _⟩ := htyped
  exact ⟨x, name, hx, hkind, hname, hvoid⟩

/-- Two operands stand for the same: an argument or a result in the same place, the same
literal, symbol or label. -/
def Denotes (f g : Func) (v w : Handle) : Prop :=
  ∃ x y, f.value? v = some x ∧ g.value? w = some y ∧ y.kind = x.kind ∧ y.type = x.type

/-- Two values have the same type and the same name. -/
def Resembles (f g : Func) (v w : Handle) : Prop :=
  ∃ x y, f.value? v = some x ∧ g.value? w = some y ∧ y.type = x.type ∧ y.name = x.name

structure SameInstruction (f g : Func) (a b : Instruction) : Prop where
  opcode : b.opcode = a.opcode
  predicate : b.predicate = a.predicate
  operands : List.Forall₂ (Denotes f g) a.operands b.operands
  result : Option.Rel (Resembles f g) a.result b.result

/-- The same name, arguments and instructions. -/
structure SameAs (f g : Func) : Prop where
  name : g.name = f.name
  args : List.Forall₂ (Resembles f g) f.args g.args
  instructions : List.Forall₂ (SameInstruction f g) f.instructions.toList g.instructions.toList

end Func

/-! ## Plain tokens

The tokens of a function can be scanned, and none of them makes a label. -/

/-- Tokens that can be scanned and do not make a label. -/
def Token.Plain (t : Token) : Prop := t.Writable ∧ t ≠ .colon

theorem Token.plain_word {w : String} (h : isPlainWord w.toList = true) : (Token.word w).Plain :=
  ⟨isWord_of_isPlainWord h, by simp⟩

/-- Marks without content. -/
theorem Token.plain_mark {t : Token} (h : t ∈ [lparen, rparen, lbrace, rbrace, lbracket, rbracket,
    comma, equals, newline]) : t.Plain := by
  simp only [List.mem_cons, List.not_mem_nil, or_false] at h
  rcases h with rfl | rfl | rfl | rfl | rfl | rfl | rfl | rfl | rfl <;> exact ⟨trivial, by simp⟩

theorem Ty.plain_tokens (ty : Ty) : ∀ t ∈ ty.tokens, t.Plain := by
  induction ty with
  | array length element ih =>
    simp only [tokens, List.forall_mem_cons, List.forall_mem_append]
    exact ⟨Token.plain_mark (by simp), ⟨trivial, by simp⟩, Token.plain_word (by decide), ih,
      Token.plain_mark (by simp), by simp⟩
  | int bits =>
    refine List.forall_mem_singleton.mpr (Token.plain_word ?_)
    rw [toList_text_int]
    simp only [Token.isPlainWord, Bool.and_eq_true, List.all_eq_true]
    exact ⟨⟨by decide, fun c hc => Token.isNameChar_of_isDigit (Digits.isDigit_of_mem_toDigits hc)⟩,
      by decide⟩
  | void | double | float | ptr | label =>
    exact List.forall_mem_singleton.mpr (Token.plain_word (by decide))

theorem Value.plain_token {x : Value} (h : x.WellTyped) : x.token.Plain := by
  refine ⟨?_, Token.ne_of_isOperand x.isOperand_token rfl⟩
  obtain ⟨kind, type, name⟩ := x
  cases kind with
  | argument _ | result _ =>
    obtain ⟨_, _, _, n, rfl, hn⟩ := h
    exact hn
  | float _ | int _ => exact trivial
  | symbol _ | block _ => exact h.2

theorem Value.plain_typed {x : Value} (h : x.WellTyped) : ∀ t ∈ x.typed, t.Plain := by
  rw [typed]
  simp only [List.forall_mem_append, List.forall_mem_singleton]
  exact ⟨x.type.plain_tokens, plain_token h⟩

theorem plain_commaSeparated {parts : List (List Token)} (h : ∀ p ∈ parts, ∀ t ∈ p, t.Plain) :
    ∀ t ∈ commaSeparated parts, t.Plain := by
  cases parts with
  | nil => simp [commaSeparated]
  | cons p parts =>
    rw [commaSeparated_cons]
    simp only [List.forall_mem_append, List.mem_flatMap]
    refine ⟨h p List.mem_cons_self, ?_⟩
    rintro t ⟨q, hq, ht⟩
    rcases List.mem_cons.mp ht with rfl | ht
    · exact Token.plain_mark (by simp)
    · exact h q (List.mem_cons_of_mem p hq) t ht

theorem plain_typed_values {xs : List Value} (h : ∀ x ∈ xs, x.WellTyped) :
    ∀ p ∈ xs.map Value.typed, ∀ t ∈ p, t.Plain := by
  intro p hp
  obtain ⟨x, hx, rfl⟩ := List.mem_map.mp hp
  exact Value.plain_typed (h x hx)

/-- Operands behind a type. -/
theorem plain_typed_behind (type : Ty) {xs : List Value} (h : ∀ x ∈ xs, x.WellTyped) :
    ∀ t ∈ commaSeparated (type.tokens :: xs.map Value.typed), t.Plain :=
  plain_commaSeparated (List.forall_mem_cons.mpr ⟨type.plain_tokens, plain_typed_values h⟩)

theorem Predicate.plain_word (p : Predicate) : (Token.word p.word).Plain := by
  cases p with
  | float p => cases p <;> exact Token.plain_word (by decide)
  | int p => cases p <;> exact Token.plain_word (by decide)

/-- A pair of operands behind one type. -/
theorem plain_pair {x y : Value} (h : ∀ z ∈ [x, y], z.WellTyped) :
    ∀ t ∈ x.typed ++ [.comma, y.token], t.Plain := by
  simp only [List.forall_mem_cons, List.forall_mem_append] at h ⊢
  exact ⟨Value.plain_typed h.1, Token.plain_mark (by simp), Value.plain_token h.2.1, by simp⟩

theorem plain_comparison (predicate : Option Predicate) {x y : Value}
    (h : ∀ z ∈ [x, y], z.WellTyped) :
    ∀ t ∈ (predicate.map fun p => Token.word p.word).toList ++ (x.typed ++ [.comma, y.token]),
      t.Plain := by
  refine List.forall_mem_append.mpr ⟨fun t ht => ?_, plain_pair h⟩
  obtain ⟨p, _, rfl⟩ := Option.map_eq_some_iff.mp (Option.mem_toList.mp ht)
  exact p.plain_word

theorem plain_operandTokens (element type : Ty) (predicate : Option Predicate) (opcode : Opcode)
    {xs : List Value} (h : ∀ x ∈ xs, x.WellTyped) :
    ∀ t ∈ operandTokens element type predicate opcode xs, t.Plain := by
  unfold operandTokens
  split
  · exact element.plain_tokens
  · exact plain_typed_behind type h
  · exact plain_typed_behind element h
  · exact plain_pair h
  · exact plain_pair h
  · exact plain_pair h
  · exact plain_pair h
  · exact plain_pair h
  · exact plain_comparison predicate h
  · exact plain_comparison predicate h
  · simp only [List.forall_mem_cons, List.forall_mem_append] at h ⊢
    exact ⟨Value.plain_typed h.1, Token.plain_word (by decide), type.plain_tokens⟩
  · have hcallee : ∀ t ∈ (xs.getLast?.map Value.token).toList, t.Plain := by
      intro t ht
      obtain ⟨x, hx, rfl⟩ := Option.map_eq_some_iff.mp (Option.mem_toList.mp ht)
      exact Value.plain_token (h x (List.mem_of_getLast? hx))
    have hargs : ∀ x ∈ xs.dropLast, x.WellTyped := fun x hx => h x (List.dropLast_subset xs hx)
    simp only [List.forall_mem_cons, List.forall_mem_append]
    exact ⟨type.plain_tokens, hcallee, Token.plain_mark (by simp),
      plain_commaSeparated (plain_typed_values hargs), Token.plain_mark (by simp), by simp⟩
  · exact List.forall_mem_singleton.mpr (Token.plain_word (by decide))
  · exact plain_commaSeparated (plain_typed_values h)

theorem Opcode.Typed.plain_name {opcode : Opcode} {predicate : Option Predicate} {xs : List Value}
    {type : Ty} (h : opcode.Typed predicate xs type) : (Token.word opcode.name).Plain := by
  cases h with
  | arithmetic hmem _ =>
    simp only [List.mem_cons, List.not_mem_nil, or_false] at hmem
    rcases hmem with rfl | rfl | rfl | rfl | rfl <;> exact Token.plain_word (by decide)
  | _ => exact Token.plain_word (by decide)

namespace Func

variable {f : Func} (hf : f.Writable) {inst : Instruction}
include hf

theorem Writable.wellTyped_of_mem {vs : List Handle} :
    ∀ x ∈ vs.filterMap f.value?, x.WellTyped := by
  intro x hx
  obtain ⟨v, _, hv⟩ := List.mem_filterMap.mp hx
  exact hf.wellTyped hv

theorem plain_effectTokens (element : Ty) (hinst : inst ∈ f.instructions.toList) :
    ∀ t ∈ f.effectTokens element inst, t.Plain :=
  List.forall_mem_cons.mpr
    ⟨(hf.instructions inst hinst).plain_name, plain_operandTokens _ _ _ _ hf.wellTyped_of_mem⟩

theorem plain_lineTokens (element : Ty) (hinst : inst ∈ f.instructions.toList) :
    ∀ t ∈ f.lineTokens element inst, t.Plain := by
  have heffect := plain_effectTokens hf element hinst
  unfold lineTokens
  split
  next x hx =>
    obtain ⟨v, _, hv⟩ := Option.bind_eq_some_iff.mp hx
    exact List.forall_mem_cons.mpr ⟨Value.plain_token (hf.wellTyped hv),
      List.forall_mem_cons.mpr ⟨Token.plain_mark (by simp), heffect⟩⟩
  · exact heffect

theorem plain_bodyTokens (elements : Nat → Ty) {i : Nat} {insts : List Instruction}
    (h : ∀ inst ∈ insts, inst ∈ f.instructions.toList) :
    ∀ t ∈ f.bodyTokens elements i insts, t.Plain := by
  induction insts generalizing i with
  | nil => simp [bodyTokens]
  | cons inst insts ih =>
    obtain ⟨hinst, hrest⟩ := List.forall_mem_cons.mp h
    rw [bodyTokens]
    simp only [List.forall_mem_append, List.forall_mem_cons]
    exact ⟨plain_lineTokens hf _ hinst, Token.plain_mark (by simp), ih hrest⟩

/-- The tokens of a function can be scanned. -/
theorem plain_tokens (returns : Ty) (elements : Nat → Ty) :
    ∀ t ∈ f.tokens returns elements, t.Plain := by
  rw [tokens]
  simp only [List.forall_mem_append, List.forall_mem_cons]
  exact ⟨Token.plain_word (by decide), returns.plain_tokens, ⟨hf.name, by simp⟩,
    Token.plain_mark (by simp), plain_commaSeparated (plain_typed_values hf.wellTyped_of_mem),
    Token.plain_mark (by simp), Token.plain_mark (by simp), Token.plain_mark (by simp),
    plain_bodyTokens hf elements fun _ h => h, Token.plain_mark (by simp),
    Token.plain_mark (by simp), by simp⟩

end Func
end SsaGraph
