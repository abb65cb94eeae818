import SsaGraph.Program.Read
import SsaGraph.Proofs.Program.Locality

/-!
Each reader of operands, lines and headers is local.
-/

namespace SsaGraph
namespace Reader

/-! ## Values -/

/-- A use of the builder that does not look at the instructions. -/
structure Draws {α : Type} (f : Builder → Builder × α) : Prop where
  instructions : ∀ b, (f b).1.func.instructions = b.func.instructions
  span : ∀ b, (f b).1.span = b.span
  args : ∀ b, (f b).1.func.args = b.func.args
  values : ∀ b : Builder, b.func.Extends (f b).1.func
  answer : ∀ {place b b'}, Builder.Matches place b b' → (f b').2 = (f b).2
  matched : ∀ {place b b'}, Builder.Matches place b b' → Builder.Matches place (f b).1 (f b').1

section
variable {place : Span → Span → Prop} {f f' : Func}

theorem matches_pushValue (h : f.Matches place f') (kind : ValueKind) (type : Ty)
    (name : Option String) :
    (f'.pushValue kind type name).2 = (f.pushValue kind type name).2 ∧
      (f.pushValue kind type name).1.Matches place (f'.pushValue kind type name).1 := by
  obtain ⟨hfunc, hinstructions⟩ := h
  rw [hfunc]
  exact ⟨rfl, rfl, hinstructions⟩

theorem draws_literal (kind : ValueKind) (type : Ty) : Draws (·.literal kind type) where
  instructions _ := rfl
  span _ := rfl
  args _ := rfl
  values b := b.func.extends_pushValue kind type none
  answer h := (matches_pushValue h.func kind type none).1
  matched h := ⟨(matches_pushValue h.func kind type none).2, h.symbols, h.labels⟩

theorem draws_symbol (name : String) : Draws (·.symbol name) where
  instructions b := by unfold Builder.symbol; split <;> rfl
  span b := by unfold Builder.symbol; split <;> rfl
  args b := by unfold Builder.symbol; split <;> rfl
  values b := by
    unfold Builder.symbol
    split
    · exact .refl _
    · exact b.func.extends_pushValue _ _ _
  answer h := by
    simp only [Builder.symbol, h.symbols]
    split
    · rfl
    · exact (matches_pushValue h.func (.symbol name) .ptr (some name)).1
  matched {_ b _} h := by
    simp only [Builder.symbol, h.symbols]
    split
    · exact h
    · obtain ⟨hanswer, hfunc⟩ := matches_pushValue h.func (.symbol name) .ptr (some name)
      exact ⟨hfunc, by rw [hanswer], h.labels⟩

theorem draws_label (name : String) : Draws (·.label name) where
  instructions b := by unfold Builder.label; split <;> rfl
  span b := by unfold Builder.label; split <;> rfl
  args b := by unfold Builder.label; split <;> rfl
  values b := by
    unfold Builder.label
    split
    · exact .refl _
    · exact b.func.extends_pushValue _ _ _
  answer h := by
    simp only [Builder.label, h.labels]
    split
    · rfl
    · exact (matches_pushValue h.func (.block name) .label (some name)).1
  matched {_ b _} h := by
    simp only [Builder.label, h.labels]
    split
    · exact h
    · obtain ⟨hanswer, hfunc⟩ := matches_pushValue h.func (.block name) .label (some name)
      exact ⟨hfunc, h.symbols, by rw [hanswer]⟩

end

section
variable {α : Type} {sure plain : Prop}

theorem local_build {f : Builder → Builder × α} (hf : Draws f) :
    Local sure plain True (build f) := by
  intro s
  refine .of_ok rfl ⟨.refl _, rfl, hf.instructions _, hf.span _, hf.args _, hf.values _⟩
    (fun _ => .refl _) fun {_ s' _} hs _ _ => ?_
  have hmatched := hs.builder trivial
  refine ⟨{ s' with builder := (f s'.builder).1 }, by rw [build, hf.answer hmatched], ?_⟩
  exact ⟨hs.rest, fun _ => hf.matched hmatched, hs.locals⟩

theorem local_local? (name : String) : Local sure plain True (local? name) := by
  refine fun s => .of_ok rfl (.refl s) (fun _ => .refl _) fun {_ s' _} hs _ _ => ⟨s', ?_, hs⟩
  rw [local?, hs.locals trivial]

theorem local_float (x : Binary64) : Local sure plain True (build (·.float x)) :=
  local_build (draws_literal (.float x) .double)

theorem local_int (bits : Nat) (n : UInt64) : Local sure plain True (build (·.int bits n)) :=
  local_build (draws_literal (.int n) (.int bits))

theorem local_valueAhead (type : Ty) : Local False plain True (valueAhead type) := by
  refine local_peek.bind fun found => ?_
  split
  next name =>
    refine .ite (local_build (draws_label name)) ((local_local? name).bind fun v => ?_)
    split
    · exact .pure _
    · exact local_fail _
  next name => exact local_build (draws_symbol name)
  next x => exact .ite (local_float x) (local_fail _)
  next n =>
    split
    · exact local_float _
    · exact local_float _
    next bits => exact local_int bits n
    · exact local_fail _
  next w => exact .ite (local_int 1 _) (.ite (local_fail _) (local_fail _))
  · exact local_fail _

theorem local_value (type : Ty) : Local False plain True (value type) :=
  (local_valueAhead type).bind fun v => local_advance.bind fun _ => .pure v

theorem local_typedValue : Local False plain True typedValue :=
  local_type.bind fun ty => (local_value ty).bind fun _ => .pure _

theorem local_operandPair : Local False plain True operandPair := by
  refine local_type.bind fun ty => (local_value ty).bind fun left => ?_
  exact (local_expect rfl).bind fun _ => (local_value ty).bind fun right => .pure _

/-! ## Lines -/

theorem local_alloca : Local False plain True alloca :=
  (local_eatKeyword _).discard.bind fun _ => local_type.discard.bind fun _ => .pure _

theorem local_skipAccessFlags : Local False plain True skipAccessFlags :=
  (local_eatKeyword _).discard.bind fun _ => (local_eatKeyword _).discard

theorem local_load : Local False plain True load :=
  local_skipAccessFlags.bind fun _ => local_type.bind fun _ => (local_expect rfl).bind fun _ =>
    local_typedValue.bind fun _ => .pure _

theorem local_store : Local False plain True store :=
  local_skipAccessFlags.bind fun _ => local_typedValue.bind fun _ => (local_expect rfl).bind fun _ =>
    local_typedValue.bind fun _ => .pure _

theorem isMetadata_of_inert {t : Token} (h : inert t = true) : isMetadata t = false := by
  cases t <;> first | rfl | cases h

theorem local_addressOperands : Local False plain True addressOperands := by
  refine .iterate (fun operands => local_lookAhead (fun t u => .ite ?_ (.pure _)) ?_) []
  · exact local_advance.bind fun _ => local_typedValue.bind fun _ => .pure _
  · intro t u u' hu hu'
    rw [isMetadata_of_inert hu, isMetadata_of_inert hu']

theorem local_getelementptr : Local False plain True getelementptr := by
  refine (local_skip_dropWhile fun t ht => ?_).bind fun _ => ?_
  · cases t <;> first | rfl | cases ht
  · refine local_type.discard.bind fun _ => local_addressOperands.bind fun operands => ?_
    exact .ite ((local_fail _).bind fun _ => .pure _) (.pure _)

theorem local_arithmetic (opcode : Opcode) : Local False plain True (arithmetic opcode) :=
  local_skipFastMathFlags.bind fun _ => local_operandPair.bind fun _ => .pure _

theorem local_fneg : Local False plain True fneg :=
  local_skipFastMathFlags.bind fun _ => local_typedValue.bind fun _ => .pure _

theorem local_predicate {α : Type} (read : String → Option α) (refuse : String → SyntaxError) :
    Local False plain True (predicate read refuse) := by
  refine local_expectWord (fun word => ?_) fun w span span' s => ?_
  · split
    · exact .pure _
    · exact local_throw _
  · simp only
    cases read w with
    | some p => exact .refl _
    | none => exact .error _ _ s

theorem local_fcmp : Local False plain True fcmp :=
  local_skipFastMathFlags.bind fun _ => (local_predicate _ _).bind fun _ =>
    local_operandPair.bind fun _ => .pure _

theorem local_icmp : Local False plain True icmp :=
  (local_eatKeyword _).discard.bind fun _ => (local_predicate _ _).bind fun _ =>
    local_operandPair.bind fun _ => .pure _

theorem local_zext : Local False plain True zext :=
  (local_eatKeyword _).discard.bind fun _ => local_typedValue.bind fun _ =>
    (local_expectKeyword _).bind fun _ => local_type.bind fun _ => .pure _

theorem local_or : Local False plain True Reader.or :=
  (local_eatKeyword _).discard.bind fun _ => local_operandPair.bind fun _ => .pure _

/-- Three typed values with commas between them. -/
theorem local_three {k : Handle × Ty → Handle × Ty → Handle × Ty → Line} :
    Local False plain True (typedValue >>= fun a => expect .comma >>= fun _ => typedValue >>= fun b =>
      expect .comma >>= fun _ => typedValue >>= fun c => pure (k a b c)) :=
  local_typedValue.bind fun _ => (local_expect rfl).bind fun _ => local_typedValue.bind fun _ =>
    (local_expect rfl).bind fun _ => local_typedValue.bind fun _ => .pure _

theorem local_select : Local False plain True select := local_skipFastMathFlags.bind fun _ => local_three

theorem local_callee : Local False plain True callee := by
  refine local_peek.bind fun next => ?_
  split
  next name => exact local_advance.bind fun _ => local_build (draws_symbol name)
  · exact local_fail _

theorem local_callHead : Local False plain True callHead := by
  have hrest : ∀ ty : Ty, Local False plain True (callee >>= fun callee => expect .lparen >>= fun _ =>
      pure (ty, callee)) :=
    fun ty => local_callee.bind fun callee => (local_expect rfl).bind fun _ => .pure _
  refine (local_skip_dropWhile fun t ht => ?_).bind fun _ => ?_
  · cases t <;> first | rfl | cases ht
  · refine local_type.bind fun ty => local_peek.bind fun next => ?_
    exact .ite ((local_skip_behindGroup _ _ _).bind fun _ => hrest ty) (hrest ty)

theorem local_callArgument (operands : List Handle) :
    Local False plain True (callArgument operands) := by
  refine local_peek.bind fun next => .ite (.pure _) ?_
  refine local_type.bind fun ty => local_skipArgumentAttributes.bind fun _ => ?_
  exact (local_value ty).bind fun v => (local_eat rfl).bind fun more => .ite (.pure _) (.pure _)

theorem local_callArguments : Local False plain True callArguments := .iterate local_callArgument []

theorem local_call : Local False plain True call :=
  local_callHead.bind fun _ => local_callArguments.bind fun _ => (local_expect rfl).bind fun _ =>
    .pure _

theorem local_br : Local False plain True br := by
  refine (local_eatKeyword _).bind fun jump => .ite ?_ local_three
  exact (local_value .label).bind fun _ => .pure _

theorem local_ret : Local False plain True ret :=
  (local_eatKeyword _).bind fun _ => .ite (.pure _) (local_typedValue.bind fun _ => .pure _)

theorem local_gather : Local False False True gather := by
  refine .iterate (fun g => local_peek.bind fun t => .ite (.pure _) ?_) _
  have hpass : ∀ {m : Reader Unit}, Local False False True m →
      Local False False True (m >>= fun _ => pure (Round.again g)) := fun hm => hm.bind fun _ => .pure _
  have hfirst : ∀ {k : Option Ty → Reader (Round Gathered)},
      (∀ ty, Local False False True (k (some ty))) → Local False False True (k none) →
        Local False False True (attempt type >>= k) := by
    intro k hsome hnone
    refine (local_attempt local_type).bind fun ty => ?_
    cases ty with
    | none => exact hnone
    | some ty => exact hsome ty
  split
  next name => exact (local_local? name).bind fun v => local_advance.bind fun _ => .pure _
  · refine .ite ?_ (.ite (hpass local_advance) (hfirst (fun _ => .pure _) (hpass local_advance)))
    exact local_advance.bind fun _ => (local_tolerate local_type).bind fun _ => .pure _
  · exact .ite (hpass (local_skip_behindGroup _ _ _))
      (hfirst (fun _ => .pure _) (hpass (local_skip_behindGroup _ _ _)))
  · exact hpass local_advance

theorem local_unknown (opcode : String) (named : Bool) : Local False False True (unknown opcode named) :=
  local_gather.bind fun _ => .pure _

/-- The words that start an instruction whose form is known. -/
def lineWords : List String := Opcode.known.map Opcode.name ++ ["tail", "musttail", "notail"]

theorem operandsOf_of_not_mem {opcode : String} (h : opcode ∉ lineWords) (named : Bool) :
    operandsOf opcode named = unknown opcode named := by
  unfold operandsOf
  split <;> first | rfl | exact absurd (by decide) h

/-- Whatever stands behind an opcode that is known. -/
theorem local_operandsOf_of_mem {opcode : String} (h : opcode ∈ lineWords) (named : Bool) :
    Local False plain True (operandsOf opcode named) := by
  unfold operandsOf
  split
  · exact local_alloca
  · exact local_load
  · exact local_store
  · exact local_getelementptr
  · exact local_arithmetic _
  · exact local_arithmetic _
  · exact local_arithmetic _
  · exact local_arithmetic _
  · exact local_fneg
  · exact local_fcmp
  · exact local_icmp
  · exact local_zext
  · exact local_or
  · exact local_select
  · exact local_call
  · exact (local_expectKeyword _).bind fun _ => local_call
  · exact (local_expectKeyword _).bind fun _ => local_call
  · exact (local_expectKeyword _).bind fun _ => local_call
  · exact local_br
  · exact local_ret
  · simp_all [lineWords, Opcode.known, Opcode.name]

/-- Whatever stands behind an opcode. -/
theorem local_operandsOf (opcode : String) (named : Bool) :
    Local False False True (operandsOf opcode named) := by
  by_cases h : opcode ∈ lineWords
  · exact local_operandsOf_of_mem h named
  · rw [operandsOf_of_not_mem h]
    exact local_unknown opcode named

theorem local_resultName {d : Prop} : Local False plain d resultName := by
  refine local_lookAhead (fun t u => ?_) fun t u u' hu hu' => ?_
  · split
    · exact local_advance.bind fun _ => local_advance.bind fun _ => .pure _
    · exact .pure _
  · -- Only an equals sign makes a name, and that is a token that matters.
    cases t with
    | loc name => cases u <;> cases hu <;> cases u' <;> cases hu' <;> rfl
    | _ => rfl

/-- A line without the place of its instruction: the name of the result and what the line
says. -/
def content : Reader (Option String × Line) := do
  let name ← resultName
  let opcode ← expectWord
  let line ← operandsOf opcode.val name.isSome
  return (name, line)

theorem local_content : Local False False True content := by
  refine local_resultName.bind fun name => local_expectWord (fun opcode => ?_) fun _ _ _ _ => .refl _
  exact (local_operandsOf _ _).bind fun line => .pure _

theorem onto_content {s t : ReadState} {a : Option String × Line} (h : content s = .ok a t) :
    Onto s t := ((local_content s).ok h).1

end

/-! ## Headers -/

section
variable {plain d : Prop}

theorem local_functionName : Local False plain d functionName := by
  refine (local_skip_until (p := endsResult) fun t ht => ?_).bind fun _ => local_peek.bind fun next => ?_
  · cases t <;> first | rfl | cases ht
  · split
    · exact local_advance.bind fun _ => .pure _
    · exact local_fail _

theorem local_parameterName? : Local False plain d parameterName? := by
  refine (local_skip_until (p := endsAttributes) fun t ht => ?_).bind fun _ => local_peek.bind fun next => ?_
  · cases t <;> first | rfl | cases ht
  · split
    · exact local_advance.bind fun _ => .pure _
    · exact .pure _
    · exact .pure _
    · exact local_fail _

theorem local_parameters : Local False plain d parameters := by
  refine .iterate (fun params => local_peek.bind fun next => .ite (.pure _) ?_) []
  refine .ite ((local_fail _).bind fun _ => ?_) ?_
  all_goals
    refine local_type.bind fun ty => local_parameterName?.bind fun name => ?_
    exact (local_eat rfl).bind fun more => .ite (.pure _) (.pure _)

theorem local_openBody : Local False plain d openBody := by
  refine (local_skip_until (p := endsHeader) fun t ht => ?_).bind fun _ => local_peek.bind fun next => ?_
  · cases t <;> first | rfl | cases ht
  · exact .ite local_advance (local_fail _)

/-- A definition up to the parenthesis that closes its parameters. -/
def signature : Reader (String × List (Ty × String)) := do
  advance
  let name ← functionName
  expect .lparen
  let params ← parameters
  expect .rparen
  return (name, params)

theorem local_signature : Local False plain d signature :=
  local_advance.bind fun _ => local_functionName.bind fun _ => (local_expect rfl).bind fun _ =>
    local_parameters.bind fun _ => (local_expect rfl).bind fun _ => .pure _

/-- A definition up to the brace that opens its body. -/
def header : Reader (String × List (Ty × String)) := do
  let r ← signature
  openBody
  return r

theorem local_header : Local False plain d header :=
  local_signature.bind fun _ => local_openBody.bind fun _ => .pure _

theorem onto_header {s t : ReadState} {a : String × List (Ty × String)} (h : header s = .ok a t) :
    Onto s t := ((local_header s : LocalAt False False False header s).ok h).1

end
end Reader
end SsaGraph
