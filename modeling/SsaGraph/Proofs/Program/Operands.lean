import SsaGraph.Proofs.Program.Tokens

/-!
Reading the operands of a function that is already known.  While its text is read, the
builder `Knows` what was read so far: the instructions are the same, and each name stands
for what it names in the function.  Operands add values to the arena and change nothing
else, and each is read as what it was written for (`reading_value`).
-/

namespace SsaGraph
namespace Func

section
variable {f g h : Func} {v w : Handle}

theorem Denotes.mono (hvw : Denotes f g v w) (hgh : g.Extends h) : Denotes f h v w := by
  obtain ⟨x, y, hx, hy, hsame⟩ := hvw
  exact ⟨x, y, hx, hgh hy, hsame⟩

theorem Resembles.mono (hvw : Resembles f g v w) (hgh : g.Extends h) : Resembles f h v w := by
  obtain ⟨x, y, hx, hy, hsame⟩ := hvw
  exact ⟨x, y, hx, hgh hy, hsame⟩

theorem SameInstruction.mono {a b : Instruction} (hab : SameInstruction f g a b)
    (hgh : g.Extends h) : SameInstruction f h a b where
  opcode := hab.opcode
  predicate := hab.predicate
  operands := hab.operands.imp fun _ _ hvw => hvw.mono hgh
  result := by
    have hresult := hab.result
    generalize a.result = v, b.result = w at hresult ⊢
    cases hresult with
    | some hvw => exact .some (hvw.mono hgh)
    | none => exact .none

end

/-- Symbols are pointers and blocks are labels. -/
def NamesTyped (f : Func) : Prop := ∀ ⦃v x⦄, f.value? v = some x →
  (∀ name, x.kind = .symbol name → x.type = .ptr) ∧ ∀ name, x.kind = .block name → x.type = .label

theorem NamesTyped.pushValue {f : Func} (h : f.NamesTyped) {kind : ValueKind} {type : Ty}
    (hsymbol : ∀ name, kind = .symbol name → type = .ptr)
    (hblock : ∀ name, kind = .block name → type = .label) (name : Option String) :
    (f.pushValue kind type name).1.NamesTyped := by
  intro v x hx
  rw [value?_pushValue] at hx
  split at hx
  · cases hx
    exact ⟨hsymbol, hblock⟩
  · exact h hx

end Func

namespace Builder

/-! ## Values that are built -/

/-- The step from `b` to `r` only adds values, and answers one of the given kind and type. -/
structure Gives (b : Builder) (kind : ValueKind) (type : Ty) (r : Builder × Handle) : Prop where
  sound : r.1.Sound
  typed : r.1.func.NamesTyped
  grows : b.func.Extends r.1.func
  name : r.1.func.name = b.func.name
  args : r.1.func.args = b.func.args
  instructions : r.1.func.instructions = b.func.instructions
  value : ∃ y, r.1.func.value? r.2 = some y ∧ y.kind = kind ∧ y.type = type

section
variable {b : Builder}

/-- A new value. -/
theorem gives_pushValue {kind : ValueKind} {type : Ty} {name : Option String} {b' : Builder}
    (hsound : b'.Sound) (hfunc : b'.func = (b.func.pushValue kind type name).1)
    (htyped : b'.func.NamesTyped) : b.Gives kind type (b', b.func.values.size) where
  sound := hsound
  typed := htyped
  grows := hfunc ▸ b.func.extends_pushValue kind type name
  name := by rw [hfunc]; rfl
  args := by rw [hfunc]; rfl
  instructions := by rw [hfunc]; rfl
  value := ⟨⟨kind, type, name⟩, by rw [hfunc, Func.value?_pushValue_new], rfl, rfl⟩

variable (h : b.Sound) (htyped : b.func.NamesTyped)
include h htyped

theorem float_gives (x : Binary64) : b.Gives (.float x) .double (b.float x) :=
  gives_pushValue (sound_float h x) rfl (htyped.pushValue (by simp) (by simp) none)

theorem int_gives (bits : Nat) (n : UInt64) : b.Gives (.int n) (.int bits) (b.int bits n) :=
  gives_pushValue (sound_int h bits n) rfl (htyped.pushValue (by simp) (by simp) none)

theorem symbol_gives (name : String) : b.Gives (.symbol name) .ptr (b.symbol name) := by
  have hsound := sound_symbol h name
  unfold symbol at hsound ⊢
  split at hsound
  next v hv =>
    obtain ⟨y, hy, hkind⟩ := Option.map_eq_some_iff.mp ((h.symbols name v).mp hv)
    exact ⟨h, htyped, .refl _, rfl, rfl, rfl, y, hy, hkind, (htyped hy).1 name hkind⟩
  · exact gives_pushValue hsound rfl (htyped.pushValue (fun _ _ => rfl) (by simp) _)

theorem label_gives (name : String) : b.Gives (.block name) .label (b.label name) := by
  have hsound := sound_label h name
  unfold label at hsound ⊢
  split at hsound
  next v hv =>
    obtain ⟨y, hy, hkind⟩ := Option.map_eq_some_iff.mp ((h.labels name v).mp hv)
    exact ⟨h, htyped, .refl _, rfl, rfl, rfl, y, hy, hkind, (htyped hy).2 name hkind⟩
  · exact gives_pushValue hsound rfl (htyped.pushValue (by simp) (fun _ _ => rfl) _)

end

end Builder

namespace Reader

/-! ## What is known -/

/-- The header and the first `i` instructions of `f` were read. -/
structure Knows (f : Func) (i : Nat) (b : Builder) (l : Table String Handle) : Prop where
  sound : b.Sound
  typed : b.func.NamesTyped
  name : b.func.name = f.name
  args : List.Forall₂ (f.Resembles b.func) f.args b.func.args
  instructions : List.Forall₂ (f.SameInstruction b.func) (f.instructions.toList.take i)
    b.func.instructions.toList
  locals : ∀ {v x name}, f.value? v = some x → x.isLocal = true → x.name = some name →
    (∀ j, x.kind = .result j → j < i) → ∃ w, l.get? name = some w ∧ f.Denotes b.func v w

theorem Knows.gives {f : Func} {i : Nat} {b : Builder} {l : Table String Handle}
    (h : Knows f i b l) {kind : ValueKind} {type : Ty} {r : Builder × Handle}
    (hr : b.Gives kind type r) : Knows f i r.1 l where
  sound := hr.sound
  typed := hr.typed
  name := hr.name.trans h.name
  args := by
    rw [hr.args]
    exact h.args.imp fun _ _ hvw => hvw.mono hr.grows
  instructions := by
    rw [hr.instructions]
    exact h.instructions.imp fun _ _ hab => hab.mono hr.grows
  locals hv hlocal hname hdefined := by
    obtain ⟨w, hw, hvw⟩ := h.locals hv hlocal hname hdefined
    exact ⟨w, hw, hvw.mono hr.grows⟩

/-- `m` reads `before` up to `after` while nothing but values is added.  All values of `g`
are in the arena. -/
def Reading {α : Type} (f : Func) (i : Nat) (g : Func) (before after : List Token) (m : Reader α)
    (post : Func → α → Prop) : Prop :=
  ∀ b l, Knows f i b l → g.Extends b.func →
    Reads b l before after m fun a b' l' => Knows f i b' l' ∧ g.Extends b'.func ∧ post b'.func a

section
variable {α β : Type} {f g : Func} {i : Nat} {x y z : List Token} {m : Reader α}
  {k : α → Reader β} {mid : Func → α → Prop} {post : Func → β → Prop}

theorem Reading.bind (hm : Reading f i g x y m mid)
    (hk : ∀ a g', g.Extends g' → mid g' a → Reading f i g' y z (k a) post) :
    Reading f i g x z (m >>= k) post := by
  intro b l hb hg
  refine (hm b l hb hg).bind fun a b' l' h => ?_
  obtain ⟨hb', hg', hmid⟩ := h
  refine (hk a b'.func hg' hmid b' l' hb' (.refl _)).imp fun c b'' l'' h => ?_
  exact ⟨h.1, hg'.trans h.2.1, h.2.2⟩

theorem Takes.thenReading {a : α} (hm : Takes x y m a) (hk : Reading f i g y z (k a) post) :
    Reading f i g x z (m >>= k) post := fun b l hb hg => hm.andThen (hk b l hb hg)

theorem Reading.pure {a : α} (h : ∀ g', g.Extends g' → mid g' a) :
    Reading f i g x x (Pure.pure a) mid := fun b _ hb hg => .pure ⟨hb, hg, h b.func hg⟩

section
variable {step : α → Reader (Round α)} {a : α} {post : Func → α → Prop}

theorem Reading.iterate_done
    (h : Reading f i g x y (step a) fun g' r => ∃ c, r = .done c ∧ post g' c) :
    Reading f i g x y (iterate step a) post := by
  intro b l hb hg
  refine .iterate_done ((h b l hb hg).imp fun r b' l' hr => ?_)
  obtain ⟨hb', hg', c, rfl, hc⟩ := hr
  exact ⟨c, rfl, hb', hg', hc⟩

theorem Reading.iterate_again
    (h : Reading f i g x y (step a) fun g' r => ∃ c, r = .again c ∧ mid g' c)
    (hless : y.length < x.length)
    (hrest : ∀ c g', g.Extends g' → mid g' c → Reading f i g' y z (iterate step c) post) :
    Reading f i g x z (iterate step a) post := by
  intro b l hb hg
  have hstep : Reads b l x y (step a) fun r b' l' => ∃ c, r = .again c ∧
      Knows f i b' l' ∧ g.Extends b'.func ∧ mid b'.func c := by
    refine (h b l hb hg).imp fun r b' l' hr => ?_
    obtain ⟨hb', hg', c, hc, hmid⟩ := hr
    exact ⟨c, hc, hb', hg', hmid⟩
  refine .iterate_again hstep hless fun c b' l' hc => ?_
  obtain ⟨hb', hg', hmid⟩ := hc
  refine (hrest c b'.func hg' hmid b' l' hb' (.refl _)).imp fun d b'' l'' hd => ?_
  exact ⟨hd.1, hg'.trans hd.2.1, hd.2.2⟩

end

/-! ## Operands -/

/-- A value that may be used by the instruction with index `i`. -/
structure Usable (f : Func) (i : Nat) (v : Handle) (x : Value) : Prop where
  value : f.value? v = some x
  typed : x.WellTyped
  defined : ∀ j, x.kind = .result j → j < i

variable {v : Handle}

/-- A value of the right kind and type is built. -/
theorem reading_build {kind : ValueKind} {type : Ty} {name : Option String}
    (hv : f.value? v = some ⟨kind, type, name⟩) {make : Builder → Builder × Handle}
    (hmake : ∀ {b : Builder}, b.Sound → b.func.NamesTyped → b.Gives kind type (make b)) :
    Reading f i g x x (build make) fun g' w => f.Denotes g' v w := by
  intro b l hb hg s hsb hsl hx
  have hgives := hmake hb.sound hb.typed
  obtain ⟨y, hy, hkind, htype⟩ := hgives.value
  refine ⟨(make s.builder).2, { s with builder := (make s.builder).1 }, rfl, hx, rfl, ?_⟩
  rw [hsb, hsl]
  exact ⟨hb.gives hgives, hg.trans hgives.grows, _, y, hv, hy, hkind, htype⟩

/-- A name stands for what it names in the function. -/
theorem reading_local? {u : Value} {name : String} (hu : Usable f i v u)
    (hlocal : u.isLocal = true) (hname : u.name = some name) :
    Reading f i g x x (local? name) fun g' a => ∃ w, a = some w ∧ f.Denotes g' v w := by
  intro b l hb hg s hsb hsl hx
  obtain ⟨w, hw, hvw⟩ := hb.locals hu.value hlocal hname hu.defined
  refine ⟨_, s, rfl, hx, rfl, ?_⟩
  rw [hsb, hsl]
  exact ⟨hb, hg, w, hw, hvw⟩

/-- An argument or a result is read by its name. -/
theorem reading_valueAhead_local {u : Value} (hu : Usable f i v u) (hlocal : u.isLocal = true)
    {name : String} (hname : u.name = some name) (hlabel : u.type ≠ .label) :
    Reading f i g (.loc name :: x) (.loc name :: x) (valueAhead u.type)
      fun g' w => f.Denotes g' v w := by
  have hlabel : u.type.isLabel = false := by
    cases h : u.type with
    | label => exact absurd h hlabel
    | _ => rfl
  refine takes_peek.thenReading ?_
  dsimp only
  rw [if_neg (by simp [hlabel])]
  refine (reading_local? hu hlocal hname).bind fun a g₁ _ ha => ?_
  obtain ⟨w, rfl, hw⟩ := ha
  exact .pure fun g₂ hg => hw.mono hg

theorem reading_valueAhead {u : Value} (hu : Usable f i v u) :
    Reading f i g (u.token :: x) (u.token :: x) (valueAhead u.type) fun g' w => f.Denotes g' v w := by
  obtain ⟨kind, type, name⟩ := u
  cases kind with
  | argument position =>
    obtain ⟨_, _, hlabel, n, rfl, _⟩ := hu.typed
    exact reading_valueAhead_local hu rfl rfl hlabel
  | result index =>
    obtain ⟨_, _, hlabel, n, rfl, _⟩ := hu.typed
    exact reading_valueAhead_local hu rfl rfl hlabel
  | float y =>
    obtain rfl : type = .double := hu.typed
    exact takes_peek.thenReading
      (reading_build hu.value fun hb ht => Builder.float_gives hb ht y)
  | int n =>
    obtain ⟨bits, rfl⟩ : ∃ bits, type = .int bits := by
      cases type with
      | int bits => exact ⟨bits, rfl⟩
      | _ => cases hu.typed.1
    exact takes_peek.thenReading
      (reading_build hu.value fun hb ht => Builder.int_gives hb ht bits n)
  | symbol s =>
    obtain ⟨rfl, _⟩ := hu.typed
    exact takes_peek.thenReading
      (reading_build hu.value fun hb ht => Builder.symbol_gives hb ht s)
  | block s =>
    obtain ⟨rfl, _⟩ := hu.typed
    exact takes_peek.thenReading
      (reading_build hu.value fun hb ht => Builder.label_gives hb ht s)

/-- An operand is read as what it was written for. -/
theorem reading_value {u : Value} (hu : Usable f i v u) :
    Reading f i g (u.token :: x) x (value u.type) fun g' w => f.Denotes g' v w := by
  refine (reading_valueAhead hu).bind fun w g₁ _ hw => ?_
  refine (takes_advance (Token.ne_of_isOperand u.isOperand_token rfl)).thenReading ?_
  exact .pure fun g₂ hg => hw.mono hg

theorem reading_typedValue {u : Value} (hu : Usable f i v u) :
    Reading f i g (u.typed ++ x) x typedValue fun g' a => f.Denotes g' v a.1 ∧ a.2 = u.type := by
  rw [Value.typed_append]
  refine (takes_type hu.typed.valid (Token.ne_of_isOperand u.isOperand_token rfl)).thenReading ?_
  refine (reading_value hu).bind fun w g₁ _ hw => ?_
  exact .pure fun g₂ hg => ⟨hw.mono hg, rfl⟩

/-- Two values behind one type. -/
theorem reading_operandPair {v' : Handle} {u u' : Value} (hu : Usable f i v u)
    (hu' : Usable f i v' u') (htype : u'.type = u.type) :
    Reading f i g (u.typed ++ .comma :: u'.token :: x) x operandPair
      fun g' a => List.Forall₂ (f.Denotes g') [v, v'] [a.1, a.2.1] ∧ a.2.2 = u.type := by
  rw [Value.typed_append]
  refine (takes_type hu.typed.valid (Token.ne_of_isOperand u.isOperand_token rfl)).thenReading ?_
  refine (reading_value hu).bind fun w g₁ _ hw => (takes_expect (by simp)).thenReading ?_
  rw [← htype]
  refine (reading_value hu').bind fun w' g₂ hg hw' => ?_
  exact .pure fun g₃ hg' => ⟨.cons (hw.mono (hg.trans hg')) (.cons (hw'.mono hg') .nil), rfl⟩

end

end Reader
end SsaGraph
