import SsaGraph.Program.Operand
import SsaGraph.Proofs.Func.Arena

/-!
Reading keeps the function under construction in order.  `Keeps n m post` says so of a
reader `m` that starts with at least `n` values in the arena: however it ends, the
builder is sound, names stand for values in the arena, and there are still `n` values.
What was read satisfies `post`, which may speak about the size of the arena then.
-/

namespace SsaGraph

/-- Number of values in the arena. -/
def ReadState.size (s : ReadState) : Nat := s.builder.func.values.size

/-- The builder is sound, and names stand for values in its arena. -/
structure ReadState.Sound (s : ReadState) : Prop where
  builder : s.builder.Sound
  locals : ∀ {name v}, s.locals.get? name = some v → v < s.size

/-- What a round ends with, whether or not there is another one. -/
def Round.result {α : Type} : Round α → α
  | again a => a
  | done a => a

namespace Reader

/-- How a reader that keeps the function in order ends. -/
def Ends {α : Type} (n : Nat) (post : Nat → α → Prop) :
    EStateM.Result (Located SyntaxError) ReadState α → Prop
  | .ok a t => t.Sound ∧ n ≤ t.size ∧ post t.size a
  | .error _ t => t.Sound ∧ n ≤ t.size

def Keeps {α : Type} (n : Nat) (m : Reader α) (post : Nat → α → Prop) : Prop :=
  ∀ s : ReadState, s.Sound → n ≤ s.size → Ends n post (m s)

/-- Nothing is said about what was read. -/
def Anything {α : Type} : Nat → α → Prop := fun _ _ => True

/-- The values are in an arena of size `n`. -/
def Inside (n : Nat) (vs : List Handle) : Prop := ∀ v ∈ vs, v < n

theorem Inside.nil {n : Nat} : Inside n [] := by nofun

theorem Inside.cons {n : Nat} {v : Handle} {vs : List Handle} (hv : v < n) (h : Inside n vs) :
    Inside n (v :: vs) := List.forall_mem_cons.mpr ⟨hv, h⟩

theorem Inside.append {n : Nat} {vs ws : List Handle} (hv : Inside n vs) (hw : Inside n ws) :
    Inside n (vs ++ ws) := List.forall_mem_append.mpr ⟨hv, hw⟩

theorem Inside.mono {n l : Nat} {vs : List Handle} (h : Inside n vs) (hle : n ≤ l) :
    Inside l vs := fun v hv => Nat.lt_of_lt_of_le (h v hv) hle

section
variable {α β : Type} {n : Nat} {m : Reader α} {k : α → Reader β} {post : Nat → α → Prop}
  {post' : Nat → β → Prop}

/-! ## Sequences -/

theorem Keeps.pure {a : α} (h : ∀ l, n ≤ l → post l a) : Keeps n (pure a : Reader α) post :=
  fun s hs hn => ⟨hs, hn, h s.size hn⟩

theorem Keeps.answer {a : α} : Keeps n (Pure.pure a : Reader α) Anything :=
  .pure fun _ _ => trivial

theorem Ends.le {l : Nat} {r : EStateM.Result (Located SyntaxError) ReadState α}
    (h : Ends l post r) (hle : n ≤ l) : Ends n post r := by
  cases r with
  | ok a t => exact ⟨h.1, Nat.le_trans hle h.2.1, h.2.2⟩
  | error e t => exact ⟨h.1, Nat.le_trans hle h.2⟩

theorem Keeps.bind_ends (hm : Keeps n m post)
    (hk : ∀ a t, ReadState.Sound t → n ≤ t.size → post t.size a → Ends n post' (k a t)) :
    Keeps n (m >>= k) post' := by
  intro s hs hn
  have hm := hm s hs hn
  show Ends n post' (EStateM.bind m k s)
  unfold EStateM.bind
  cases hr : m s with
  | ok a t =>
    rw [hr] at hm
    exact hk a t hm.1 hm.2.1 hm.2.2
  | error e t =>
    rw [hr] at hm
    exact hm

/-- The step behind may use what was read, in an arena of the size it has then. -/
theorem Keeps.bind (hm : Keeps n m post)
    (hk : ∀ a l, n ≤ l → post l a → Keeps l (k a) post') : Keeps n (m >>= k) post' :=
  hm.bind_ends fun a t ht hn hpost => (hk a t.size hn hpost t ht (Nat.le_refl _)).le hn

/-- The step behind needs nothing of what was read. -/
theorem Keeps.andThen (hm : Keeps n m post) (hk : ∀ a, Keeps n (k a) post') :
    Keeps n (m >>= k) post' :=
  hm.bind_ends fun a t ht hn _ => hk a t ht hn

theorem Keeps.ite {c : Prop} [Decidable c] {m' : Reader α} (hm : Keeps n m post)
    (hm' : Keeps n m' post) : Keeps n (if c then m else m') post := by
  split
  · exact hm
  · exact hm'

theorem Keeps.discard (hm : Keeps n m post) : Keeps n (Functor.discard m) Anything := by
  intro s hs hn
  have hm := hm s hs hn
  show Ends n Anything (EStateM.map (fun _ => PUnit.unit) m s)
  unfold EStateM.map
  cases hr : m s with
  | ok a t =>
    rw [hr] at hm
    exact ⟨hm.1, hm.2.1, trivial⟩
  | error e t =>
    rw [hr] at hm
    exact hm

theorem Keeps.foldlM {step : β → α → Reader β} (hstep : ∀ b a, Keeps n (step b a) Anything)
    (as : List α) (b : β) : Keeps n (as.foldlM step b) Anything := by
  induction as generalizing b with
  | nil => exact .answer
  | cons a rest ih =>
    rw [List.foldlM_cons]
    exact (hstep b a).andThen ih

theorem Keeps.iterate_ends {step : α → Reader (Round α)}
    (hstep : ∀ a s, ReadState.Sound s → n ≤ s.size → post s.size a →
      Ends n (fun l r => post l (Round.result r)) (step a s)) {a : α}
    (ha : ∀ l, n ≤ l → post l a) : Keeps n (iterate step a) post := by
  suffices h : ∀ a s, ReadState.Sound s → n ≤ s.size → post s.size a →
      Ends n post (Reader.iterate step a s) from fun s hs hn => h a s hs hn (ha s.size hn)
  intro a s
  fun_induction Reader.iterate step a s with
  | case1 a s b t hr =>
    intro hs hn ha
    have hround := hstep a s hs hn ha
    rw [hr] at hround
    exact hround
  | case2 a s b t hr hless ih =>
    intro hs hn ha
    have hround := hstep a s hs hn ha
    rw [hr] at hround
    exact ih hround.1 hround.2.1 hround.2.2
  | case3 a s b t hr hless =>
    intro hs hn ha
    have hround := hstep a s hs hn ha
    rw [hr] at hround
    exact hround
  | case4 a s e t hr =>
    intro hs hn ha
    have hround := hstep a s hs hn ha
    rw [hr] at hround
    exact hround

/-- What every round keeps, the repetition keeps. -/
theorem Keeps.iterate {step : α → Reader (Round α)}
    (hstep : ∀ a l, n ≤ l → post l a → Keeps l (step a) fun l r => post l r.result) {a : α}
    (ha : ∀ l, n ≤ l → post l a) : Keeps n (iterate step a) post :=
  .iterate_ends (fun a s hs hn ha => (hstep a s.size hn ha s hs (Nat.le_refl _)).le hn) ha

/-! ## Faults -/

theorem keeps_fail (e : SyntaxError) : Keeps n (fail e : Reader α) post :=
  fun _ hs hn => ⟨hs, hn⟩

/-- Nothing behind a fault is reached. -/
theorem keeps_fail_bind (e : SyntaxError) : Keeps n ((fail e : Reader α) >>= k) post' :=
  fun _ hs hn => ⟨hs, hn⟩

theorem keeps_throw (e : Located SyntaxError) : Keeps n (throw e : Reader α) post :=
  fun _ hs hn => ⟨hs, hn⟩

/-- A reader that runs `m` and goes on after a fault, with other tokens and more faults
noted. -/
theorem keeps_of_goesOn {m' : Reader β} (hm : Keeps n m post)
    (hok : ∀ {s a t}, m s = .ok a t → ∃ b, m' s = .ok b t)
    (herror : ∀ {s e t}, m s = .error e t →
      ∃ b rest faults, m' s = .ok b { t with rest := rest, faults := faults }) :
    Keeps n m' Anything := by
  intro s hs hn
  have hm := hm s hs hn
  cases hr : m s with
  | ok a t =>
    obtain ⟨b, hb⟩ := hok hr
    rw [hr] at hm
    rw [hb]
    exact ⟨hm.1, hm.2.1, trivial⟩
  | error e t =>
    obtain ⟨b, rest, faults, hb⟩ := herror hr
    rw [hr] at hm
    rw [hb]
    exact ⟨⟨hm.1.builder, hm.1.locals⟩, hm.2, trivial⟩

theorem keeps_recover {m : Reader Unit} (hm : Keeps n m Anything) :
    Keeps n (recover m) Anything :=
  keeps_of_goesOn hm (fun h => ⟨(), by rw [recover, h]⟩) fun h => ⟨(), _, _, by rw [recover, h]⟩

theorem keeps_tolerate (hm : Keeps n m post) : Keeps n (tolerate m) Anything :=
  keeps_of_goesOn hm (fun h => ⟨_, by rw [tolerate, h]⟩) fun h => ⟨none, _, _, by rw [tolerate, h]⟩

theorem keeps_attempt (hm : Keeps n m post) : Keeps n (attempt m) Anything :=
  keeps_of_goesOn hm (fun h => ⟨_, by rw [attempt, h]⟩) fun h => ⟨none, _, _, by rw [attempt, h]⟩

/-! ## The function under construction -/

/-- What the builder does is kept if it stays sound and loses no value. -/
theorem keeps_build {f : Builder → Builder × α}
    (h : ∀ b : Builder, b.Sound → n ≤ b.func.values.size → (f b).1.Sound ∧
      b.func.values.size ≤ (f b).1.func.values.size ∧ post (f b).1.func.values.size (f b).2) :
    Keeps n (build f) post := by
  intro s hs hn
  obtain ⟨hsound, hgrows, hpost⟩ := h s.builder hs.builder hn
  refine ⟨⟨hsound, fun hv => ?_⟩, Nat.le_trans hn hgrows, hpost⟩
  exact Nat.lt_of_lt_of_le (hs.locals hv) hgrows

theorem keeps_build_value {f : Builder → Builder × Handle}
    (h : ∀ b : Builder, b.Sound → b.Answers (f b)) : Keeps n (build f) fun l v => v < l :=
  keeps_build fun b hb _ => ⟨(h b hb).sound, (h b hb).grows, (h b hb).handle⟩

theorem keeps_local? (name : String) : Keeps n (local? name) fun l v => Inside l v.toList :=
  fun _ hs hn => ⟨hs, hn, fun _ hv => hs.locals (Option.mem_toList.mp hv)⟩

theorem keeps_define (name : String) {v : Handle} (hv : v < n) : Keeps n (define name v) Anything := by
  intro s hs hn
  refine ⟨⟨hs.builder, fun {other w} hw => ?_⟩, hn, trivial⟩
  have hw : (s.locals.insert name v).get? other = some w := hw
  rw [Table.get?_insert] at hw
  split at hw
  · cases hw
    exact Nat.lt_of_lt_of_le hv hn
  · exact hs.locals hw

end

/-! ## Tokens -/

section
variable {n : Nat}

theorem keeps_peek : Keeps n peek Anything := fun _ hs hn => ⟨hs, hn, trivial⟩

theorem keeps_peekNext : Keeps n peekNext Anything := fun _ hs hn => ⟨hs, hn, trivial⟩

theorem keeps_skip (f : List (Located Token) → List (Located Token)) : Keeps n (skip f) Anything :=
  fun _ hs hn => ⟨⟨hs.builder, hs.locals⟩, hn, trivial⟩

theorem keeps_advance : Keeps n advance Anything := keeps_skip behind

theorem keeps_eat (t : Token) : Keeps n (eat t) Anything := by
  refine keeps_peek.andThen fun next => ?_
  split
  · exact keeps_advance.andThen fun _ => .answer
  · exact .answer

theorem keeps_eatKeyword (keyword : String) : Keeps n (eatKeyword keyword) Anything := keeps_eat _

theorem keeps_expect (t : Token) : Keeps n (expect t) Anything := by
  refine (keeps_eat t).andThen fun found => ?_
  split
  · exact .answer
  · exact keeps_peek.andThen fun _ => keeps_fail _

theorem keeps_expectKeyword (keyword : String) : Keeps n (expectKeyword keyword) Anything := by
  refine (keeps_eatKeyword keyword).andThen fun found => ?_
  split
  · exact .answer
  · exact keeps_peek.andThen fun _ => keeps_fail _

theorem keeps_expectWord : Keeps n expectWord Anything := by
  intro s hs hn
  unfold expectWord
  split
  · exact ⟨⟨hs.builder, hs.locals⟩, hn, trivial⟩
  · exact ⟨hs, hn⟩

theorem keeps_expectInteger : Keeps n expectInteger Anything := by
  refine keeps_peek.andThen fun next => ?_
  split
  · exact keeps_advance.andThen fun _ => .answer
  · exact keeps_fail _

/-! ## Types -/

theorem keeps_stars (type : Ty) : Keeps n (stars type) Anything := by
  refine .iterate (fun type l _ _ => ?_) fun _ _ => trivial
  refine (keeps_eat .star).andThen fun found => ?_
  split <;> exact .answer

theorem keeps_openArray (lengths : List UInt64) : Keeps n (openArray lengths) Anything := by
  refine (keeps_eat .lbracket).andThen fun found => ?_
  split
  · exact keeps_expectInteger.andThen fun _ => (keeps_expectKeyword "x").andThen fun _ => .answer
  · exact .answer

theorem keeps_baseType : Keeps n baseType Anything := by
  refine keeps_peek.andThen fun next => ?_
  split
  · split
    · exact keeps_advance.andThen fun _ => .answer
    · exact keeps_fail _
  · exact keeps_fail _

theorem keeps_type : Keeps n type Anything := by
  have hopen : Keeps n (iterate openArray []) Anything :=
    .iterate (fun lengths l _ _ => keeps_openArray lengths) fun _ _ => trivial
  refine hopen.andThen fun lengths => ?_
  refine keeps_baseType.andThen fun base => (keeps_stars base).andThen fun innermost => ?_
  refine .foldlM (fun element n => ?_) lengths innermost
  exact (keeps_expect .rbracket).andThen fun _ => keeps_stars _

theorem keeps_skipFastMathFlags : Keeps n skipFastMathFlags Anything := keeps_skip _

theorem keeps_skipArgumentAttributes : Keeps n skipArgumentAttributes Anything := by
  refine .iterate (fun _ l _ _ => ?_) fun _ _ => trivial
  refine keeps_peek.andThen fun next => ?_
  split
  · split
    · exact .answer
    · refine keeps_advance.andThen fun _ => keeps_peek.andThen fun next => ?_
      split
      · exact (keeps_skip _).andThen fun _ => .answer
      · split
        · exact keeps_advance.andThen fun _ => .answer
        · exact .answer
      · exact .answer
  · exact .answer

/-! ## Values -/

theorem keeps_valueAhead (type : Ty) : Keeps n (valueAhead type) fun l v => v < l := by
  refine keeps_peek.andThen fun found => ?_
  split
  next name =>
    split
    · exact keeps_build_value fun b hb => Builder.label_answers hb name
    · refine (keeps_local? name).bind fun v l _ hv => ?_
      split
      next v =>
        have hv : v < l := hv v List.mem_cons_self
        exact .pure fun l hle => Nat.lt_of_lt_of_le hv hle
      · exact keeps_fail _
  next name =>
    exact keeps_build_value fun b hb => Builder.symbol_answers hb name
  next x =>
    split
    · exact keeps_build_value fun b hb => Builder.float_answers hb x
    · exact keeps_fail _
  next n =>
    split
    · exact keeps_build_value fun b hb => Builder.float_answers hb _
    · exact keeps_build_value fun b hb => Builder.float_answers hb _
    next bits =>
      exact keeps_build_value fun b hb => Builder.int_answers hb bits n
    · exact keeps_fail _
  next w =>
    split
    · exact keeps_build_value fun b hb => Builder.int_answers hb 1 _
    · split <;> exact keeps_fail _
  · exact keeps_fail _

theorem keeps_value (type : Ty) : Keeps n (value type) fun l v => v < l := by
  refine (keeps_valueAhead type).bind fun v l _ hv => keeps_advance.andThen fun _ => ?_
  exact .pure fun l' hle => Nat.lt_of_lt_of_le hv hle

theorem keeps_typedValue : Keeps n typedValue fun l v => v.1 < l := by
  refine keeps_type.andThen fun ty => (keeps_value ty).bind fun v l _ hv => ?_
  exact .pure fun l hle => Nat.lt_of_lt_of_le hv hle

theorem keeps_operandPair : Keeps n operandPair fun l v => Inside l [v.1, v.2.1] := by
  refine keeps_type.andThen fun ty => (keeps_value ty).bind fun left l _ hleft => ?_
  refine (keeps_expect .comma).andThen fun _ => (keeps_value ty).bind fun right l' hle hright => ?_
  have hall : Inside l' [left, right] := .cons (Nat.lt_of_lt_of_le hleft hle) (.cons hright .nil)
  exact .pure fun _ hle' => hall.mono hle'

end

end Reader
end SsaGraph
