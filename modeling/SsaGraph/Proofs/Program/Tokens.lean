import SsaGraph.Program.Read
import SsaGraph.Proofs.Func.Text

/-!
Reading known tokens.  `Reads b l before after m post` says that `m` succeeds with the
builder `b` and the names `l` if the tokens `before` are still to be read, that it leaves
`after`, and that what it gives satisfies `post`.  A reader that only looks at tokens
gives one value and changes nothing else (`Takes`).  The places of tokens do not matter.
-/

namespace SsaGraph

/-- The tokens still to be read. -/
def ReadState.tokens (s : ReadState) : List Token := s.rest.map (·.val)

/-- The tokens that a type is written with.  Stars may stand behind it, and then it is a
pointer. -/
inductive Ty.Spelled : List Token → Ty → Prop
  | word {w : String} {ty : Ty} (h : Ty.ofWord? w = some ty) : Spelled [.word w] ty
  | array {x : List Token} {element : Ty} (n : UInt64) (h : Spelled x element) :
    Spelled (.lbracket :: .int n :: .word "x" :: (x ++ [.rbracket])) (.array n.toNat element)
  | star {x : List Token} {ty : Ty} (h : Spelled x ty) : Spelled (x ++ [.star]) .ptr

/-- Every type has a spelling. -/
theorem Ty.spelled_tokens {ty : Ty} (h : ty.Valid) : Ty.Spelled ty.tokens ty := by
  induction ty with
  | array length element ih =>
    have htoNat : (UInt64.ofNat length).toNat = length :=
      UInt64.toNat_ofNat_of_lt' (by exact h.1)
    have harray := (ih h.2).array (UInt64.ofNat length)
    rwa [htoNat] at harray
  | int bits => exact .word (ofWord?_text_int h)
  | void | double | float | ptr | label => exact .word rfl

namespace Reader

def Reads {α : Type} (b : Builder) (l : Table String Handle) (before after : List Token)
    (m : Reader α) (post : α → Builder → Table String Handle → Prop) : Prop :=
  ∀ s : ReadState, s.builder = b → s.locals = l → s.tokens = before →
    ∃ a t, m s = .ok a t ∧ t.tokens = after ∧ t.faults = s.faults ∧ post a t.builder t.locals

def Takes {α : Type} (before after : List Token) (m : Reader α) (a : α) : Prop :=
  ∀ b l, Reads b l before after m fun a' b' l' => a' = a ∧ b' = b ∧ l' = l

section
variable {α β : Type} {b : Builder} {l : Table String Handle} {x y z : List Token} {m : Reader α}
  {k : α → Reader β} {post : β → Builder → Table String Handle → Prop}

/-! ## Sequences -/

theorem Reads.bind {mid : α → Builder → Table String Handle → Prop} (hm : Reads b l x y m mid)
    (hk : ∀ a b' l', mid a b' l' → Reads b' l' y z (k a) post) : Reads b l x z (m >>= k) post := by
  intro s hb hl hx
  obtain ⟨a, t, hr, hy, hfaults, hmid⟩ := hm s hb hl hx
  obtain ⟨c, u, hr', hz, hfaults', hpost⟩ := hk a t.builder t.locals hmid t rfl rfl hy
  refine ⟨c, u, ?_, hz, hfaults'.trans hfaults, hpost⟩
  show EStateM.bind m k s = _
  rw [EStateM.bind, hr]
  exact hr'

theorem Takes.andThen {a : α} (hm : Takes x y m a) (hk : Reads b l y z (k a) post) :
    Reads b l x z (m >>= k) post := by
  refine (hm b l).bind fun a' b' l' h => ?_
  obtain ⟨rfl, rfl, rfl⟩ := h
  exact hk

theorem Takes.bind {a : α} {c : β} (hm : Takes x y m a) (hk : Takes y z (k a) c) :
    Takes x z (m >>= k) c := fun b l => hm.andThen (hk b l)

theorem Reads.pure {a : α} {post : α → Builder → Table String Handle → Prop} (h : post a b l) :
    Reads b l x x (pure a) post := fun s hb hl hx => ⟨a, s, rfl, hx, rfl, hb ▸ hl ▸ h⟩

theorem Takes.pure {a : α} : Takes x x (pure a) a := fun _ _ => .pure ⟨rfl, rfl, rfl⟩

theorem Takes.discard {a : α} (hm : Takes x y m a) : Takes x y (discard m) () := by
  intro b l s hb hl hx
  obtain ⟨_, t, hr, hy, hfaults, rfl, hbl⟩ := hm b l s hb hl hx
  refine ⟨(), t, ?_, hy, hfaults, rfl, hbl⟩
  show EStateM.map (fun _ => PUnit.unit) m s = _
  rw [EStateM.map, hr]

/-- Nothing but the tokens changes. -/
theorem Takes.run {a : α} {s : ReadState} (h : Takes x y m a) (hs : s.tokens = x) :
    ∃ r, m s = .ok a { s with rest := r } ∧ r.map (·.val) = y := by
  obtain ⟨_, t, hr, hy, hfaults, rfl, hb, hl⟩ := h _ _ s rfl rfl hs
  refine ⟨t.rest, ?_, hy⟩
  rw [hr, ← hfaults, ← hb, ← hl]

/-- Known tokens are read in one way. -/
theorem Takes.unique {y' : List Token} {a a' : α} (h : Takes x y m a) (h' : Takes x y' m a') :
    a' = a := by
  have hx : ReadState.tokens ⟨x.map (⟨·, default⟩), [], default, .empty⟩ = x := by
    rw [ReadState.tokens, List.map_map]
    exact List.map_id x
  obtain ⟨_, _, hr, _, _, rfl, _⟩ := h _ _ _ rfl rfl hx
  obtain ⟨_, _, hr', _, _, rfl, _⟩ := h' _ _ _ rfl rfl hx
  rw [hr] at hr'
  cases hr'
  rfl

theorem Reads.imp {post post' : α → Builder → Table String Handle → Prop}
    (hm : Reads b l x y m post) (h : ∀ a b' l', post a b' l' → post' a b' l') :
    Reads b l x y m post' := by
  intro s hb hl hx
  obtain ⟨a, t, hr, hy, hfaults, hpost⟩ := hm s hb hl hx
  exact ⟨a, t, hr, hy, hfaults, h a _ _ hpost⟩

/-! ## Repetitions -/

section
variable {step : α → Reader (Round α)} {a : α} {post : α → Builder → Table String Handle → Prop}

theorem length_lt_of_tokens {s t : ReadState} (hx : s.tokens = x) (hy : t.tokens = y)
    (hless : y.length < x.length) : t.rest.length < s.rest.length := by
  rw [← hx, ← hy, ReadState.tokens, ReadState.tokens, List.length_map, List.length_map] at hless
  exact hless

/-- The last round. -/
theorem Reads.iterate_done
    (h : Reads b l x y (step a) fun r b' l' => ∃ c, r = .done c ∧ post c b' l') :
    Reads b l x y (iterate step a) post := by
  intro s hb hl hx
  obtain ⟨_, t, hr, hy, hfaults, c, rfl, hpost⟩ := h s hb hl hx
  refine ⟨c, t, ?_, hy, hfaults, hpost⟩
  rw [iterate, hr]

/-- A round that reads something, and the others. -/
theorem Reads.iterate_again {mid : α → Builder → Table String Handle → Prop}
    (h : Reads b l x y (step a) fun r b' l' => ∃ c, r = .again c ∧ mid c b' l')
    (hless : y.length < x.length)
    (hrest : ∀ c b' l', mid c b' l' → Reads b' l' y z (iterate step c) post) :
    Reads b l x z (iterate step a) post := by
  intro s hb hl hx
  obtain ⟨_, t, hr, hy, hfaults, c, rfl, hmid⟩ := h s hb hl hx
  obtain ⟨d, u, hr', hz, hfaults', hpost⟩ := hrest c t.builder t.locals hmid t rfl rfl hy
  refine ⟨d, u, ?_, hz, hfaults'.trans hfaults, hpost⟩
  rw [iterate_of_again hr (length_lt_of_tokens hx hy hless), hr']

theorem Takes.iterate_done {c : α} (h : Takes x y (step a) (.done c)) :
    Takes x y (iterate step a) c := fun b l =>
  .iterate_done ((h b l).imp fun _ _ _ h => ⟨c, h.1, rfl, h.2⟩)

/-- A round that reads something, and the others, in front of whatever uses the result. -/
theorem Takes.iterate_again_bind {c : α} {d : β} (h : Takes x y (step a) (.again c))
    (hless : y.length < x.length) (hrest : Takes y z (iterate step c >>= k) d) :
    Takes x z (iterate step a >>= k) d := by
  intro b l s hb hl hx
  obtain ⟨_, t, hr, hy, hfaults, rfl, htb, htl⟩ := h b l s hb hl hx
  obtain ⟨e, u, hr', hz, hfaults', hpost⟩ := hrest b l t htb htl hy
  refine ⟨e, u, ?_, hz, hfaults'.trans hfaults, hpost⟩
  rw [← hr']
  show EStateM.bind (iterate step a) k s = EStateM.bind (iterate step c) k t
  rw [EStateM.bind, EStateM.bind, iterate_of_again hr (length_lt_of_tokens hx hy hless)]

theorem Takes.iterate_andThen {c : α} (h : Takes x y (step a) (.again c))
    (hless : y.length < x.length) (hrest : Reads b l y z (iterate step c) post) :
    Reads b l x z (iterate step a) post := by
  have hstep : Reads b l x y (step a) fun r b' l' => ∃ e, r = .again e ∧ e = c ∧ b' = b ∧ l' = l :=
    (h b l).imp fun _ _ _ hr => ⟨c, hr.1, rfl, hr.2⟩
  refine hstep.iterate_again hless fun e b' l' he => ?_
  obtain ⟨rfl, rfl, rfl⟩ := he
  exact hrest

theorem Takes.iterate_again {c d : α} (h : Takes x y (step a) (.again c))
    (hless : y.length < x.length) (hrest : Takes y z (iterate step c) d) :
    Takes x z (iterate step a) d := fun b l => h.iterate_andThen hless (hrest b l)

end

end

/-! ## Tokens -/

section
variable {x : List Token} {t u : Token}

/-- A state whose tokens start with a given one. -/
theorem exists_rest {s : ReadState} (h : s.tokens = t :: x) :
    ∃ p ts, s.rest = ⟨t, p⟩ :: ts ∧ ts.map (·.val) = x := by
  obtain ⟨⟨_, p⟩, ts, hrest, rfl, hts⟩ := List.map_eq_cons_iff.mp h
  exact ⟨p, ts, hrest, hts⟩

theorem takes_peek : Takes (t :: x) (t :: x) peek t := by
  intro b l s hb hl hx
  obtain ⟨p, ts, hrest, _⟩ := exists_rest hx
  refine ⟨_, s, rfl, hx, rfl, ?_, hb, hl⟩
  rw [hrest]
  rfl

theorem takes_peekNext : Takes (t :: x) (t :: x) peekNext (x.headD t) := by
  intro b l s hb hl hx
  obtain ⟨p, ts, hrest, hts⟩ := exists_rest hx
  refine ⟨_, s, rfl, hx, rfl, ?_, hb, hl⟩
  rw [hrest, ← hts]
  cases ts with
  | nil => rfl
  | cons u us => rfl

theorem takes_advance (ht : t ≠ .eof) : Takes (t :: x) x advance () := by
  intro b l s hb hl hx
  obtain ⟨p, ts, hrest, hts⟩ := exists_rest hx
  refine ⟨(), { s with rest := behind s.rest }, rfl, ?_, rfl, rfl, hb, hl⟩
  show (behind s.rest).map (·.val) = x
  rw [hrest, behind, if_neg ht, hts]

/-- Tokens of a kind are passed over, up to one of another kind. -/
theorem takes_skip_until {p : Located Token → Bool} {as : List Token}
    (has : ∀ t : Located Token, t.val ∈ as → p t = true) (ht : ∀ span, p ⟨t, span⟩ = false) :
    Takes (as ++ t :: x) (t :: x) (skip (·.dropWhile p)) () := by
  have hdrop : ∀ ts : List (Located Token), ts.map (·.val) = as ++ t :: x →
      (ts.dropWhile p).map (·.val) = t :: x := by
    induction as with
    | nil =>
      intro ts hts
      obtain ⟨⟨_, span⟩, us, rfl, rfl, _⟩ := List.map_eq_cons_iff.mp hts
      rwa [List.dropWhile_cons_of_neg (by simp [ht span])]
    | cons a as ih =>
      intro ts hts
      obtain ⟨u, us, rfl, rfl, hus⟩ := List.map_eq_cons_iff.mp hts
      rw [List.dropWhile_cons_of_pos (has u List.mem_cons_self)]
      exact ih (fun v hv => has v (List.mem_cons_of_mem _ hv)) us hus
  exact fun _ _ s hb hl hx => ⟨(), { s with rest := s.rest.dropWhile p }, rfl, hdrop s.rest hx, rfl,
    rfl, hb, hl⟩

theorem takes_skip_none {p : Located Token → Bool} (ht : ∀ span, p ⟨t, span⟩ = false) :
    Takes (t :: x) (t :: x) (skip (·.dropWhile p)) () := by
  show Takes ([] ++ t :: x) _ _ _
  exact takes_skip_until (by simp) ht

theorem takes_eat (ht : t ≠ .eof) : Takes (t :: x) x (eat t) true := by
  refine takes_peek.bind ?_
  rw [if_pos rfl]
  exact (takes_advance ht).bind .pure

theorem takes_eat_other (h : u ≠ t) : Takes (u :: x) (u :: x) (eat t) false := by
  refine takes_peek.bind ?_
  rw [if_neg h]
  exact .pure

theorem takes_expect (ht : t ≠ .eof) : Takes (t :: x) x (expect t) () := (takes_eat ht).bind .pure

theorem takes_expectKeyword {keyword : String} :
    Takes (.word keyword :: x) x (expectKeyword keyword) () :=
  (takes_eat (by simp)).bind .pure

theorem reads_expectWord {b : Builder} {l : Table String Handle} {w : String} :
    Reads b l (.word w :: x) x expectWord fun a b' l' => a.val = w ∧ b' = b ∧ l' = l := by
  intro s hb hl hx
  obtain ⟨p, ts, hrest, hts⟩ := exists_rest hx
  refine ⟨⟨w, p⟩, { s with rest := behind s.rest }, ?_, ?_, rfl, rfl, hb, hl⟩
  · rw [expectWord, hrest]
    rfl
  · show (behind s.rest).map (·.val) = x
    rw [hrest]
    exact hts

theorem takes_expectInteger {n : UInt64} : Takes (.int n :: x) x expectInteger n :=
  takes_peek.bind ((takes_advance (by simp)).bind .pure)

end

/-! ## Types -/

section
variable {t : Token} {x : List Token}

theorem takes_stars (ht : t ≠ .star) (ty : Ty) : Takes (t :: x) (t :: x) (stars ty) ty :=
  .iterate_done ((takes_eat_other ht).bind .pure)

theorem takes_baseType {ty : Ty} {w : String} (h : Ty.ofWord? w = some ty) :
    Takes (.word w :: x) x baseType ty := by
  refine takes_peek.bind ?_
  dsimp only
  rw [h]
  exact (takes_advance (by simp)).bind .pure

/-! The arrays of a type are opened in front of its word and closed behind it, the innermost
first. -/

theorem takes_openArray {n : UInt64} {lengths : List UInt64} :
    Takes (.lbracket :: .int n :: .word "x" :: x) x (openArray lengths) (.again (n :: lengths)) :=
  (takes_eat (by simp)).bind (takes_expectInteger.bind (takes_expectKeyword.bind .pure))

/-- The tokens of a type that was begun are read, inside arrays that are already open, if what
stands behind them is. -/
theorem takes_typeInside {z : List Token} {ty outer : Ty} (h : Ty.Spelled z ty)
    {lengths : List UInt64} {y : List Token}
    (hclose : Takes x y (stars ty >>= fun ty => lengths.foldlM closeArray ty) outer) :
    Takes (z ++ x) y (typeInside lengths) outer := by
  induction h generalizing lengths x with
  | @word w ty h =>
    have hopen : Takes (.word w :: x) (.word w :: x) (iterate openArray lengths) lengths :=
      .iterate_done ((takes_eat_other (by simp)).bind .pure)
    exact hopen.bind ((takes_baseType h).bind hclose)
  | @array z element n _ ih =>
    rw [List.cons_append, List.cons_append, List.cons_append, List.append_assoc]
    refine takes_openArray.iterate_again_bind (by simp only [List.length_cons]; omega) (ih ?_)
    refine (takes_stars (by simp) element).bind ?_
    rw [List.foldlM_cons, closeArray, bind_assoc]
    exact (takes_expect (by simp)).bind hclose
  | @star z ty _ ih =>
    rw [List.append_assoc]
    have hstar : Takes (.star :: x) x (star ty) (.again .ptr) := (takes_eat (by simp)).bind .pure
    exact ih (hstar.iterate_again_bind (by simp) hclose)

/-- A type is read to its end. -/
theorem takes_spelled {z : List Token} {ty : Ty} (h : Ty.Spelled z ty) (hx : x ≠ [])
    (hstar : x.head? ≠ some .star) : Takes (z ++ x) x type ty := by
  obtain ⟨t, x, rfl⟩ := List.exists_cons_of_ne_nil hx
  exact takes_typeInside h ((takes_stars (fun ht => hstar (congrArg some ht)) ty).bind .pure)

theorem takes_type {ty : Ty} (h : ty.Valid) (ht : t ≠ .star) :
    Takes (ty.tokens ++ t :: x) (t :: x) type ty :=
  takes_spelled (Ty.spelled_tokens h) (List.cons_ne_nil t x) fun hstar => ht (Option.some.inj hstar)

/-- The token in front of a type. -/
theorem takes_peek_type {ty : Ty} (h : ty.Valid) :
    ∃ t, t.startsType = true ∧ Takes (ty.tokens ++ x) (ty.tokens ++ x) peek t := by
  obtain ⟨t, ts, htokens, ht, _⟩ := Ty.exists_tokens h
  rw [htokens]
  exact ⟨t, ht, takes_peek⟩

/-- A keyword that is not this type is not in front of it. -/
theorem takes_eatKeyword_of_ne {ty : Ty} (h : ty.Valid) {keyword : String}
    (hkeyword : Ty.ofWord? keyword ≠ some ty) :
    Takes (ty.tokens ++ x) (ty.tokens ++ x) (eatKeyword keyword) false := by
  obtain ⟨t, ts, htokens, _, ht⟩ := Ty.exists_tokens h
  rw [htokens, List.cons_append]
  exact takes_eat_other fun e => hkeyword (ht keyword e)

theorem takes_eatKeyword_other {ty : Ty} (h : ty.Valid) {keyword : String}
    (hkeyword : Ty.ofWord? keyword = none) :
    Takes (ty.tokens ++ x) (ty.tokens ++ x) (eatKeyword keyword) false :=
  takes_eatKeyword_of_ne h (by simp [hkeyword])

theorem isCallDecoration_of_startsType {t : Token} (h : t.startsType = true) :
    isCallDecoration t = false := by
  cases t with
  | word w =>
    rw [isCallDecoration, Option.isNone_eq_false_iff]
    exact h
  | _ => rfl

/-- Nothing that could stand in front of a type is passed over. -/
theorem takes_skip_other {ty : Ty} (h : ty.Valid) {p : Token → Bool}
    (hp : ∀ t : Token, t.startsType = true → p t = false) :
    Takes (ty.tokens ++ x) (ty.tokens ++ x) (skip (·.dropWhile fun t => p t.val)) () := by
  obtain ⟨t, ts, htokens, ht, _⟩ := Ty.exists_tokens h
  rw [htokens, List.cons_append]
  exact takes_skip_none fun _ => hp t ht

end

end Reader
end SsaGraph
