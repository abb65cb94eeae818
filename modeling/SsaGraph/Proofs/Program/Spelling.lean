import SsaGraph.Proofs.Program.Locality
import SsaGraph.Proofs.Program.Tokens

/-!
How types and attributes are written.  A type is read exactly if its tokens spell it, and then
all of them are read (`takes_spelled`, `spelled_of_type`).  An attribute is a word, perhaps with
a group in parentheses.
-/

namespace SsaGraph

/-- Tokens whose parentheses match. -/
inductive Balanced : List Token → Prop
  | nil : Balanced []
  | cons {t : Token} {x : List Token} (hopen : t ≠ .lparen) (hclose : t ≠ .rparen) (hend : t ≠ .eof)
    (h : Balanced x) : Balanced (t :: x)
  | group {x y : List Token} (hx : Balanced x) (hy : Balanced y) :
    Balanced (.lparen :: (x ++ .rparen :: y))

/-- An attribute: a word, a word with a group in parentheses, or an alignment. -/
inductive Attribute (allowed : String → Prop) : List Token → Prop
  | word {w : String} (h : allowed w) : Attribute allowed [.word w]
  | group {w : String} {x : List Token} (h : allowed w) (hx : Balanced x) :
    Attribute allowed (.word w :: .lparen :: (x ++ [.rparen]))
  | align (n : UInt64) : Attribute allowed [.word "align", .int n]

/-- An attribute starts with a word. -/
theorem Attribute.exists_cons {allowed : String → Prop} {x : List Token} (h : Attribute allowed x) :
    ∃ w y, x = .word w :: y := by
  cases h with
  | word h => exact ⟨_, _, rfl⟩
  | group h hx => exact ⟨_, _, rfl⟩
  | align n => exact ⟨_, _, rfl⟩

/-- A type starts with a bracket or a word. -/
theorem Ty.Spelled.exists_cons {x : List Token} {ty : Ty} (h : Ty.Spelled x ty) :
    ∃ t ts, x = t :: ts ∧ t.startsType = true := by
  induction h with
  | word h => exact ⟨_, [], rfl, by rw [Token.startsType, h]; rfl⟩
  | array n h => exact ⟨_, _, rfl, rfl⟩
  | star h ih =>
    obtain ⟨t, ts, rfl, ht⟩ := ih
    exact ⟨t, _, rfl, ht⟩

theorem Ty.Spelled.mem {x : List Token} {ty : Ty} (h : Ty.Spelled x ty) {t : Token} (ht : t ∈ x) :
    t = .lbracket ∨ t = .rbracket ∨ t = .star ∨ (∃ n, t = .int n) ∨ ∃ w, t = .word w := by
  induction h with
  | word h => exact .inr (.inr (.inr (.inr ⟨_, List.mem_singleton.mp ht⟩)))
  | array n h ih =>
    simp only [List.mem_cons, List.mem_append, List.not_mem_nil, or_false] at ht
    rcases ht with ht | ht | ht | ht | ht
    · exact .inl ht
    · exact .inr (.inr (.inr (.inl ⟨_, ht⟩)))
    · exact .inr (.inr (.inr (.inr ⟨_, ht⟩)))
    · exact ih ht
    · exact .inr (.inl ht)
  | star h ih =>
    rcases List.mem_append.mp ht with ht | ht
    · exact ih ht
    · exact .inr (.inr (.inl (List.mem_singleton.mp ht)))

namespace Reader

section
variable {s t : ReadState}

/-! ## Tokens that were read -/

theorem tokens_of_ahead {a : Token} (h : (ahead s.rest).val = a) (ha : a ≠ .eof) :
    s.tokens = a :: ReadState.tokens { s with rest := behind s.rest } := by
  have hend : ¬AtEnd s.rest := fun hend => ha (h.symm.trans hend)
  have htokens := congrArg (List.map (·.val)) (cons_behind hend)
  rwa [List.map_cons, h] at htokens

theorem ahead_of_tokens {a : Token} {x : List Token} (h : s.tokens = a :: x) :
    (ahead s.rest).val = a := by
  obtain ⟨p, ts, hrest, _⟩ := exists_rest h
  rw [hrest]
  rfl

/-- The state behind the tokens that are left. -/
theorem rest_of_tokens {us vs : List (Located Token)} (hon : Onward s.rest t.rest)
    (hrest : s.rest = us ++ vs) (htokens : t.tokens = vs.map (·.val)) : t.rest = vs := by
  obtain ⟨passed, hpassed, _⟩ := hon
  have hlength : t.rest.length = vs.length := by
    simpa [ReadState.tokens] using congrArg List.length htokens
  exact (List.append_inj' (hpassed.symm.trans hrest) hlength).2

theorem expect_eq_ok {a : Token} : expect a s = .ok () t ↔
    (ahead s.rest).val = a ∧ t = { s with rest := behind s.rest } := by
  by_cases hnext : (ahead s.rest).val = a
  · rw [expect, bind_of_ok (eat_of_eq hnext), and_iff_right hnext]
    exact ⟨fun h => by rw [← EStateM.Result.ok.inj h |>.2], fun h => h ▸ rfl⟩
  · rw [expect, bind_of_ok (eat_of_ne hnext)]
    exact ⟨fun h => (nomatch h), fun h => absurd h.1 hnext⟩

theorem expectKeyword_eq_ok {keyword : String} : expectKeyword keyword s = .ok () t ↔
    (ahead s.rest).val = .word keyword ∧ t = { s with rest := behind s.rest } := by
  by_cases hnext : (ahead s.rest).val = .word keyword
  · rw [expectKeyword, eatKeyword, bind_of_ok (eat_of_eq hnext), and_iff_right hnext]
    exact ⟨fun h => by rw [← EStateM.Result.ok.inj h |>.2], fun h => h ▸ rfl⟩
  · rw [expectKeyword, eatKeyword, bind_of_ok (eat_of_ne hnext)]
    exact ⟨fun h => (nomatch h), fun h => absurd h.1 hnext⟩

theorem tokens_of_expect {a : Token} (ha : a ≠ .eof) (h : expect a s = .ok () t) :
    s.tokens = a :: t.tokens := by
  obtain ⟨hnext, rfl⟩ := expect_eq_ok.mp h
  exact tokens_of_ahead hnext ha

theorem tokens_of_expectKeyword {keyword : String} (h : expectKeyword keyword s = .ok () t) :
    s.tokens = .word keyword :: t.tokens := by
  obtain ⟨hnext, rfl⟩ := expectKeyword_eq_ok.mp h
  exact tokens_of_ahead hnext Token.noConfusion

theorem tokens_of_expectInteger {n : UInt64} (h : expectInteger s = .ok n t) :
    s.tokens = .int n :: t.tokens := by
  rw [expectInteger, bind_of_ok (show peek s = .ok (ahead s.rest).val s from rfl)] at h
  cases hnext : (ahead s.rest).val with
  | int m =>
    rw [hnext] at h
    cases h
    exact tokens_of_ahead hnext Token.noConfusion
  | _ =>
    rw [hnext] at h
    cases h

/-- The tokens that are passed over, up to one that stops. -/
theorem tokens_of_skip_until {p : Token → Bool} (h : skip (·.dropWhile fun t => !p t.val) s = .ok () t) :
    ∃ x, s.tokens = x ++ t.tokens ∧ (∀ a ∈ x, p a = false) ∧
      (t.rest = [] ∨ p (ahead t.rest).val = true) := by
  cases h
  refine ⟨(s.rest.takeWhile fun t => !p t.val).map (·.val), ?_, ?_, ?_⟩
  · rw [ReadState.tokens, ReadState.tokens, ← List.map_append, List.takeWhile_append_dropWhile]
  · intro a ha
    obtain ⟨u, hu, rfl⟩ := List.mem_map.mp ha
    simpa using List.all_eq_true.mp List.all_takeWhile u hu
  · have hstop := List.head?_dropWhile_not (fun t : Located Token => !p t.val) s.rest
    show s.rest.dropWhile (fun t => !p t.val) = [] ∨
      p (ahead (s.rest.dropWhile fun t => !p t.val)).val = true
    cases hrest : s.rest.dropWhile fun t => !p t.val with
    | nil => exact .inl rfl
    | cons u us =>
      rw [hrest] at hstop
      exact .inr (by simpa [ahead] using hstop)

/-! ## Types -/

theorem tokens_of_baseType {ty : Ty} (h : baseType s = .ok ty t) :
    ∃ w, Ty.ofWord? w = some ty ∧ s.tokens = .word w :: t.tokens := by
  rw [baseType, bind_of_ok (show peek s = .ok (ahead s.rest).val s from rfl)] at h
  cases hnext : (ahead s.rest).val with
  | word w =>
    rw [hnext] at h
    dsimp only at h
    cases hw : Ty.ofWord? w with
    | some type =>
      rw [hw] at h
      cases h
      exact ⟨w, hw, tokens_of_ahead hnext Token.noConfusion⟩
    | none =>
      rw [hw] at h
      cases h
  | _ =>
    rw [hnext] at h
    cases h

/-- Stars are read to the last one. -/
theorem spelled_of_stars {ty ty' : Ty} (h : stars ty s = .ok ty' t) :
    ∃ x, s.tokens = x ++ t.tokens ∧ (∀ {z}, Ty.Spelled z ty → Ty.Spelled (z ++ x) ty') ∧
      (ahead t.rest).val ≠ .star := by
  rw [stars] at h
  induction ty, s using Reader.iterate.induct star with
  | case1 ty s b u hr =>
    rw [iterate_of_done hr] at h
    cases h
    by_cases hnext : (ahead s.rest).val = .star
    · rw [star, bind_of_ok (eat_of_eq hnext)] at hr
      cases hr
    · rw [star, bind_of_ok (eat_of_ne hnext)] at hr
      cases hr
      exact ⟨[], rfl, fun hz => by rwa [List.append_nil], hnext⟩
  | case2 ty s b u hr hless ih =>
    rw [iterate_of_again hr hless] at h
    by_cases hnext : (ahead s.rest).val = .star
    · rw [star, bind_of_ok (eat_of_eq hnext)] at hr
      cases hr
      obtain ⟨x, hx, hspelled, hstop⟩ := ih h
      refine ⟨.star :: x, ?_, fun hz => ?_, hstop⟩
      · rw [tokens_of_ahead hnext Token.noConfusion, hx]
        rfl
      · rw [List.append_cons]
        exact hspelled hz.star
    · rw [star, bind_of_ok (eat_of_ne hnext)] at hr
      cases hr
  | case3 ty s b u hr hless =>
    by_cases hnext : (ahead s.rest).val = .star
    · rw [star, bind_of_ok (eat_of_eq hnext)] at hr
      cases hr
      exact absurd (length_behind fun hend => Token.noConfusion (hnext.symm.trans hend)) hless
    · rw [star, bind_of_ok (eat_of_ne hnext)] at hr
      cases hr
  | case4 ty s e u hr =>
    rw [iterate_of_error hr] at h
    cases h

/-- What opens arrays of the given lengths, the innermost first. -/
def opening (lengths : List UInt64) : List Token :=
  lengths.reverse.flatMap fun n => [.lbracket, .int n, .word "x"]

theorem opening_cons (n : UInt64) (lengths : List UInt64) :
    opening (n :: lengths) = opening lengths ++ [.lbracket, .int n, .word "x"] := by
  rw [opening, List.reverse_cons, List.flatMap_append]
  rfl

theorem opening_append (new : List UInt64) (n : UInt64) :
    opening (new ++ [n]) = .lbracket :: .int n :: .word "x" :: opening new := by
  rw [opening, List.reverse_append]
  rfl

/-- A round opens one more array, or the next token opens none. -/
theorem tokens_of_openArray {lengths : List UInt64} {r : Round (List UInt64)}
    (h : openArray lengths s = .ok r t) :
    r = .done lengths ∧ t = s ∨ ∃ n, r = .again (n :: lengths) ∧
      s.tokens = .lbracket :: .int n :: .word "x" :: t.tokens := by
  by_cases hnext : (ahead s.rest).val = .lbracket
  · rw [openArray, bind_of_ok (eat_of_eq hnext)] at h
    obtain ⟨n, u, hn, h⟩ := bind_eq_ok h
    obtain ⟨_, v, hx, h⟩ := bind_eq_ok h
    cases h
    refine .inr ⟨n, rfl, ?_⟩
    rw [tokens_of_ahead hnext Token.noConfusion, tokens_of_expectInteger hn,
      tokens_of_expectKeyword hx]
  · rw [openArray, bind_of_ok (eat_of_ne hnext)] at h
    cases h
    exact .inl ⟨rfl, rfl⟩

theorem tokens_of_openArrays {lengths ls : List UInt64} (h : iterate openArray lengths s = .ok ls t) :
    ∃ new, ls = new ++ lengths ∧ s.tokens = opening new ++ t.tokens := by
  induction lengths, s using Reader.iterate.induct openArray with
  | case1 lengths s b u hr =>
    rw [iterate_of_done hr] at h
    cases h
    rcases tokens_of_openArray hr with ⟨hround, rfl⟩ | ⟨n, hround, _⟩
    · cases hround
      exact ⟨[], rfl, rfl⟩
    · cases hround
  | case2 lengths s b u hr hless ih =>
    rw [iterate_of_again hr hless] at h
    obtain ⟨new, hls, htokens⟩ := ih h
    rcases tokens_of_openArray hr with ⟨hround, _⟩ | ⟨n, hround, hopen⟩
    · cases hround
    · cases hround
      refine ⟨new ++ [n], by rw [hls, ← List.append_cons], ?_⟩
      rw [hopen, htokens, opening_append]
      rfl
  | case3 lengths s b u hr hless =>
    rcases tokens_of_openArray hr with ⟨hround, _⟩ | ⟨n, _, hopen⟩
    · cases hround
    · exact absurd (length_lt_of_tokens hopen rfl (by simp only [List.length_cons]; omega)) hless
  | case4 lengths s e u hr =>
    rw [iterate_of_error hr] at h
    cases h

/-- The arrays around a type are closed, the innermost first. -/
theorem spelled_of_closeArrays {lengths : List UInt64} {z : List Token} {ty ty' : Ty}
    (h : lengths.foldlM closeArray ty s = .ok ty' t) (hz : Ty.Spelled z ty)
    (hstop : (ahead s.rest).val ≠ .star) :
    ∃ x, s.tokens = x ++ t.tokens ∧ Ty.Spelled (opening lengths ++ z ++ x) ty' ∧
      (ahead t.rest).val ≠ .star := by
  induction lengths generalizing s z ty with
  | nil =>
    cases h
    exact ⟨[], rfl, by rwa [List.append_nil], hstop⟩
  | cons n lengths ih =>
    rw [List.foldlM_cons] at h
    obtain ⟨outer, u, hclose, h⟩ := bind_eq_ok h
    obtain ⟨_, v, hbracket, hstars⟩ := bind_eq_ok hclose
    obtain ⟨x, hx, hspelled, hstop⟩ := spelled_of_stars hstars
    obtain ⟨y, hy, hspelled', hstop'⟩ := ih h (hspelled (hz.array n)) hstop
    refine ⟨.rbracket :: (x ++ y), ?_, ?_, hstop'⟩
    · rw [tokens_of_expect Token.noConfusion hbracket, hx, hy]
      simp only [List.cons_append, List.append_assoc]
    · rw [opening_cons]
      simpa only [List.cons_append, List.append_assoc, List.nil_append] using hspelled'

/-- The tokens of a type that was read spell it, and no star is behind them. -/
theorem spelled_of_type {ty : Ty} (h : type s = .ok ty t) :
    ∃ z, s.tokens = z ++ t.tokens ∧ Ty.Spelled z ty ∧ (ahead t.rest).val ≠ .star := by
  obtain ⟨lengths, s₁, hopen, h⟩ := bind_eq_ok h
  obtain ⟨base, s₂, hbase, h⟩ := bind_eq_ok h
  obtain ⟨innermost, s₃, hstars, h⟩ := bind_eq_ok h
  obtain ⟨new, rfl, htokens⟩ := tokens_of_openArrays hopen
  obtain ⟨w, hw, hword⟩ := tokens_of_baseType hbase
  obtain ⟨x, hx, hspelled, hstop⟩ := spelled_of_stars hstars
  rw [List.append_nil] at h
  obtain ⟨y, hy, hspelled', hstop'⟩ := spelled_of_closeArrays h (hspelled (.word hw)) hstop
  refine ⟨_, ?_, hspelled', hstop'⟩
  rw [htokens, hword, hx, hy]
  simp only [List.cons_append, List.append_assoc, List.nil_append]

end
end Reader
end SsaGraph
