import SsaGraph.Proofs.Program.Alongside
import SsaGraph.Proofs.Program.Spelling

/-!
Where instructions end.  Behind its last token an instruction of a known form looks for nothing
but stars behind a type, and for a comma behind an address.  So it is read again, up to the same
token, if something else stands behind it (`Steady`, `Moves`).
-/

namespace SsaGraph
namespace Reader

/-- What may stand behind an instruction: a reference to attributes, or a comma, with metadata
behind it if `address` holds. -/
def Trails (address : Prop) (ts : List (Located Token)) : Prop :=
  (∃ name, (ahead ts).val = .attr name) ∨
    (ahead ts).val = .comma ∧ (address → isMetadata (afterNext ts) = true)

/-- The reader does the same in a second run, whatever trails there behind the seam. -/
structure Steady (address : Prop) {α : Type} (m : Reader α) : Prop where
  onward : ∀ {s a t}, m s = .ok a t → Onward s.rest t.rest
  follow : ∀ {c s s' a t y}, m s = .ok a t → Beside c True s s' → t.rest = y ++ c.tail →
    Trails address c.tail' → ∃ t', m s' = .ok a t' ∧ Beside c True t t'

/-- It also reads at least one token. -/
structure Moves (address : Prop) {α : Type} (m : Reader α) : Prop extends Steady address m where
  less : ∀ {s a t}, m s = .ok a t → t.rest.length < s.rest.length

section
variable {α β : Type} {address : Prop} {m : Reader α} {k : α → Reader β} {c : Seam} {d : Prop}
  {s s' t : ReadState} {y : List (Located Token)}

theorem Trails.ahead_ne_star {ts : List (Located Token)} (h : Trails address ts) :
    (ahead ts).val ≠ .star := by
  rcases h with ⟨name, h⟩ | ⟨h, _⟩ <;> rw [h] <;> exact Token.noConfusion

theorem Trails.ne_nil {ts : List (Located Token)} (h : Trails address ts) : ts ≠ [] := by
  rintro rfl
  rcases h with ⟨name, h⟩ | ⟨h, _⟩ <;> cases h

/-! ## Sequences -/

theorem steady_pure (a : α) : Steady address (pure a : Reader α) where
  onward h := by
    cases h
    exact .refl _
  follow h hs _ _ := by
    cases h
    exact ⟨_, rfl, hs⟩

theorem steady_fail (e : SyntaxError) : Steady address (fail e : Reader α) where
  onward h := by cases h
  follow h := by cases h

theorem Steady.bind (hm : Steady address m) (hk : ∀ a, Steady address (k a)) :
    Steady address (m >>= k) where
  onward h := by
    obtain ⟨a, u, hr, h⟩ := bind_eq_ok h
    exact (hm.onward hr).trans ((hk a).onward h)
  follow h hs hy htrails := by
    obtain ⟨a, u, hr, h⟩ := bind_eq_ok h
    obtain ⟨passed, hz⟩ := ((hk a).onward h).split hy
    obtain ⟨u', hr', hu⟩ := hm.follow hr hs hz htrails
    obtain ⟨t', h', ht⟩ := (hk a).follow h hu hy htrails
    exact ⟨t', by rw [bind_of_ok hr', h'], ht⟩

theorem Steady.ite {p : Prop} [Decidable p] {m' : Reader α} (hm : Steady address m)
    (hm' : Steady address m') : Steady address (if p then m else m') := by
  split
  · exact hm
  · exact hm'

theorem Moves.bind (hm : Moves address m) (hk : ∀ a, Steady address (k a)) : Moves address (m >>= k) where
  toSteady := hm.toSteady.bind hk
  less h := by
    obtain ⟨a, u, hr, h⟩ := bind_eq_ok h
    exact Nat.lt_of_le_of_lt ((hk a).onward h).length_le (hm.less hr)

/-- In front of a reader that reads something, locality is enough. -/
theorem Local.moves (hm : Local False True True m) (hk : ∀ a, Moves address (k a)) :
    Moves address (m >>= k) where
  onward h := by
    obtain ⟨a, u, hr, h⟩ := bind_eq_ok h
    exact ((hm _).ok hr).1.rest.trans ((hk a).onward h)
  less h := by
    obtain ⟨a, u, hr, h⟩ := bind_eq_ok h
    exact Nat.lt_of_lt_of_le ((hk a).less h) ((hm _).ok hr).1.rest.length_le
  follow h hs hy htrails := by
    obtain ⟨a, u, hr, h⟩ := bind_eq_ok h
    obtain ⟨passed, hz⟩ := ((hk a).onward h).split hy
    have hne := ne_nil_of_length_lt hz hy ((hk a).less h)
    obtain ⟨u', hr', hu⟩ := ((hm _).ok hr).2.2 hs hz (.inr (.inr (.inl ⟨hne, .inl trivial⟩)))
    obtain ⟨t', h', ht⟩ := (hk a).follow h hu hy htrails
    exact ⟨t', by rw [bind_of_ok hr', h'], ht⟩

theorem Steady.iterate {step : α → Reader (Round α)} (hstep : ∀ a, Steady address (step a)) (a : α) :
    Steady address (iterate step a) := by
  suffices hrun : ∀ s b t, Reader.iterate step a s = .ok b t → Onward s.rest t.rest ∧
      ∀ {c s' y}, Beside c True s s' → t.rest = y ++ c.tail → Trails address c.tail' →
        ∃ t', Reader.iterate step a s' = .ok b t' ∧ Beside c True t t' from
    ⟨fun h => (hrun _ _ _ h).1, fun h => (hrun _ _ _ h).2⟩
  intro s b t h
  induction a, s using Reader.iterate.induct step with
  | case1 a s b u hr =>
    rw [iterate_of_done hr] at h
    cases h
    refine ⟨(hstep a).onward hr, fun hs hy htrails => ?_⟩
    obtain ⟨u', hr', hu⟩ := (hstep a).follow hr hs hy htrails
    exact ⟨u', iterate_of_done hr', hu⟩
  | case2 a s b u hr hless ih =>
    rw [iterate_of_again hr hless] at h
    obtain ⟨hon, hfollow⟩ := ih h
    refine ⟨((hstep a).onward hr).trans hon, fun hs hy htrails => ?_⟩
    obtain ⟨passed, hz⟩ := hon.split hy
    obtain ⟨u', hr', hu⟩ := (hstep a).follow hr hs hz htrails
    rw [iterate_of_again hr' ((hs.length_lt_iff hu).mpr hless)]
    exact hfollow hu hy htrails
  | case3 a s b u hr hless =>
    rw [iterate_of_idle hr hless] at h
    cases h
    refine ⟨(hstep a).onward hr, fun hs hy htrails => ?_⟩
    obtain ⟨u', hr', hu⟩ := (hstep a).follow hr hs hy htrails
    exact ⟨u', iterate_of_idle hr' (mt (hs.length_lt_iff hu).mp hless), hu⟩
  | case4 a s e u hr =>
    rw [iterate_of_error hr] at h
    cases h

/-! ## Last tokens -/

theorem not_atEnd_of_ahead {a : Token} (h : (ahead s.rest).val = a) (ha : a ≠ .eof) : ¬AtEnd s.rest :=
  fun hend => ha (h.symm.trans hend)

theorem moves_expect {a : Token} (ha : a ≠ .eof) : Moves address (expect a) where
  onward h := by
    obtain ⟨_, rfl⟩ := expect_eq_ok.mp h
    exact onward_behind _
  less h := by
    obtain ⟨hnext, rfl⟩ := expect_eq_ok.mp h
    exact length_behind (not_atEnd_of_ahead hnext ha)
  follow h hs hy _ := by
    obtain ⟨hnext, rfl⟩ := expect_eq_ok.mp h
    obtain ⟨hahead, hbehind⟩ := hs.behind (not_atEnd_of_ahead hnext ha) hy
    exact ⟨_, expect_eq_ok.mpr ⟨hahead.trans hnext, rfl⟩, hbehind⟩

/-- The reader only looks at tokens. -/
def Stays {α : Type} (m : Reader α) : Prop := ∀ s a t, m s = .ok a t → t.rest = s.rest

theorem Stays.bind (hm : Stays m) (hk : ∀ a, Stays (k a)) : Stays (m >>= k) := by
  intro s b t h
  obtain ⟨a, u, hr, h⟩ := bind_eq_ok h
  exact (hk a u b t h).trans (hm s a u hr)

theorem Stays.ite {p : Prop} [Decidable p] {m' : Reader α} (hm : Stays m) (hm' : Stays m') :
    Stays (if p then m else m') := by
  split
  · exact hm
  · exact hm'

theorem stays_peek : Stays peek := fun _ _ _ h => by
  cases h
  rfl

theorem stays_build (f : Builder → Builder × α) : Stays (build f) := fun _ _ _ h => by
  cases h
  rfl

theorem stays_pure (a : α) : Stays (pure a : Reader α) := fun _ _ _ h => by
  cases h
  rfl

theorem stays_local? (name : String) : Stays (local? name) := fun _ _ _ h => by
  cases h
  rfl

theorem stays_fail (e : SyntaxError) : Stays (fail e : Reader α) := fun _ _ _ h => nomatch h

theorem stays_valueAhead (ty : Ty) : Stays (valueAhead ty) := by
  refine stays_peek.bind fun found => ?_
  split
  next name =>
    refine .ite (stays_build _) ((stays_local? name).bind fun v => ?_)
    split
    · exact stays_pure _
    · exact stays_fail _
  · exact stays_build _
  · exact .ite (stays_build _) (stays_fail _)
  · split
    · exact stays_build _
    · exact stays_build _
    · exact stays_build _
    · exact stays_fail _
  · exact .ite (stays_build _) (.ite (stays_fail _) (stays_fail _))
  · exact stays_fail _

theorem not_atEnd_of_valueAhead {ty : Ty} {v : Handle} (h : valueAhead ty s = .ok v t) :
    ¬AtEnd s.rest := by
  intro hend
  rw [valueAhead, bind_of_ok (peek_eq s), show (ahead s.rest).val = .eof from hend] at h
  cases h

theorem moves_value (ty : Ty) : Moves address (value ty) where
  onward h := ((local_value ty _ : LocalAt False True True _ _).ok h).1.rest
  less h := by
    obtain ⟨v, u, hahead, h⟩ := bind_eq_ok h
    cases h
    show (behind u.rest).length < _
    rw [stays_valueAhead ty _ _ _ hahead]
    exact length_behind (not_atEnd_of_valueAhead hahead)
  follow {c s s' a t y} h hs hy _ := by
    obtain ⟨v, u, hahead, h⟩ := bind_eq_ok h
    cases h
    have hend : ¬AtEnd u.rest := stays_valueAhead ty _ _ _ hahead ▸ not_atEnd_of_valueAhead hahead
    -- The token of the value is still there when it is looked at.
    have hz : u.rest = (ahead u.rest :: y) ++ c.tail := by
      rw [List.cons_append, ← show behind u.rest = y ++ c.tail from hy]
      exact cons_behind hend
    obtain ⟨u', hahead', hu⟩ := ((local_valueAhead ty s).ok hahead).2.2 hs hz
      (.inr (.inr (.inl ⟨List.cons_ne_nil _ _, .inl trivial⟩)))
    refine ⟨_, ?_, (hu.behind hend hy).2⟩
    rw [value, bind_of_ok hahead']
    rfl

/-- A type is read in front of tokens that do not start with a star. -/
theorem type_of_spelled {ty : Ty} {z : List Token} {us vs : List (Located Token)}
    (hz : Ty.Spelled z ty) (hrest : s.rest = us ++ vs) (hus : us.map (·.val) = z) (hne : vs ≠ [])
    (hstar : (ahead vs).val ≠ .star) :
    ∃ t, type s = .ok ty t ∧ t.rest = vs ∧ t.builder = s.builder ∧ t.locals = s.locals := by
  have htokens : s.tokens = z ++ vs.map (·.val) := by
    rw [ReadState.tokens, hrest, List.map_append, hus]
  have hhead : (vs.map (·.val)).head? ≠ some .star := by
    obtain ⟨v, vs, rfl⟩ := List.exists_cons_of_ne_nil hne
    exact fun h => hstar (Option.some.inj h)
  obtain ⟨r, hr, hvs⟩ := (takes_spelled hz (by simpa using hne) hhead).run htokens
  have hon := ((local_type s : LocalAt False True False type s).ok hr).1.rest
  exact ⟨_, hr, rest_of_tokens hon hrest hvs, rfl, rfl⟩

/-- A type is read to its end if no star is there in the other run. -/
theorem type_beside {ty : Ty} (h : type s = .ok ty t) (hs : Beside c d s s')
    (hy : t.rest = y ++ c.tail) (hend : y = [] → c.tail' ≠ [] ∧ (ahead c.tail').val ≠ .star) :
    ∃ t', type s' = .ok ty t' ∧ Beside c d t t' := by
  obtain ⟨honto, _, hfollow⟩ := (local_type s : LocalAt False True d type s).ok h
  by_cases hne : y = []
  · subst hne
    obtain ⟨htail', hstar'⟩ := hend rfl
    have htail : c.tail ≠ [] := fun htail => htail' (c.tail'_eq_nil htail)
    have hy : t.rest = c.tail := hy
    obtain ⟨z, hz, hspelled, hstar⟩ := spelled_of_type h
    obtain ⟨passed, hpassed, _⟩ := honto.rest
    have hpassedz : passed.map (·.val) = z := by
      rw [ReadState.tokens, hpassed, List.map_append] at hz
      exact List.append_cancel_right hz
    rw [hy] at hpassed hstar
    obtain ⟨passed', hx', hsame⟩ := hs.split hpassed
    have hpassedz' : passed'.map (·.val) = z := by
      rw [← hpassedz, ← Seam.same_anywhere]
      exact hsame.imp fun _ _ ht => ⟨ht.1, trivial⟩
    obtain ⟨u, hr, _, hbuilder, hlocals⟩ := type_of_spelled hspelled hpassed hpassedz htail hstar
    rw [h] at hr
    cases hr
    obtain ⟨t', hr', ht', hbuilder', hlocals'⟩ := type_of_spelled hspelled hx' hpassedz' htail' hstar'
    refine ⟨t', hr', ⟨[], [], hy, ht', .nil⟩, fun hd => ?_, fun hd => ?_⟩
    · rw [hbuilder, hbuilder']
      exact hs.builder hd
    · rw [hlocals, hlocals']
      exact hs.locals hd
  · exact hfollow hs hy (.inr (.inr (.inl ⟨hne, .inl trivial⟩)))

theorem moves_type : Moves address type where
  onward h := ((local_type _ : LocalAt False True True _ _).ok h).1.rest
  less h := by
    obtain ⟨z, hz, hspelled, _⟩ := spelled_of_type h
    obtain ⟨a, as, rfl, _⟩ := hspelled.exists_cons
    refine length_lt_of_tokens hz rfl ?_
    simp only [List.length_append, List.length_cons]
    omega
  follow h hs hy htrails := type_beside h hs hy fun _ => ⟨htrails.ne_nil, htrails.ahead_ne_star⟩

/-! ## Addresses -/

theorem addressOperand_eq (operands : List Handle) (s : ReadState) : addressOperand operands s =
    (if (ahead s.rest).val = .comma ∧ !isMetadata (afterNext s.rest) then
      advance >>= fun _ => typedValue >>= fun r => pure (.again (operands ++ [r.1]))
    else pure (.done operands) : Reader (Round (List Handle))) s := rfl

theorem moves_typedValue : Moves address typedValue :=
  Local.moves local_type fun ty => (moves_value ty).bind fun _ => steady_pure _

/-- One more operand is read, or none is, in both runs. -/
theorem steady_addressOperand (haddress : address) (operands : List Handle) :
    Steady address (addressOperand operands) := by
  have hmore : Moves address (advance >>= fun _ => typedValue >>= fun r =>
      (pure (.again (operands ++ [r.1])) : Reader (Round (List Handle)))) :=
    Local.moves local_advance fun _ => moves_typedValue.bind fun _ => steady_pure _
  -- What is looked at is the same in both runs if a token is left in front of the seam.
  have hlook : ∀ {c : Seam} {x x' : List (Located Token)}, c.Same x x' → x ≠ [] →
      ((ahead (x' ++ c.tail')).val = .comma ∧ !isMetadata (afterNext (x' ++ c.tail')) ↔
        (ahead (x ++ c.tail)).val = .comma ∧ !isMetadata (afterNext (x ++ c.tail))) := by
    intro c x x' hsame hne
    rw [hsame.ahead_val (.inl hne)]
    rcases hsame.afterNext (.inl hne) with heq | ⟨hinert, hinert'⟩
    · rw [heq]
    · rw [isMetadata_of_inert hinert, isMetadata_of_inert hinert']
  constructor
  · intro s a t h
    rw [addressOperand_eq] at h
    split at h
    · exact hmore.onward h
    · cases h
      exact .refl _
  · intro c s s' a t y h hs hy htrails
    rw [addressOperand_eq] at h ⊢
    by_cases hcomma : (ahead s.rest).val = .comma ∧ !isMetadata (afterNext s.rest)
    · rw [if_pos hcomma] at h
      obtain ⟨passed, hx⟩ := (hmore.onward h).split hy
      obtain ⟨x', hx', hsame⟩ := hs.split hx
      have hne := ne_nil_of_length_lt hx hy (hmore.less h)
      rw [hx, ← hlook hsame hne, ← hx'] at hcomma
      rw [if_pos hcomma]
      exact hmore.follow h hs hy htrails
    · rw [if_neg hcomma] at h
      cases h
      have hcomma' : ¬((ahead s'.rest).val = .comma ∧ !isMetadata (afterNext s'.rest)) := by
        obtain ⟨y', hy', hsame⟩ := hs.split hy
        by_cases hne : y = []
        · subst hne
          cases hsame
          rw [hy', List.nil_append]
          rintro ⟨hnext, hother⟩
          rcases htrails with ⟨name, hattr⟩ | ⟨_, hmetadata⟩
          · cases hattr.symm.trans hnext
          · rw [hmetadata haddress] at hother
            cases hother
        · rwa [hy', hlook hsame hne, ← hy]
      rw [if_neg hcomma']
      exact ⟨s', rfl, hs⟩

/-! ## Instructions -/

theorem Moves.discard (hm : Moves address m) : Moves address (Functor.discard m) :=
  hm.bind fun _ => steady_pure _

theorem moves_operandPair : Moves address operandPair :=
  Local.moves local_type fun ty => (local_value ty).moves fun _ => (local_expect rfl).moves fun _ =>
    (moves_value ty).bind fun _ => steady_pure _

theorem moves_three {f : Handle × Ty → Handle × Ty → Handle × Ty → Line} :
    Moves address (typedValue >>= fun a => expect .comma >>= fun _ => typedValue >>= fun b =>
      expect .comma >>= fun _ => typedValue >>= fun c => pure (f a b c)) :=
  local_typedValue.moves fun _ => (local_expect rfl).moves fun _ => local_typedValue.moves fun _ =>
    (local_expect rfl).moves fun _ => moves_typedValue.bind fun _ => steady_pure _

theorem moves_getelementptr (haddress : address) : Moves address getelementptr := by
  refine (local_skip_dropWhile fun t ht => ?_).moves fun _ => ?_
  · cases t <;> first | rfl | cases ht
  · refine moves_type.discard.bind fun _ => ?_
    refine (Steady.iterate (steady_addressOperand haddress) []).bind fun operands => ?_
    exact .ite ((steady_fail _).bind fun _ => steady_pure _) (steady_pure _)

/-- A keyword that may end the instruction. -/
theorem moves_keyword {keyword : String} {m m' : Reader α} (hm : Steady address m)
    (hm' : Moves address m') :
    Moves address (eatKeyword keyword >>= fun found => if found then m else m') := by
  have hfound : ∀ {s : ReadState}, (ahead s.rest).val = .word keyword →
      (eatKeyword keyword >>= fun found => if found then m else m') s =
        m { s with rest := behind s.rest } := fun hnext => bind_of_ok (eat_of_eq hnext)
  have hother : ∀ {s : ReadState}, (ahead s.rest).val ≠ .word keyword →
      (eatKeyword keyword >>= fun found => if found then m else m') s = m' s := fun hnext =>
    bind_of_ok (eat_of_ne hnext)
  have hstart : ∀ {s : ReadState}, (ahead s.rest).val = .word keyword → ¬AtEnd s.rest := fun hnext =>
    not_atEnd_of_ahead hnext Token.noConfusion
  refine ⟨⟨fun {s a t} h => ?_, fun {c s s' a t y} h hs hy htrails => ?_⟩, fun {s a t} h => ?_⟩
  · by_cases hnext : (ahead s.rest).val = .word keyword
    · rw [hfound hnext] at h
      exact (onward_behind s.rest).trans (hm.onward h)
    · rw [hother hnext] at h
      exact hm'.onward h
  · by_cases hnext : (ahead s.rest).val = .word keyword
    · rw [hfound hnext] at h
      obtain ⟨passed, hz⟩ := (hm.onward h).split hy
      obtain ⟨hahead, hbehind⟩ := hs.behind (hstart hnext) hz
      rw [hfound (hahead.trans hnext)]
      exact hm.follow h hbehind hy htrails
    · rw [hother hnext] at h
      obtain ⟨passed, hx⟩ := (hm'.onward h).split hy
      obtain ⟨x', hx', hsame⟩ := hs.split hx
      have hne := ne_nil_of_length_lt hx hy (hm'.less h)
      rw [hother (by rwa [hx', hsame.ahead_val (.inl hne), ← hx])]
      exact hm'.follow h hs hy htrails
  · by_cases hnext : (ahead s.rest).val = .word keyword
    · rw [hfound hnext] at h
      exact Nat.lt_of_le_of_lt (hm.onward h).length_le (length_behind (hstart hnext))
    · rw [hother hnext] at h
      exact hm'.less h

/-- The operands of a known opcode. -/
theorem moves_operandsOf {opcode : String} (h : opcode ∈ lineWords)
    (haddress : opcode = "getelementptr" → address) (named : Bool) :
    Moves address (operandsOf opcode named) := by
  have harithmetic : ∀ op, Moves address (arithmetic op) := fun op =>
    local_skipFastMathFlags.moves fun _ => moves_operandPair.bind fun _ => steady_pure _
  have hcall : Moves address call := local_callHead.moves fun _ => local_callArguments.moves fun _ =>
    (moves_expect Token.noConfusion).bind fun _ => steady_pure _
  unfold operandsOf
  split
  · exact (local_eatKeyword _).discard.moves fun _ => moves_type.discard.bind fun _ => steady_pure _
  · exact local_skipAccessFlags.moves fun _ => local_type.moves fun _ => (local_expect rfl).moves fun _ =>
      moves_typedValue.bind fun _ => steady_pure _
  · exact local_skipAccessFlags.moves fun _ => local_typedValue.moves fun _ =>
      (local_expect rfl).moves fun _ => moves_typedValue.bind fun _ => steady_pure _
  · exact moves_getelementptr (haddress rfl)
  · exact harithmetic _
  · exact harithmetic _
  · exact harithmetic _
  · exact harithmetic _
  · exact local_skipFastMathFlags.moves fun _ => moves_typedValue.bind fun _ => steady_pure _
  · exact local_skipFastMathFlags.moves fun _ => (local_predicate _ _).moves fun _ =>
      moves_operandPair.bind fun _ => steady_pure _
  · exact (local_eatKeyword _).discard.moves fun _ => (local_predicate _ _).moves fun _ =>
      moves_operandPair.bind fun _ => steady_pure _
  · exact (local_eatKeyword _).discard.moves fun _ => local_typedValue.moves fun _ =>
      (local_expectKeyword _).moves fun _ => moves_type.bind fun _ => steady_pure _
  · exact (local_eatKeyword _).discard.moves fun _ => moves_operandPair.bind fun _ => steady_pure _
  · exact local_skipFastMathFlags.moves fun _ => moves_three
  · exact hcall
  · exact (local_expectKeyword _).moves fun _ => hcall
  · exact (local_expectKeyword _).moves fun _ => hcall
  · exact (local_expectKeyword _).moves fun _ => hcall
  · exact moves_keyword ((moves_value .label).bind fun _ => steady_pure _).toSteady moves_three
  · exact moves_keyword (steady_pure _) (moves_typedValue.bind fun _ => steady_pure _)
  · simp_all [lineWords, Opcode.known, Opcode.name]

end
end Reader
end SsaGraph
