import SsaGraph.Proofs.Program.Runs
import SsaGraph.Proofs.Program.Spelling

/-!
Parameters of a header.  A list of parameters ends at the first closing parenthesis, whatever it
closes, and is divided at its commas.  Each part gives a parameter: a type, then anything, and
at its end perhaps a name (`Entry`, `Listed`).  Nothing else is read as parameters
(`takes_listed`, `listed_of_parameters`).
-/

namespace SsaGraph

/-- The first token of a kind divides a list in one way. -/
theorem append_cons_inj_of_first {p : Token → Prop} {x y u v : List Token} {a b : Token}
    (hx : ∀ c ∈ x, ¬p c) (hy : ∀ c ∈ y, ¬p c) (ha : p a) (hb : p b) (h : x ++ a :: u = y ++ b :: v) :
    x = y ∧ a = b ∧ u = v := by
  induction x generalizing y with
  | nil =>
    cases y with
    | nil => exact ⟨rfl, List.cons.inj h⟩
    | cons c y => exact absurd ((List.cons.inj h).1 ▸ ha) (hy c List.mem_cons_self)
  | cons c x ih =>
    obtain ⟨hc, hx⟩ := List.forall_mem_cons.mp hx
    cases y with
    | nil => exact absurd ((List.cons.inj h).1 ▸ hb) hc
    | cons d y =>
      obtain ⟨rfl, htail⟩ := List.cons.inj h
      obtain ⟨rfl, hrest⟩ := ih hx (List.forall_mem_cons.mp hy).2 htail
      exact ⟨rfl, hrest⟩

/-- Parameter number `n` and its tokens.  Without a name it is numbered. -/
inductive Entry (n : Nat) : List Token → Ty × String → Prop
  | intro {z junk : List Token} {ty : Ty} (name : Option String) (hz : Ty.Spelled z ty)
    (hjunk : ∀ t ∈ junk, Reader.endsAttributes t = false) (hstar : junk.head? ≠ some .star) :
    Entry n (z ++ junk ++ (name.map Token.loc).toList) (ty, name.getD (toString n))

/-- Parameters from number `n` on, with commas between them.  The last part may be empty. -/
inductive Listed : Nat → List Token → List (Ty × String) → Prop
  | nil {n : Nat} : Listed n [] []
  | last {n : Nat} {x : List Token} {r : Ty × String} (h : Entry n x r) : Listed n x [r]
  | cons {n : Nat} {x y : List Token} {r : Ty × String} {rs : List (Ty × String)} (h : Entry n x r)
    (hrest : Listed (n + 1) y rs) : Listed n (x ++ .comma :: y) (r :: rs)

section
variable {n : Nat} {x : List Token} {r : Ty × String} {rs : List (Ty × String)}

theorem Entry.exists_cons (h : Entry n x r) : ∃ t ts, x = t :: ts ∧ t.startsType = true := by
  obtain ⟨name, hz⟩ := h
  obtain ⟨t, ts, rfl, ht⟩ := hz.exists_cons
  exact ⟨t, _, rfl, ht⟩

/-- A part of a list has no comma and no closing parenthesis. -/
theorem Entry.not_mem (h : Entry n x r) {t : Token} (ht : t = .comma ∨ t = .rparen) : t ∉ x := by
  obtain ⟨name, hz, hjunk⟩ := h
  intro hmem
  rcases List.mem_append.mp hmem with hmem | hmem
  · rcases List.mem_append.mp hmem with hmem | hmem
    · have hspelled := hz.mem hmem
      rcases ht with rfl | rfl <;> simp at hspelled
    · have hpassed := hjunk t hmem
      rcases ht with rfl | rfl <;> cases hpassed
  · cases name with
    | none => cases hmem
    | some name =>
      rw [List.mem_singleton.mp hmem] at ht
      simp at ht

theorem Listed.rparen_not_mem (h : Listed n x rs) : .rparen ∉ x := by
  induction h with
  | nil => exact List.not_mem_nil
  | last h => exact h.not_mem (.inr rfl)
  | cons h _ ih =>
    rw [List.mem_append, List.mem_cons]
    rintro (hx | hcomma | hy)
    · exact h.not_mem (.inr rfl) hx
    · cases hcomma
    · exact ih hy

end

namespace Reader

section
variable {x y z : List Token} {r : Ty × String} {params rs : List (Ty × String)} {s t : ReadState}

/-! ## Reading what is listed -/

theorem takes_parameterName? {junk : List Token} {name : Option String} {a : Token}
    (hjunk : ∀ t ∈ junk, endsAttributes t = false) (ha : a = .comma ∨ a = .rparen) :
    Takes (junk ++ (name.map Token.loc).toList ++ a :: x) (a :: x) parameterName? name := by
  have hpass : ∀ {b u}, endsAttributes b = true →
      Takes (junk ++ b :: u) (b :: u) (skip (·.dropWhile fun t => !endsAttributes t.val)) () :=
    fun hb => takes_skip_until (fun t ht => by rw [hjunk _ ht]; rfl) fun _ => by rw [hb]; rfl
  cases name with
  | some name =>
    rw [List.append_assoc]
    exact (hpass rfl).bind (takes_peek.bind ((takes_advance Token.noConfusion).bind .pure))
  | none =>
    rw [Option.map_none, Option.toList_none, List.append_nil]
    rcases ha with rfl | rfl <;> exact (hpass rfl).bind (takes_peek.bind .pure)

/-- A parameter.  The comma behind it decides whether more are read. -/
theorem takes_entry {a : Token} {more : Bool} (h : Entry params.length x r)
    (ha : a = .comma ∨ a = .rparen) (hcomma : Takes (a :: y) z (eat .comma) more) :
    Takes (x ++ a :: y) z (parameter params)
      (if more then .again (params ++ [r]) else .done (params ++ [r])) := by
  obtain ⟨b, bs, hx, hb⟩ := h.exists_cons
  have hpeek : Takes (x ++ a :: y) (x ++ a :: y) peek b := by
    rw [hx]
    exact takes_peek
  refine hpeek.bind ?_
  rw [if_neg (Token.ne_of_startsType hb rfl), if_neg (Token.ne_of_startsType hb rfl)]
  obtain @⟨_, junk, _, name, hz, hjunk, hstar⟩ := h
  have hstar : (junk ++ (name.map Token.loc).toList ++ a :: y).head? ≠ some .star := by
    cases junk with
    | cons c junk => exact hstar
    | nil =>
      cases name with
      | some name => simp
      | none => rcases ha with rfl | rfl <;> simp
  rw [List.append_assoc, List.append_assoc, ← List.append_assoc junk]
  refine (takes_spelled hz (by simp) hstar).bind ((takes_parameterName? hjunk ha).bind ?_)
  refine hcomma.bind ?_
  cases more with
  | true => exact .pure
  | false => exact .pure

/-- Parameters are read up to the closing parenthesis. -/
theorem takes_listed (h : Listed params.length x rs) :
    Takes (x ++ .rparen :: y) (.rparen :: y) (iterate parameter params) (params ++ rs) := by
  generalize hn : params.length = n at h
  induction h generalizing params with
  | nil =>
    rw [List.append_nil]
    refine .iterate_done (takes_peek.bind ?_)
    rw [if_pos rfl]
    exact .pure
  | last h =>
    subst hn
    exact .iterate_done (takes_entry h (.inr rfl) (takes_eat_other Token.noConfusion))
  | @cons n x y r rs h _ ih =>
    subst hn
    rw [List.append_assoc, List.cons_append, List.append_cons params]
    refine .iterate_again (takes_entry h (.inl rfl) (takes_eat Token.noConfusion)) ?_
      (ih List.length_append)
    simp only [List.length_append, List.length_cons]
    omega

theorem takes_parameters (h : Listed 0 x rs) :
    Takes (x ++ .rparen :: y) (.rparen :: y) parameters rs := by
  show Takes _ _ (iterate parameter []) ([] ++ rs)
  exact takes_listed h

theorem takes_functionName {junk : List Token} {name : String}
    (hjunk : ∀ t ∈ junk, endsResult t = false) :
    Takes (junk ++ .glob name :: x) x functionName name :=
  Takes.bind (takes_skip_until (fun t ht => by rw [hjunk _ ht]; rfl) fun _ => rfl)
    (takes_peek.bind ((takes_advance Token.noConfusion).bind .pure))

theorem takes_openBody {junk : List Token} (hjunk : ∀ t ∈ junk, endsHeader t = false) :
    Takes (junk ++ .lbrace :: x) x openBody () := by
  refine (takes_skip_until (fun t ht => by rw [hjunk _ ht]; rfl) fun _ => rfl).bind ?_
  refine takes_peek.bind ?_
  rw [if_pos rfl]
  exact takes_advance Token.noConfusion

/-! ## What was listed -/

theorem tokens_of_parameterName? {name : Option String} (h : parameterName? s = .ok name t) :
    ∃ junk, s.tokens = junk ++ (name.map Token.loc).toList ++ t.tokens ∧
      ∀ a ∈ junk, endsAttributes a = false := by
  obtain ⟨_, u, hskip, h⟩ := bind_eq_ok h
  obtain ⟨junk, hjunk, hpassed, _⟩ := tokens_of_skip_until hskip
  rw [bind_of_ok (peek_eq u)] at h
  refine ⟨junk, ?_, hpassed⟩
  rw [hjunk, List.append_assoc]
  cases hnext : (ahead u.rest).val with
  | loc name =>
    rw [hnext] at h
    cases h
    rw [tokens_of_ahead hnext Token.noConfusion]
    rfl
  | comma | rparen =>
    rw [hnext] at h
    cases h
    rfl
  | _ =>
    rw [hnext] at h
    cases h

/-- A round reads nothing in front of a closing parenthesis, and otherwise one parameter. -/
theorem entry_of_parameter {round : Round (List (Ty × String))}
    (h : parameter params s = .ok round t) :
    round = .done params ∧ (ahead s.rest).val = .rparen ∧ t = s ∨
      ∃ x r, Entry params.length x r ∧
        (round = .again (params ++ [r]) ∧ s.tokens = x ++ .comma :: t.tokens ∨
          round = .done (params ++ [r]) ∧ s.tokens = x ++ t.tokens) := by
  rw [parameter, bind_of_ok (peek_eq s)] at h
  by_cases hclose : (ahead s.rest).val = .rparen
  · rw [if_pos hclose] at h
    cases h
    exact .inl ⟨rfl, hclose, rfl⟩
  · rw [if_neg hclose] at h
    by_cases hdots : (ahead s.rest).val = .ellipsis
    · rw [if_pos hdots] at h
      cases h
    · rw [if_neg hdots] at h
      obtain ⟨ty, s₁, htype, h⟩ := bind_eq_ok h
      obtain ⟨name, s₂, hname, h⟩ := bind_eq_ok h
      obtain ⟨more, s₃, hmore, h⟩ := bind_eq_ok h
      obtain ⟨z, hz, hspelled, hstar⟩ := spelled_of_type htype
      obtain ⟨junk, hjunk, hpassed⟩ := tokens_of_parameterName? hname
      have hstar : junk.head? ≠ some .star := by
        intro hhead
        obtain ⟨rest, rfl⟩ := List.head?_eq_some_iff.mp hhead
        exact hstar (ahead_of_tokens hjunk)
      have hentry := Entry.intro (n := params.length) name hspelled hpassed hstar
      have htokens : s.tokens = z ++ junk ++ (name.map Token.loc).toList ++ s₂.tokens := by
        rw [hz, hjunk]
        simp only [List.append_assoc]
      refine .inr ⟨_, _, hentry, ?_⟩
      by_cases hcomma : (ahead s₂.rest).val = .comma
      · rw [eat_of_eq hcomma] at hmore
        cases hmore
        cases h
        rw [tokens_of_ahead hcomma Token.noConfusion] at htokens
        exact .inl ⟨rfl, htokens⟩
      · rw [eat_of_ne hcomma] at hmore
        cases hmore
        cases h
        exact .inr ⟨rfl, htokens⟩

theorem listed_of_parameters (h : iterate parameter params s = .ok rs t) :
    ∃ x new, rs = params ++ new ∧ Listed params.length x new ∧ s.tokens = x ++ t.tokens := by
  induction params, s using Reader.iterate.induct parameter with
  | case1 params s b u hr =>
    rw [iterate_of_done hr] at h
    cases h
    rcases entry_of_parameter hr with ⟨hround, _, rfl⟩ | ⟨x, r, hentry, ⟨hround, _⟩ | ⟨hround, hx⟩⟩
    · cases hround
      exact ⟨[], [], (List.append_nil _).symm, .nil, rfl⟩
    · cases hround
    · cases hround
      exact ⟨x, [r], rfl, .last hentry, hx⟩
  | case2 params s b u hr hless ih =>
    rw [iterate_of_again hr hless] at h
    rcases entry_of_parameter hr with ⟨hround, _⟩ | ⟨x, r, hentry, ⟨hround, hx⟩ | ⟨hround, _⟩⟩
    · cases hround
    · cases hround
      obtain ⟨y, new, rfl, hlisted, hy⟩ := ih h
      rw [List.length_append] at hlisted
      refine ⟨x ++ .comma :: y, r :: new, (List.append_cons params r new).symm,
        .cons hentry hlisted, ?_⟩
      rw [hx, hy, List.append_assoc, List.cons_append]
    · cases hround
  | case3 params s b u hr hless =>
    rcases entry_of_parameter hr with ⟨hround, _⟩ | ⟨x, r, hentry, ⟨_, hx⟩ | ⟨hround, _⟩⟩
    · cases hround
    · refine absurd (length_lt_of_tokens hx rfl ?_) hless
      simp only [List.length_append, List.length_cons]
      omega
    · cases hround
  | case4 params s e u hr =>
    rw [iterate_of_error hr] at h
    cases h

theorem tokens_of_functionName {name : String} (h : functionName s = .ok name t) :
    ∃ junk, s.tokens = junk ++ .glob name :: t.tokens ∧ ∀ a ∈ junk, endsResult a = false := by
  obtain ⟨_, u, hskip, h⟩ := bind_eq_ok h
  obtain ⟨junk, hjunk, hpassed, _⟩ := tokens_of_skip_until hskip
  rw [bind_of_ok (peek_eq u)] at h
  cases hnext : (ahead u.rest).val with
  | glob name =>
    rw [hnext] at h
    cases h
    exact ⟨junk, by rw [hjunk, tokens_of_ahead hnext Token.noConfusion], hpassed⟩
  | _ =>
    rw [hnext] at h
    cases h

end
end Reader

/-! ## Lists are read in one way -/

section
variable {n : Nat} {x y : List Token} {r r' : Ty × String} {rs rs' : List (Ty × String)}

theorem Listed.unique (h : Listed n x rs) (h' : Listed n x rs') : rs' = rs := by
  obtain ⟨params, rfl⟩ : ∃ params : List (Ty × String), params.length = n :=
    ⟨List.replicate n default, List.length_replicate⟩
  have hsame := (Reader.takes_listed (y := []) h).unique (Reader.takes_listed h')
  exact List.append_cancel_left hsame

theorem Entry.unique (h : Entry n x r) (h' : Entry n x r') : r' = r :=
  (List.cons.inj (Listed.unique (.last h) (.last h'))).1

end
end SsaGraph
