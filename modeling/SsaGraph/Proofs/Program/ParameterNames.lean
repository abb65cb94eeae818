import SsaGraph.Proofs.Lowering.Success
import SsaGraph.Proofs.Program.Bodies
import SsaGraph.Proofs.Program.Headers
import SsaGraph.Proofs.Text.Digits

/-!
What the parameters of a function are called.

A header declares parameters with and without names (`Declares`, `Heads`).  A parameter without
a name is called by its position among all parameters, not by its number among those without a
name.  The two numbers are the same up to the first parameter with a name, and differ behind it:
there, `%j` is another parameter than the one meant, or none.
-/

namespace SsaGraph

theorem toString_inj {m n : Nat} (h : toString m = toString n) : m = n := by
  have hdigits : Nat.toDigits 10 m = Nat.toDigits 10 n := String.ofList_injective h
  rw [← Digits.value_toDigits m, hdigits, Digits.value_toDigits]

/-! ## Declared parameters -/

/-- The tokens of a parameter: a type, attributes, and perhaps a name. -/
inductive Declared : List Token → Ty × Option String → Prop
  | intro {z junk : List Token} {ty : Ty} (name : Option String) (hz : Ty.Spelled z ty)
    (hjunk : ∀ t ∈ junk, Reader.endsAttributes t = false) (hstar : junk.head? ≠ some .star) :
    Declared (z ++ junk ++ (name.map Token.loc).toList) (ty, name)

/-- Parameters with commas between them.  The last part may be empty. -/
inductive Declares : List Token → List (Ty × Option String) → Prop
  | nil : Declares [] []
  | last {x : List Token} {p : Ty × Option String} (h : Declared x p) : Declares x [p]
  | cons {x y : List Token} {p : Ty × Option String} {ps : List (Ty × Option String)}
    (h : Declared x p) (hrest : Declares y ps) : Declares (x ++ .comma :: y) (p :: ps)

/-- The tokens start with a header of a function `name` that declares the parameters `ps`. -/
def Heads (ts : List Token) (name : String) (ps : List (Ty × Option String)) : Prop :=
  ∃ result list rest, ts = .word "define" :: (result ++ .glob name :: .lparen ::
    (list ++ .rparen :: rest)) ∧ (∀ t ∈ result, Reader.endsResult t = false) ∧ Declares list ps

/-- Parameters from position `n` on as they are called. -/
def called (n : Nat) : List (Ty × Option String) → List (Ty × String)
  | [] => []
  | p :: ps => (p.1, p.2.getD (toString n)) :: called (n + 1) ps

/-- Names are pairwise distinct, and none is a number. -/
structure DistinctNames (ps : List (Ty × Option String)) : Prop where
  distinct : ps.Pairwise fun p q => p.2 = none ∨ p.2 ≠ q.2
  notNumber : ∀ p ∈ ps, ∀ k : Nat, p.2 ≠ some (toString k)

/-- The name stands for argument number `i` of the function that is read. -/
def ReadState.NamesArgument (s : ReadState) (name : String) (i : Nat) : Prop :=
  ∃ v, s.builder.func.args[i]? = some v ∧ Reader.local? name s = .ok (some v) s

section
variable {n i : Nat} {x : List Token} {ps : List (Ty × Option String)} {rs : List (Ty × String)}

theorem getElem?_called (n i : Nat) (ps : List (Ty × Option String)) :
    (called n ps)[i]? = ps[i]?.map fun p => (p.1, p.2.getD (toString (n + i))) := by
  induction ps generalizing n i with
  | nil => rfl
  | cons p ps ih =>
    cases i with
    | zero => rfl
    | succ i =>
      rw [called, List.getElem?_cons_succ, ih, List.getElem?_cons_succ, Nat.add_right_comm,
        Nat.add_assoc]

/-- What is declared is what is listed, but for the numbers. -/
theorem Declares.listed (h : Declares x ps) (n : Nat) : Listed n x (called n ps) := by
  induction h generalizing n with
  | nil => exact .nil
  | last h =>
    obtain ⟨name, hz, hjunk, hstar⟩ := h
    exact .last (.intro name hz hjunk hstar)
  | cons h _ ih =>
    obtain ⟨name, hz, hjunk, hstar⟩ := h
    exact .cons (.intro name hz hjunk hstar) (ih (n + 1))

theorem declares_of_listed (h : Listed n x rs) : ∃ ps, Declares x ps ∧ rs = called n ps := by
  induction h with
  | nil => exact ⟨[], .nil, rfl⟩
  | last h =>
    obtain ⟨name, hz, hjunk, hstar⟩ := h
    exact ⟨_, .last (.intro name hz hjunk hstar), rfl⟩
  | cons h _ ih =>
    obtain ⟨name, hz, hjunk, hstar⟩ := h
    obtain ⟨ps, hps, rfl⟩ := ih
    exact ⟨_, .cons (.intro name hz hjunk hstar) hps, rfl⟩

theorem DistinctNames.eq_of_name (h : DistinctNames ps) {i j : Nat} {p q : Ty × Option String}
    {name : String} (hi : ps[i]? = some p) (hj : ps[j]? = some q) (hp : p.2 = some name)
    (hq : q.2 = some name) : i = j := by
  have hlt : ∀ {i j : Nat} {p q : Ty × Option String}, ps[i]? = some p → ps[j]? = some q →
      p.2 = some name → q.2 = some name → ¬i < j := by
    intro i j p q hi hj hp hq hlt
    obtain ⟨hil, rfl⟩ := List.getElem?_eq_some_iff.mp hi
    obtain ⟨hjl, rfl⟩ := List.getElem?_eq_some_iff.mp hj
    rcases List.pairwise_iff_getElem.mp h.distinct i j hil hjl hlt with hnone | hne
    · rw [hp] at hnone
      cases hnone
    · exact hne (hp.trans hq.symm)
  have hle := hlt hi hj hp hq
  have hge := hlt hj hi hq hp
  omega

/-- Parameters are called differently. -/
theorem DistinctNames.called_inj (h : DistinctNames ps) {i j : Nat} {ty ty' : Ty} {name : String}
    (hi : (called 0 ps)[i]? = some (ty, name)) (hj : (called 0 ps)[j]? = some (ty', name)) :
    i = j := by
  rw [getElem?_called, Nat.zero_add, Option.map_eq_some_iff] at hi hj
  obtain ⟨p, hi, hp⟩ := hi
  obtain ⟨q, hj, hq⟩ := hj
  have hp : p.2.getD (toString i) = name := congrArg Prod.snd hp
  have hq : q.2.getD (toString j) = name := congrArg Prod.snd hq
  cases hpn : p.2 with
  | none =>
    rw [hpn] at hp
    cases hqn : q.2 with
    | none =>
      rw [hqn] at hq
      exact toString_inj (hp.trans hq.symm)
    | some m =>
      rw [hqn] at hq
      have hm : m = toString i := hq.trans hp.symm
      exact absurd (hm ▸ hqn) (h.notNumber q (List.mem_of_getElem? hj) i)
  | some k =>
    rw [hpn] at hp
    cases hqn : q.2 with
    | none =>
      rw [hqn] at hq
      have hk : k = toString j := hp.trans hq.symm
      exact absurd (hk ▸ hpn) (h.notNumber p (List.mem_of_getElem? hi) j)
    | some m =>
      rw [hqn] at hq
      have hk : k = m := hp.trans hq.symm
      exact h.eq_of_name hi hj (hk ▸ hpn) hqn

end

namespace Reader

variable {d u : ReadState} {name : String} {rs : List (Ty × String)} {ps : List (Ty × Option String)}

/-- The parameters that were read are those that the header declares. -/
theorem eq_called_of_heads (hnext : (ahead d.rest).val = .word "define")
    (hread : header d = .ok (name, rs) u) (h : Heads d.tokens name ps) : rs = called 0 ps := by
  obtain ⟨result, list, rest, htokens, hresult, hlisted⟩ := tokens_of_header hnext hread
  obtain ⟨result', list', rest', htokens', hresult', hdeclares⟩ := h
  rw [htokens] at htokens'
  obtain ⟨_, hlist⟩ := header_inj (fun a ha => ne_glob_of_endsResult (hresult a ha))
    (fun a ha => ne_glob_of_endsResult (hresult' a ha)) (List.cons.inj htokens').2
  have hlisted' := hdeclares.listed 0
  rw [Text.takeWhile_ne_of_not_mem hlisted.rparen_not_mem,
    Text.takeWhile_ne_of_not_mem hlisted'.rparen_not_mem] at hlist
  subst hlist
  exact hlisted'.unique hlisted

theorem mem_zip_range {l : List (Ty × String)} {p : Ty × String} {v : Nat} :
    (p, v) ∈ l.zip (List.range l.length) ↔ l[v]? = some p := by
  rw [List.mem_iff_getElem?]
  constructor
  · rintro ⟨k, hk⟩
    obtain ⟨hp, hv⟩ := List.getElem?_zip_eq_some.mp hk
    obtain ⟨hlt, hv⟩ := List.getElem?_eq_some_iff.mp hv
    rw [List.getElem_range] at hv
    subst hv
    exact hp
  · intro hp
    obtain ⟨hlt, _⟩ := List.getElem?_eq_some_iff.mp hp
    exact ⟨v, List.getElem?_zip_eq_some.mpr ⟨hp, List.getElem?_range hlt⟩⟩

/-- In front of the body, each parameter is what it is called. -/
theorem namesArgument_entered_iff (s : ReadState) (fname : String)
    (hinj : ∀ {i j : Nat} {ty ty' : Ty} {n : String},
      rs[i]? = some (ty, n) → rs[j]? = some (ty', n) → i = j) {n : String} {i : Nat} :
    (s.entered fname rs).NamesArgument n i ↔ ∃ ty, rs[i]? = some (ty, n) := by
  constructor
  · rintro ⟨v, hv, hlocal⟩
    injection hlocal with hget
    have hv : (List.range rs.length)[i]? = some v := hv
    obtain ⟨_, hv⟩ := List.getElem?_eq_some_iff.mp hv
    rw [List.getElem_range] at hv
    subst hv
    rcases get?_foldl_insert hget with ⟨ty, hmem⟩ | hnone
    · exact ⟨ty, mem_zip_range.mp hmem⟩
    · cases hnone
  · rintro ⟨ty, hi⟩
    obtain ⟨hlt, _⟩ := List.getElem?_eq_some_iff.mp hi
    refine ⟨i, List.getElem?_range hlt, ?_⟩
    have hget : (s.entered fname rs).locals.get? n = some i := by
      refine get?_foldl_insert_of_unique ?_ (.inl ⟨((ty, n), i), mem_zip_range.mpr hi, rfl⟩)
      rintro ⟨⟨ty', n'⟩, j⟩ hmem rfl
      exact hinj (mem_zip_range.mp hmem) hi
    rw [local?, hget]

/-- The body is read with the parameters of the header in scope. -/
theorem function_eq_ok_of_header (hread : header d = .ok (name, rs) u) {f : Func} {t : ReadState} :
    function d = .ok f t ↔ body (u.entered name rs) = .ok () t ∧ f = t.builder.func := by
  rw [function_eq_ok]
  constructor
  · rintro ⟨name', rs', u', hread', hbody, hf⟩
    rw [hread] at hread'
    cases hread'
    exact ⟨hbody, hf⟩
  · rintro ⟨hbody, hf⟩
    exact ⟨name, rs, u, hread, hbody, hf⟩

/-- Every header that is read declares parameters.  If their names are distinct and no numbers, then
in front of the body a name stands for the parameter that has it, and a number for the parameter
at this position, if it has no name.  So the `j`-th parameter without a name is `%j` exactly if
no parameter with a name stands in front of it. -/
theorem parameters_named (hnext : (ahead d.rest).val = .word "define")
    (hread : header d = .ok (name, rs) u) :
    (∀ f t, function d = .ok f t ↔
      body (u.entered name rs) = .ok () t ∧ f = t.builder.func) ∧
    (∃ ps, Heads d.tokens name ps) ∧
    ∀ ps, Heads d.tokens name ps → rs = called 0 ps ∧ (DistinctNames ps →
      (∀ n i, (u.entered name rs).NamesArgument n i ↔
        ∃ p, ps[i]? = some p ∧ n = p.2.getD (toString i)) ∧
      ∀ i ty, ps[i]? = some (ty, none) →
        ((u.entered name rs).NamesArgument (toString ((ps.take i).countP (·.2.isNone))) i ↔
          ∀ q ∈ ps.take i, q.2 = none)) := by
  refine ⟨fun f t => function_eq_ok_of_header hread, ?_, fun ps hps => ?_⟩
  · obtain ⟨result, list, rest, htokens, hresult, hlisted⟩ := tokens_of_header hnext hread
    obtain ⟨ps, hps, _⟩ := declares_of_listed hlisted
    exact ⟨ps, result, list, rest, htokens, hresult, hps⟩
  have hcalled := eq_called_of_heads hnext hread hps
  refine ⟨hcalled, fun hnames => ?_⟩
  have hnamed : ∀ n i, (u.entered name rs).NamesArgument n i ↔
      ∃ p, ps[i]? = some p ∧ n = p.2.getD (toString i) := by
    intro n i
    rw [hcalled, namesArgument_entered_iff u name hnames.called_inj, getElem?_called, Nat.zero_add]
    constructor
    · rintro ⟨ty, hi⟩
      obtain ⟨p, hp, heq⟩ := Option.map_eq_some_iff.mp hi
      exact ⟨p, hp, (congrArg Prod.snd heq).symm⟩
    · rintro ⟨p, hp, rfl⟩
      exact ⟨p.1, by rw [hp]; rfl⟩
  refine ⟨hnamed, fun i ty hi => ?_⟩
  obtain ⟨hlt, _⟩ := List.getElem?_eq_some_iff.mp hi
  have hlen : (ps.take i).length = i := by
    rw [List.length_take]
    omega
  rw [hnamed]
  calc (∃ p, ps[i]? = some p ∧ toString ((ps.take i).countP (·.2.isNone)) = p.2.getD (toString i))
      ↔ (ps.take i).countP (·.2.isNone) = i := by
        rw [hi]
        constructor
        · rintro ⟨p, hp, heq⟩
          cases hp
          exact toString_inj heq
        · intro heq
          exact ⟨_, rfl, congrArg toString heq⟩
    _ ↔ ∀ q ∈ ps.take i, q.2 = none := by
        rw [← List.countP_eq_length.trans (forall₂_congr fun q _ => Option.isNone_iff_eq_none), hlen]

end Reader

/-! ## A mixed list -/

theorem ne_toString_of_mem {name : String} {c : Char} (hc : c ∈ name.toList)
    (hdigit : c.isDigit = false) (k : Nat) : name ≠ toString k := by
  rintro rfl
  rw [Nat.toString_eq_ofList_toDigits, String.toList_ofList] at hc
  rw [Digits.isDigit_of_mem_toDigits hc] at hdigit
  cases hdigit

/-- `define double @f(double, double %x, ptr noundef %y, i64) {` -/
def mixedTokens : List (Located Token) :=
  ([.word "define", .word "double", .glob "f", .lparen, .word "double", .comma, .word "double",
    .loc "x", .comma, .word "ptr", .word "noundef", .loc "y", .comma, .word "i64", .rparen,
    .lbrace, .rbrace, .eof] : List Token).map (⟨·, default⟩)

def mixedParameters : List (Ty × Option String) :=
  [(.double, none), (.double, some "x"), (.ptr, some "y"), (.int 64, none)]

theorem distinctNames_mixed : DistinctNames mixedParameters where
  distinct := by decide
  notNumber p hp k hk := by
    have hx : "x" ≠ toString k := ne_toString_of_mem (c := 'x') (by decide) (by decide) k
    have hy : "y" ≠ toString k := ne_toString_of_mem (c := 'y') (by decide) (by decide) k
    simp only [mixedParameters, List.mem_cons, List.not_mem_nil, or_false] at hp
    rcases hp with rfl | rfl | rfl | rfl
    · cases hk
    · exact hx (Option.some.inj hk)
    · exact hy (Option.some.inj hk)
    · cases hk

theorem declares_mixed : Declares [.word "double", .comma, .word "double", .loc "x", .comma,
    .word "ptr", .word "noundef", .loc "y", .comma, .word "i64"] mixedParameters := by
  have hfirst := @Declared.intro [.word "double"] [] .double none (.word rfl) (by simp) (by simp)
  have hx := @Declared.intro [.word "double"] [] .double (some "x") (.word rfl) (by simp) (by simp)
  have hy := @Declared.intro [.word "ptr"] [.word "noundef"] .ptr (some "y") (.word rfl)
    (by simp [Reader.endsAttributes]) (by simp)
  have hlast := @Declared.intro [.word "i64"] [] (.int 64) none (.word rfl) (by simp) (by simp)
  exact .cons hfirst (.cons hx (.cons hy (.last hlast)))

/-- The first parameter without a name is `%0`, and the second one is `%3` and not `%1`. -/
theorem Reader.parameters_named_mixed :
    ∃ rs u, header (.start mixedTokens) = .ok ("f", rs) u ∧
      (u.entered "f" rs).NamesArgument "x" 1 ∧ (u.entered "f" rs).NamesArgument "0" 0 ∧
      (u.entered "f" rs).NamesArgument "3" 3 ∧ ¬(u.entered "f" rs).NamesArgument "1" 3 := by
  have htakes := @takes_header_of_listed [.rbrace, .eof] _ "f" [.word "double"] _ []
    (by simp [endsResult]) (declares_mixed.listed 0) (by simp)
  obtain ⟨r, hread, _⟩ := htakes.run (s := .start mixedTokens) rfl
  have hheads : Heads (ReadState.start mixedTokens).tokens "f" mixedParameters :=
    ⟨[.word "double"], _, [.lbrace, .rbrace, .eof], rfl, by simp [endsResult], declares_mixed⟩
  obtain ⟨hnamed, hnumber⟩ := ((parameters_named rfl hread).2.2 _ hheads).2 distinctNames_mixed
  refine ⟨_, _, hread, (hnamed _ _).mpr ⟨_, rfl, rfl⟩, (hnamed _ _).mpr ⟨_, rfl, rfl⟩,
    (hnamed _ _).mpr ⟨_, rfl, rfl⟩, fun hone => ?_⟩
  have hfront := (hnumber 3 _ rfl).mp hone (.double, some "x") (by decide)
  cases hfront

/-- A store through `%1`, the second parameter without a name. -/
def Program.secondUnnamed : String :=
  "define i32 @f(i64 %n, ptr, i64 %m, ptr, i64 %k, ptr %msg) \x7b
    store double 1.0, ptr %1
    ret i32 0
  \x7d"

set_option maxRecDepth 4000 in
/-- It is the first parameter without a name that is stored through, and the store is refused. -/
theorem Program.store_through_firstUnnamed :
    ∃ program f i, read secondUnnamed = .ok program ∧ f ∈ program.functions ∧
      f.parameters = [some (.int 64, some "n"), some (.ptr, some "1"), some (.int 64, some "m"),
        some (.ptr, some "3"), some (.int 64, some "k"), some (.ptr, some "msg")] ∧
      f.instructions[0]? = some i ∧ i.operands[1]? = f.args[1]? ∧
      f.lower ⟨"f", 0, 1, 1⟩ = .error (.refused (.malformed 0 (.storeThrough "%1"))) := by
  have hread : Lowering.okAnd (fun program => program.functions.any fun f =>
      (f.instructions[0]?).any fun i => decide (
        f.parameters = [some (.int 64, some "n"), some (.ptr, some "1"), some (.int 64, some "m"),
          some (.ptr, some "3"), some (.int 64, some "k"), some (.ptr, some "msg")] ∧
        i.operands[1]? = f.args[1]? ∧
        f.lower ⟨"f", 0, 1, 1⟩ = .error (.refused (.malformed 0 (.storeThrough "%1")))))
      (read secondUnnamed) = true := by
    rw [show read secondUnnamed = _ from read_ofList _]
    decide +kernel
  obtain ⟨program, hp, hread⟩ := Lowering.okAnd_eq_true.mp hread
  obtain ⟨f, hf, hread⟩ := List.any_eq_true.mp hread
  obtain ⟨i, hi, hread⟩ := (Option.any_eq_true _ _).mp hread
  obtain ⟨hparams, hoperand, hlower⟩ := of_decide_eq_true hread
  exact ⟨program, f, i, hp, hf, hparams, hi, hoperand, hlower⟩

end SsaGraph
