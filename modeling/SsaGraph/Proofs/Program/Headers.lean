import SsaGraph.Proofs.Program.Parameters
import SsaGraph.Proofs.Program.Reaching
import SsaGraph.Proofs.Text.Lines

/-!
The arguments of a function and the header that it was read from.  A header is written with
parameters that may have attributes (`Parameter`, `Header`).  Without groups in parentheses
among them the function has exactly these parameters.  A group ends the list at its first
closing parenthesis (`Intact`).
-/

namespace SsaGraph

/-! ## Written headers -/

/-- A parameter as it is written: a type, attributes and a name. -/
structure Parameter where
  spelling : List Token
  type : Ty
  attributes : List (List Token)
  name : String
  spelled : Ty.Spelled spelling type
  formed : ∀ x ∈ attributes, Attribute (fun _ => True) x

namespace Parameter

def tokens (q : Parameter) : List Token := q.spelling ++ q.attributes.flatten ++ [.loc q.name]

def entry (q : Parameter) : Ty × String := (q.type, q.name)

/-- No attribute has a group. -/
def Plain (q : Parameter) : Prop := ∀ x ∈ q.attributes, .lparen ∉ x

/-- The tokens in front of the first closing parenthesis. -/
def front (q : Parameter) : List Token := q.tokens.takeWhile (· != .rparen)

end Parameter

/-- A header from the word that starts it to the brace that opens the body. -/
structure Header where
  result : List Token
  name : String
  params : List Parameter
  suffix : List Token
  result_line : ∀ t ∈ result, t ≠ .newline ∧ t ≠ .eof ∧ ∀ name, t ≠ .glob name
  suffix_line : ∀ t ∈ suffix, Reader.endsHeader t = false

namespace Header

def list (h : Header) : List Token := commaSeparated (h.params.map Parameter.tokens)

def tokens (h : Header) : List Token :=
  .word "define" :: (h.result ++ .glob h.name :: .lparen :: (h.list ++ .rparen ::
    (h.suffix ++ [.lbrace])))

theorem tokens_append (h : Header) (x : List Token) :
    h.tokens ++ x = .word "define" :: (h.result ++ .glob h.name :: .lparen ::
      (h.list ++ .rparen :: (h.suffix ++ .lbrace :: x))) := by
  simp only [tokens, List.cons_append, List.append_assoc, List.nil_append]

end Header

/-- Types and names of the arguments. -/
def Func.parameters (f : Func) : List (Option (Ty × Option String)) :=
  f.args.map fun v => (f.value? v).map fun x => (x.type, x.name)

/-! ## Groups -/

section
variable {allowed : String → Prop} {x : List Token} {q : Parameter} {n : Nat}
  {rs rs' : List (Ty × String)}

/-- An attribute is passed over, up to the parenthesis that closes its group. -/
theorem Attribute.passed_or_group (h : Attribute allowed x) :
    .lparen ∉ x ∧ (∀ t ∈ x, Reader.endsAttributes t = false) ∨ .lparen ∈ x ∧ .rparen ∈ x := by
  cases h with
  | word h => exact .inl ⟨by simp, fun t ht => by rw [List.mem_singleton.mp ht]; rfl⟩
  | group h hx => exact .inr ⟨by simp, by simp⟩
  | align n =>
    refine .inl ⟨by simp, fun t ht => ?_⟩
    simp only [List.mem_cons, List.not_mem_nil, or_false] at ht
    rcases ht with rfl | rfl <;> rfl

namespace Parameter

theorem passed_of_plain (h : q.Plain) : ∀ t ∈ q.attributes.flatten, Reader.endsAttributes t = false := by
  intro t ht
  obtain ⟨x, hx, ht⟩ := List.mem_flatten.mp ht
  rcases (q.formed x hx).passed_or_group with ⟨_, hpassed⟩ | ⟨hopen, _⟩
  · exact hpassed t ht
  · exact absurd hopen (h x hx)

/-- Without groups a parameter is read as it is written. -/
theorem entry_of_plain (h : q.Plain) (n : Nat) : Entry n q.tokens q.entry := by
  refine .intro (some q.name) q.spelled (passed_of_plain h) fun hstar => ?_
  have hformed := q.formed
  generalize q.attributes = as at hstar hformed
  cases as with
  | nil => cases hstar
  | cons a as =>
    obtain ⟨w, y, rfl⟩ := (hformed a List.mem_cons_self).exists_cons
    rw [List.flatten_cons] at hstar
    cases hstar

end Parameter

end

/-! ## Lists -/

theorem Listed.of_plain {n : Nat} {qs : List Parameter} (h : ∀ q ∈ qs, q.Plain) :
    Listed n (commaSeparated (qs.map Parameter.tokens)) (qs.map Parameter.entry) := by
  induction qs generalizing n with
  | nil => exact .nil
  | cons q qs ih =>
    obtain ⟨hq, hqs⟩ := List.forall_mem_cons.mp h
    have hentry := Parameter.entry_of_plain hq n
    cases qs with
    | nil =>
      rw [List.map_singleton, commaSeparated_singleton]
      exact .last hentry
    | cons q' qs =>
      rw [List.map_cons, List.map_cons, commaSeparated_cons_cons]
      exact .cons hentry (ih hqs)

namespace Reader

section
variable {h : Header} {x : List Token} {rs : List (Ty × String)} {s t : ReadState} {name : String}

/-- A header is read whatever stands in front of its name and behind its parameters. -/
theorem takes_header_of_listed {result list suffix : List Token}
    (hresult : ∀ t ∈ result, endsResult t = false) (hlisted : Listed 0 list rs)
    (hsuffix : ∀ t ∈ suffix, endsHeader t = false) :
    Takes (.word "define" :: (result ++ .glob name :: .lparen :: (list ++ .rparen ::
      (suffix ++ .lbrace :: x)))) x header (name, rs) := by
  refine Takes.bind ?_ ((takes_openBody hsuffix).bind .pure)
  refine (takes_advance Token.noConfusion).bind ((takes_functionName hresult).bind ?_)
  refine (takes_expect Token.noConfusion).bind ((takes_parameters hlisted).bind ?_)
  exact (takes_expect Token.noConfusion).bind .pure

theorem takes_header (hbrace : .lbrace ∉ h.result) (hlisted : Listed 0 h.list rs) :
    Takes (h.tokens ++ x) x header (h.name, rs) := by
  have hresult : ∀ t ∈ h.result, endsResult t = false := by
    intro t ht
    obtain ⟨hline, hend, hname⟩ := h.result_line t ht
    cases t with
    | glob name => exact absurd rfl (hname name)
    | newline => exact absurd rfl hline
    | eof => exact absurd rfl hend
    | lbrace => exact absurd ht hbrace
    | _ => rfl
  rw [Header.tokens_append]
  exact takes_header_of_listed hresult hlisted h.suffix_line

/-- What a header that was read looks like. -/
theorem tokens_of_header (hnext : (ahead s.rest).val = .word "define")
    (hr : header s = .ok (name, rs) t) :
    ∃ result list rest, s.tokens = .word "define" :: (result ++ .glob name :: .lparen ::
      (list ++ .rparen :: rest)) ∧ (∀ a ∈ result, endsResult a = false) ∧ Listed 0 list rs := by
  obtain ⟨_, u, hsignature, hr⟩ := bind_eq_ok hr
  obtain ⟨_, _, _, hr⟩ := bind_eq_ok hr
  cases hr
  obtain ⟨_, s₁, hadvance, hr⟩ := bind_eq_ok hsignature
  obtain ⟨_, s₂, hname, hr⟩ := bind_eq_ok hr
  obtain ⟨_, s₃, hopen, hr⟩ := bind_eq_ok hr
  obtain ⟨_, s₄, hparams, hr⟩ := bind_eq_ok hr
  obtain ⟨_, s₅, hclose, hr⟩ := bind_eq_ok hr
  cases hr
  cases hadvance
  obtain ⟨junk, hjunk, hpassed⟩ := tokens_of_functionName hname
  obtain ⟨y, new, rfl, hlisted, hy⟩ := listed_of_parameters hparams
  have htokens := tokens_of_ahead hnext Token.noConfusion
  rw [hjunk, tokens_of_expect Token.noConfusion hopen, hy,
    tokens_of_expect Token.noConfusion hclose] at htokens
  exact ⟨junk, y, _, htokens, hpassed, hlisted⟩

/-- The name of a function is the first global name of its header, and its list of parameters ends
at the first closing parenthesis. -/
theorem header_inj {result result' list list' rest rest' : List Token} {name' : String}
    (hresult : ∀ a ∈ result, ∀ n, a ≠ Token.glob n) (hresult' : ∀ a ∈ result', ∀ n, a ≠ Token.glob n)
    (h : result ++ .glob name :: .lparen :: (list ++ .rparen :: rest) =
      result' ++ .glob name' :: .lparen :: (list' ++ .rparen :: rest')) :
    name = name' ∧ list.takeWhile (· != .rparen) = list'.takeWhile (· != .rparen) := by
  obtain ⟨_, hname, hlist⟩ := append_cons_inj_of_first (p := fun a => ∃ n, a = Token.glob n)
    (fun a ha ⟨n, he⟩ => hresult a ha n he) (fun a ha ⟨n, he⟩ => hresult' a ha n he) ⟨_, rfl⟩
    ⟨_, rfl⟩ h
  refine ⟨Token.glob.inj hname, ?_⟩
  rw [← Text.takeWhile_ne_append_cons list, (List.cons.inj hlist).2, Text.takeWhile_ne_append_cons]

theorem ne_glob_of_endsResult {a : Token} (h : endsResult a = false) (n : String) : a ≠ .glob n := by
  intro he
  rw [he] at h
  cases h

end
end Reader

/-- `define double @f(ptr noundef align 8 %p, double %x) #0 {` -/
def Header.attributed : Header where
  result := [.word "double"]
  name := "f"
  params := [
    { spelling := [.word "ptr"], type := .ptr, name := "p", spelled := .word rfl
      attributes := [[.word "noundef"], [.word "align", .int 8]]
      formed := List.forall_mem_cons.mpr ⟨.word trivial, List.forall_mem_singleton.mpr (.align 8)⟩ },
    { spelling := [.word "double"], type := .double, name := "x", spelled := .word rfl
      attributes := []
      formed := List.forall_mem_nil _ }]
  suffix := [.attr "0"]
  result_line := by simp
  suffix_line := by simp [Reader.endsHeader]

end SsaGraph
