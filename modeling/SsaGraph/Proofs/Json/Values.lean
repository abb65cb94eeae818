import SsaGraph.Json
import SsaGraph.Proofs.Lists

/-!
Values from tokens.  An array or an object is read back from the tokens it is
written as, if its parts are.
-/

namespace SsaGraph
namespace Json

/-- Exactly these tokens are read, as the value `v`, if each allows two steps. -/
def Parses (ts : List Tok) (v : Json) : Prop :=
  ∀ depth, 2 * ts.length ≤ depth → ∀ rest, value? depth (ts ++ rest) = some (v, rest)

/-- The value of a token that is a value by itself. -/
def scalar? : Tok → Option Json
  | .null => some .null
  | .bool b => some (.bool b)
  | .number n => some (.number n)
  | .string s => some (.string s)
  | _ => none

theorem parses_scalar {t : Tok} {v : Json} (h : scalar? t = some v) : Parses [t] v := by
  intro depth hdepth rest
  rw [List.length_singleton] at hdepth
  obtain ⟨depth, rfl⟩ : ∃ d, depth = d + 1 := ⟨depth - 1, by omega⟩
  cases t <;> cases h <;> rfl

/-- No value starts with a bracket that closes. -/
theorem Parses.head {ts : List Tok} {v : Json} (h : Parses ts v) :
    ∃ t later, ts = t :: later ∧ t ≠ .rbracket := by
  have hvalue := h (2 * ts.length + 1) (Nat.le_succ _) []
  rw [List.append_nil] at hvalue
  cases ts with
  | nil => cases hvalue
  | cons t later =>
    refine ⟨t, later, rfl, ?_⟩
    rintro rfl
    cases hvalue

theorem read?_of_parses {text : String} {ts : List Tok} {v : Json}
    (hts : tokens? text.toList = some ts) (hv : Parses ts v) : read? text = some v := by
  have hvalue := hv (2 * ts.length + 1) (Nat.le_succ _) []
  rw [List.append_nil] at hvalue
  rw [read?, hts, Option.bind_eq_bind, Option.bind_some, hvalue]

/-! ## Parts between commas -/

def commaTokens (parts : List (List Tok)) : List Tok := [Tok.comma].intercalate parts

theorem commaTokens_singleton (ts : List Tok) : commaTokens [ts] = ts :=
  List.intercalate_singleton

theorem commaTokens_cons_cons (ts us : List Tok) (parts : List (List Tok)) :
    commaTokens (ts :: us :: parts) = ts ++ .comma :: commaTokens (us :: parts) := by
  rw [commaTokens, List.intercalate_cons_cons, List.append_assoc]
  rfl

theorem exists_commaTokens_append (ts : List Tok) (parts : List (List Tok)) :
    ∃ later, commaTokens (ts :: parts) = ts ++ later := by
  cases parts with
  | nil => exact ⟨[], by rw [commaTokens_singleton, List.append_nil]⟩
  | cons us parts => exact ⟨_, commaTokens_cons_cons ts us parts⟩

/-! ## Arrays -/

def arrayTokens (parts : List (List Tok)) : List Tok :=
  .lbracket :: (commaTokens parts ++ [.rbracket])

theorem items?_commaTokens {ts : List Tok} {parts : List (List Tok)} {vs : List Json}
    (h : List.Forall₂ Parses (ts :: parts) vs) (depth : Nat)
    (hdepth : 2 * (commaTokens (ts :: parts)).length < depth) (rest : List Tok) :
    items? depth (commaTokens (ts :: parts) ++ .rbracket :: rest) = some (vs, rest) := by
  obtain ⟨depth, rfl⟩ : ∃ d, depth = d + 1 := ⟨depth - 1, by omega⟩
  induction parts generalizing ts vs depth with
  | nil =>
    obtain ⟨v, _, hv, hrest, rfl⟩ := List.forall₂_cons_left_iff.mp h
    cases hrest
    rw [commaTokens_singleton] at *
    rw [items?, hv depth (by omega)]
  | cons us parts ih =>
    obtain ⟨v, vs, hv, hrest, rfl⟩ := List.forall₂_cons_left_iff.mp h
    rw [commaTokens_cons_cons, List.length_append, List.length_cons] at hdepth
    obtain ⟨depth, rfl⟩ : ∃ d, depth = d + 1 := ⟨depth - 1, by omega⟩
    rw [commaTokens_cons_cons, List.append_assoc, List.cons_append, items?, hv _ (by omega)]
    show (items? (depth + 1) (commaTokens (us :: parts) ++ .rbracket :: rest)).map _ = _
    rw [ih hrest depth (by omega)]
    rfl

theorem parses_array {parts : List (List Tok)} {vs : List Json}
    (h : List.Forall₂ Parses parts vs) : Parses (arrayTokens parts) (.array vs) := by
  intro depth hdepth rest
  simp only [arrayTokens, List.length_cons, List.length_append, List.length_nil] at hdepth
  obtain ⟨depth, rfl⟩ : ∃ d, depth = d + 1 := ⟨depth - 1, by omega⟩
  rw [arrayTokens, List.cons_append, List.append_assoc, List.singleton_append]
  cases h with
  | nil => rfl
  | @cons ts v parts vs hv hparts =>
    have hitems := items?_commaTokens (.cons hv hparts) depth (by omega) rest
    -- The first item is no closing bracket, so items are read.
    obtain ⟨later, hlater⟩ := exists_commaTokens_append ts parts
    obtain ⟨t, first, rfl, hne⟩ := hv.head
    rw [hlater] at hitems ⊢
    rw [List.cons_append, List.cons_append] at hitems ⊢
    rw [value?, hitems]
    · rfl
    · intro _ e
      exact hne (List.cons.inj e).1

/-! ## Objects -/

def memberTokens (m : String × List Tok) : List Tok := .string (some m.1) :: .colon :: m.2

def objectTokens (members : List (String × List Tok)) : List Tok :=
  .lbrace :: (commaTokens (members.map memberTokens) ++ [.rbrace])

/-- A member that is read. -/
def ParsesMember (m : String × List Tok) (v : Option String × Json) : Prop :=
  v.1 = some m.1 ∧ Parses m.2 v.2

theorem members?_commaTokens {m : String × List Tok} {ms : List (String × List Tok)}
    {vs : List (Option String × Json)} (h : List.Forall₂ ParsesMember (m :: ms) vs) (depth : Nat)
    (hdepth : 2 * (commaTokens ((m :: ms).map memberTokens)).length < depth) (rest : List Tok) :
    members? depth (commaTokens ((m :: ms).map memberTokens) ++ .rbrace :: rest) =
      some (vs, rest) := by
  obtain ⟨depth, rfl⟩ : ∃ d, depth = d + 1 := ⟨depth - 1, by omega⟩
  induction ms generalizing m vs depth with
  | nil =>
    obtain ⟨⟨_, v⟩, _, ⟨rfl, hv⟩, hrest, rfl⟩ := List.forall₂_cons_left_iff.mp h
    cases hrest
    rw [List.map_singleton, commaTokens_singleton, memberTokens] at *
    rw [List.length_cons, List.length_cons] at hdepth
    rw [List.cons_append, List.cons_append, members?, hv depth (by omega)]
  | cons k ms ih =>
    obtain ⟨⟨_, v⟩, vs, ⟨rfl, hv⟩, hrest, rfl⟩ := List.forall₂_cons_left_iff.mp h
    rw [List.map_cons, List.map_cons, commaTokens_cons_cons, ← List.map_cons, memberTokens,
      List.length_append, List.length_cons, List.length_cons, List.length_cons] at hdepth
    obtain ⟨depth, rfl⟩ : ∃ d, depth = d + 1 := ⟨depth - 1, by omega⟩
    rw [List.map_cons, List.map_cons, commaTokens_cons_cons, ← List.map_cons, memberTokens,
      List.append_assoc, List.cons_append, List.cons_append, List.cons_append, members?,
      hv _ (by omega)]
    show (members? (depth + 1) (commaTokens ((k :: ms).map memberTokens) ++ .rbrace :: rest)).map _
      = _
    rw [ih hrest depth (by omega)]
    rfl

theorem parses_object {ms : List (String × List Tok)} {vs : List (Option String × Json)}
    (h : List.Forall₂ ParsesMember ms vs) : Parses (objectTokens ms) (.object vs) := by
  intro depth hdepth rest
  simp only [objectTokens, List.length_cons, List.length_append, List.length_nil] at hdepth
  obtain ⟨depth, rfl⟩ : ∃ d, depth = d + 1 := ⟨depth - 1, by omega⟩
  rw [objectTokens, List.cons_append, List.append_assoc, List.singleton_append]
  cases h with
  | nil => rfl
  | @cons m v ms vs hv hms =>
    have hmembers := members?_commaTokens (.cons hv hms) depth (by omega) rest
    obtain ⟨later, hlater⟩ := exists_commaTokens_append (memberTokens m) (ms.map memberTokens)
    rw [List.map_cons, hlater, memberTokens] at hmembers ⊢
    rw [List.cons_append, List.cons_append] at hmembers ⊢
    rw [value?, hmembers]
    · rfl
    · intro _ e
      cases (List.cons.inj e).1

end Json
end SsaGraph
