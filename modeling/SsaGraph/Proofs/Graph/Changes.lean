import SsaGraph.Graph.Document
import SsaGraph.Proofs.Lists

/-!
How graphs come about.  A graph is filled by one change after another, or it is read
from a document; either way all its numbers are 64-bit words (`Built.inWords`).
-/

namespace SsaGraph
namespace Graph

/-- Every number that a graph is given is a 64-bit word. -/
structure InWords (g : Graph) : Prop where
  dynamics : g.dynamics < 1 <<< 64
  independents : g.independents < 1 <<< 64
  args : ∀ a ∈ g.args.toList, a < 1 <<< 64
  dependents : ∀ n ∈ g.dependents.toList, n < 1 <<< 64

/-! ## Changes -/

/-- What can be done to a graph from outside. -/
inductive Change where
  | clear
  | name (s : String)
  | dynamics (n : UInt64)
  | independents (n : UInt64)
  | constant (x : Binary64)
  | operator (op : Op)
  | argument (a : UInt64)
  | atomicName (s : String)
  | discreteName (s : String)
  | dependent (n : UInt64)

/-- The graph after a change.  An argument without an operator is kept, too. -/
def Change.apply (g : Graph) : Change → Graph
  | clear => empty
  | name s => { g with name := s }
  | dynamics n => { g with dynamics := n.toNat }
  | independents n => { g with independents := n.toNat }
  | constant x => g.pushConstant x
  | operator op => g.pushTag op
  | argument a => g.pushArg a.toNat
  | atomicName s => g.pushAtomicName s
  | discreteName s => g.pushDiscreteName s
  | dependent n => g.pushDependent n.toNat

/-- Graphs that are filled by changes or read from a document. -/
inductive Built : Graph → Prop where
  | empty : Built empty
  | change {g : Graph} (h : Built g) (c : Change) : Built (c.apply g)
  | read {text : String} {g : Graph} (h : ofDocument text = .ok g) : Built g

theorem inWords_empty : empty.InWords where
  dynamics := by decide
  independents := by decide
  args := by simp [empty]
  dependents := by simp [empty]

theorem InWords.change {g : Graph} (h : g.InWords) (c : Change) : (c.apply g).InWords := by
  have hword : ∀ n : UInt64, n.toNat < 1 <<< 64 := UInt64.toNat_lt
  cases c with
  | clear => exact inWords_empty
  | dynamics n => exact { h with dynamics := hword n }
  | independents n => exact { h with independents := hword n }
  | argument a =>
    refine { h with args := fun b hb => ?_ }
    have hb : b ∈ g.args.toList ++ [a.toNat] := by simpa [Change.apply, pushArg] using hb
    rcases List.mem_append.mp hb with hb | hb
    · exact h.args b hb
    · rw [List.mem_singleton.mp hb]
      exact hword a
  | dependent n =>
    refine { h with dependents := fun m hm => ?_ }
    have hm : m ∈ g.dependents.toList ++ [n.toNat] := by
      simpa [Change.apply, pushDependent] using hm
    rcases List.mem_append.mp hm with hm | hm
    · exact h.dependents m hm
    · rw [List.mem_singleton.mp hm]
      exact hword n
  | name s | constant x | operator op | atomicName s | discreteName s => exact { h with }

/-! ## Documents -/

theorem count?_lt {v : Json} {n : Nat} (h : Json.count? v = some n) : n < 1 <<< 64 := by
  cases v with
  | number m =>
    have h : m.count? = some n := h
    rw [Json.Numeral.count?] at h
    split at h
    · cases h
    · rw [Digits.natBelow?] at h
      split at h
      next hword =>
        cases h
        exact hword.2.2
      · cases h
  | null | bool b | string s | array vs | object ms => cases h

theorem array?_all {c : Codec} {α : Type} {read : c.Value → Option α} {p : α → Prop}
    (hp : ∀ {v a}, read v = some a → p a) {v : c.Value} {as : Array α}
    (h : c.array? read v = some as) : ∀ a ∈ as.toList, p a := by
  obtain ⟨vs, hlist, hvs⟩ := Option.bind_eq_some_iff.mp h
  obtain ⟨bs, hbs, rfl⟩ := Option.map_eq_some_iff.mp hvs
  show ∀ a ∈ bs, p a
  have hall : List.Forall₂ (fun _ b => p b) vs bs :=
    (mapM_eq_some_iff.mp hbs).imp fun _ _ hb => hp hb
  clear hlist hvs hbs h
  induction hall with
  | nil => simp
  | cons hb _ ih => exact List.forall_mem_cons.mpr ⟨hb, ih⟩

theorem inWords_of_ofFields? {c : Codec} (hc : ∀ {v n}, c.count? v = some n → n < 1 <<< 64)
    {vs : List c.Value} {g : Graph} (h : c.ofFields? vs = some g) : g.InWords := by
  unfold Codec.ofFields? at h
  split at h
  · simp only [Option.bind_eq_bind, Option.bind_eq_some_iff, Option.pure_def,
      Option.some.injEq] at h
    obtain ⟨name, _, dynamics, hdynamics, independents, hindependents, constants, _, tags, _,
      starts, _, args, hargs, atomicNames, _, discreteNames, _, dependents, hdependents, rfl⟩ := h
    exact ⟨hc hdynamics, hc hindependents, array?_all hc hargs, array?_all hc hdependents⟩
  · cases h

theorem Built.inWords {g : Graph} (h : Built g) : g.InWords := by
  induction h with
  | empty => exact inWords_empty
  | change _ c ih => exact ih.change c
  | read h =>
    obtain ⟨_, _, hg⟩ := Option.bind_eq_some_iff.mp (Codec.ofDocument_eq_ok_iff.mp h).1
    obtain ⟨_, _, hfields⟩ := Option.bind_eq_some_iff.mp hg
    exact inWords_of_ofFields? count?_lt hfields

end Graph
end SsaGraph
