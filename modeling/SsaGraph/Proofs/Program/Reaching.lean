import Mathlib.Logic.Relation
import SsaGraph.Proofs.Program.Alongside

/-!
Definitions in the middle of a text.  A text that is read without a fault is read up to each of
its definitions (`ComesTo`), and what it yields is what was read up to there, the definition
itself and what is read behind it (`yields_of_comesTo`, `defines_of_comesTo`).
-/

namespace SsaGraph

/-- The state in which tokens are read. -/
def ReadState.start (ts : List (Located Token)) : ReadState := ⟨ts, [], default, .empty⟩

namespace Reader

/-- Reading goes from `s`, over the functions `fs`, to a definition that starts at `d`. -/
inductive ComesTo : ReadState → List Func → ReadState → Prop
  | here {d : ReadState} (hnext : (ahead d.rest).val = .word "define") : ComesTo d [] d
  | skip {s t d : ReadState} {fs : List Func} (h : Skips s t) (hrest : ComesTo t fs d) :
    ComesTo s fs d
  | define {s t d : ReadState} {f : Func} {fs : List Func}
    (hnext : (ahead s.rest).val = .word "define") (h : Defines s f t) (hrest : ComesTo t fs d) :
    ComesTo s (f :: fs) d

section
variable {s t u d : ReadState} {f g : Func} {fs gs : List Func}

theorem Skips.unique (h : Skips s t) (h' : Skips s u) : u = t := by
  have hround : textPart [] s = .ok (.again []) t := textPart_of_skips h
  rw [textPart_of_skips h'] at hround
  cases hround
  rfl

theorem Defines.unique (h : Defines s f t) (h' : Defines s g u) : g = f ∧ u = t := by
  have hsame := h.function.symm.trans h'.function
  cases hsame
  exact ⟨rfl, rfl⟩

theorem Skips.ahead_ne_define (h : Skips s t) : (ahead s.rest).val ≠ .word "define" := by
  intro hnext
  cases h with
  | blank h => cases h.symm.trans hnext
  | line h =>
    rw [hnext] at h
    cases h

/-- The definition is read, and what stands behind it. -/
theorem yields_of_comesTo (h : ComesTo s fs d) (hd : Defines d f t) (ht : Yields t gs) :
    Yields s (fs ++ f :: gs) := by
  induction h with
  | here hnext => exact .define hnext hd ht
  | skip h _ ih => exact .skip h (ih hd)
  | define hnext h _ ih => exact .define hnext h (ih hd)

/-- In a text that is read, the definition is. -/
theorem defines_of_comesTo (h : ComesTo s fs d) (hs : Yields s gs) :
    ∃ f t hs, Defines d f t ∧ Yields t hs ∧ gs = fs ++ f :: hs := by
  induction h generalizing gs with
  | here hnext =>
    cases hs with
    | stop hend => cases hnext.symm.trans hend
    | skip h _ => exact absurd hnext h.ahead_ne_define
    | define _ h hrest => exact ⟨_, _, _, h, hrest, rfl⟩
  | skip h _ ih =>
    cases hs with
    | stop hend => exact absurd hend h.not_atEnd
    | skip h' hrest =>
      obtain rfl := h.unique h'
      exact ih hrest
    | define hnext _ _ => exact absurd hnext h.ahead_ne_define
  | define hnext h _ ih =>
    cases hs with
    | stop hend => cases hnext.symm.trans hend
    | skip h' _ => exact absurd hnext h'.ahead_ne_define
    | define _ h' hrest =>
      obtain ⟨rfl, rfl⟩ := h.unique h'
      obtain ⟨f', t', hs, hd, ht, rfl⟩ := ih hrest
      exact ⟨f', t', hs, hd, ht, rfl⟩

theorem ComesTo.onward (h : ComesTo s fs d) : Onward s.rest d.rest := by
  induction h with
  | here _ => exact .refl _
  | skip h _ ih => exact h.onward.1.trans ih
  | define _ h _ ih => exact h.onward.1.trans ih

/-! ## Inside a body -/

theorem Passes.unique (h : Passes s t) (h' : Passes s u) : u = t := by
  have hround := bodyPart_of_passes h
  rw [bodyPart_of_passes h'] at hround
  cases hround
  rfl

/-- What is left of a body behind a part of it. -/
theorem Lines.behind_part (h : Passes s t) (hlines : Lines s u) : Lines t u := by
  cases hlines with
  | close hclose =>
    have hround := bodyPart_of_passes h
    rw [bodyPart_of_rbrace hclose] at hround
    cases hround
  | pass h' hrest =>
    rw [h.unique h'] at hrest
    exact hrest

theorem Lines.behind_parts (h : Relation.ReflTransGen Passes s t) (hlines : Lines s u) : Lines t u := by
  induction h with
  | refl => exact hlines
  | tail _ h ih => exact ih.behind_part h

theorem Lines.of_parts (h : Relation.ReflTransGen Passes s t) (hlines : Lines t u) : Lines s u := by
  induction h using Relation.ReflTransGen.head_induction_on with
  | refl => exact hlines
  | head h _ ih => exact .pass h ih

theorem onward_of_parts (h : Relation.ReflTransGen Passes s t) : Onward s.rest t.rest := by
  induction h with
  | refl => exact .refl _
  | tail _ h ih => exact ih.trans h.onward.1

/-! ## The same way in another run -/

section
variable {c : Seam} {s' : ReadState} {y : List (Located Token)}

theorem parts_beside (h : Relation.ReflTransGen Passes s t) (hs : Beside c True s s')
    (hy : t.rest = y ++ c.tail) (hopen : ¬Closes c.tail) :
    ∃ t', Relation.ReflTransGen Passes s' t' ∧ Beside c True t t' := by
  induction h using Relation.ReflTransGen.head_induction_on generalizing s' with
  | refl => exact ⟨s', .refl, hs⟩
  | head h hrest ih =>
    obtain ⟨passed, hz⟩ := (onward_of_parts hrest).split hy
    obtain ⟨u', hu', hu⟩ := h.beside hs hz fun _ => .inr hopen
    obtain ⟨t', ht', ht⟩ := ih hu
    exact ⟨t', .head hu' ht', ht⟩

theorem define_beside {x : List (Located Token)} (hs : Beside c False s s') (hx : s.rest = x ++ c.tail)
    (hne : x ≠ []) (hnext : (ahead s.rest).val = .word "define") :
    (ahead s'.rest).val = .word "define" := by
  obtain ⟨x', hx', hsame⟩ := hs.split hx
  rw [hx', hsame.ahead_val (.inl hne), ← hx, hnext]

theorem ComesTo.beside (h : ComesTo s fs d) (hs : Beside c False s s') (hy : d.rest = y ++ c.tail)
    (hne : y ≠ []) (hopen : ¬Closes c.tail) :
    ∃ fs' d', ComesTo s' fs' d' ∧ List.Forall₂ (Func.Matches c.place) fs fs' ∧ Beside c False d d' := by
  induction h generalizing s' with
  | here hdefine => exact ⟨[], s', .here (define_beside hs hy hne hdefine), .nil, hs⟩
  | skip h hrest ih =>
    obtain ⟨passed, hz⟩ := hrest.onward.split hy
    obtain ⟨t', ht', ht⟩ := h.beside hs hz fun _ => .inr (.inl hopen)
    obtain ⟨fs', d', hd', hfs, hd⟩ := ih ht hy
    exact ⟨fs', d', .skip ht' hd', hfs, hd⟩
  | define hdefine h hrest ih =>
    obtain ⟨passed, hz⟩ := hrest.onward.split hy
    obtain ⟨passed', hx⟩ := h.onward.1.split hz
    obtain ⟨f', t', ht', hf, ht⟩ := h.beside hs hz
    obtain ⟨fs', d', hd', hfs, hd⟩ := ih ht hy
    have hfront := List.append_ne_nil_of_right_ne_nil passed'
      (List.append_ne_nil_of_right_ne_nil passed hne)
    exact ⟨f' :: fs', d', .define (define_beside hs hx hfront hdefine) ht' hd', .cons hf hfs, hd⟩

end

end
end Reader
end SsaGraph
