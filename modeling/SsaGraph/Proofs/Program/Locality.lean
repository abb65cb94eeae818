import SsaGraph.Program.Operand
import SsaGraph.Proofs.Func.Arena
import SsaGraph.Proofs.Token.Joining

/-!
Readers look no further than they have to.  Two runs are compared whose tokens are the same
up to a seam, behind which each has tokens of its own (`Seam`, `Beside`).  A reader does the
same in both of them if it ends in front of the seam.  How far in front depends on the reader:
`Local sure plain d m` says that it is enough for `m`
- if the end of a line is left in front of the seam, or if nothing is behind it;
- if any token is left there, provided that `plain` holds or the tokens behind the seam start
  with the end of a line in both runs;
- in the latter case also if no token is left, provided that `sure` holds.
It says besides that `m` only moves on, that it does not pass the end of a line if `sure` holds,
and that it touches neither the instructions nor the faults that are there (`Onto`).
-/

namespace SsaGraph

/-! ## Functions at other places -/

/-- The same function, with its instructions at places that are related by `place`. -/
structure Func.Matches (place : Span → Span → Prop) (f f' : Func) : Prop where
  func : f' = { f with instructions := f'.instructions }
  instructions : List.Forall₂ (fun i i' => i' = { i with span := i'.span } ∧ place i.span i'.span)
    f.instructions.toList f'.instructions.toList

/-- The function without the places of its instructions. -/
def Func.unplaced (f : Func) : Func :=
  { f with instructions := f.instructions.map fun i => { i with span := .absent } }

theorem Func.Matches.unplaced_eq {place : Span → Span → Prop} {f g : Func} (h : f.Matches place g) :
    g.unplaced = f.unplaced := by
  have hinstructions : g.instructions.map (fun i => { i with span := .absent }) =
      f.instructions.map fun i => { i with span := .absent } := by
    rw [← Array.toList_inj, Array.toList_map, Array.toList_map, eq_comm, ← List.forall₂_eq_eq_eq,
      List.forall₂_map_left_iff, List.forall₂_map_right_iff]
    exact h.instructions.imp fun i j hij => by rw [hij.1]
  rw [unplaced, unplaced, hinstructions, h.func]

/-- The builder of the same function.  The place given to the next instruction is not
compared. -/
structure Builder.Matches (place : Span → Span → Prop) (b b' : Builder) : Prop where
  func : b.func.Matches place b'.func
  symbols : b'.symbols = b.symbols
  labels : b'.labels = b.labels

namespace Reader

/-! ## Moving on -/

/-- The tokens `us` are left of `ts` behind others, none of them an end marker. -/
def Onward (ts us : List (Located Token)) : Prop :=
  ∃ passed, ts = passed ++ us ∧ ∀ t ∈ passed, t.val ≠ .eof

def AtEnd (ts : List (Located Token)) : Prop := (ahead ts).val = .eof

theorem Onward.refl (ts : List (Located Token)) : Onward ts ts :=
  ⟨[], rfl, fun _ h => nomatch h⟩

theorem Onward.trans {ts us vs : List (Located Token)} (h : Onward ts us) (h' : Onward us vs) :
    Onward ts vs := by
  obtain ⟨passed, rfl, hpassed⟩ := h
  obtain ⟨passed', rfl, hpassed'⟩ := h'
  exact ⟨passed ++ passed', (List.append_assoc ..).symm, List.forall_mem_append.mpr ⟨hpassed, hpassed'⟩⟩

theorem Onward.cons {t : Located Token} (ht : t.val ≠ .eof) {ts us : List (Located Token)}
    (h : Onward ts us) : Onward (t :: ts) us := by
  obtain ⟨passed, rfl, hpassed⟩ := h
  exact ⟨t :: passed, rfl, List.forall_mem_cons.mpr ⟨ht, hpassed⟩⟩

theorem Onward.length_le {ts us : List (Located Token)} (h : Onward ts us) :
    us.length ≤ ts.length := by
  obtain ⟨passed, rfl, _⟩ := h
  rw [List.length_append]
  omega

theorem Onward.eq_of_length {ts us : List (Located Token)} (h : Onward ts us)
    (hle : ts.length ≤ us.length) : us = ts := by
  obtain ⟨passed, rfl, _⟩ := h
  rw [List.length_append] at hle
  rw [List.eq_nil_of_length_eq_zero (show passed.length = 0 by omega), List.nil_append]

theorem onward_behind (ts : List (Located Token)) : Onward ts (behind ts) := by
  cases ts with
  | nil => exact .refl _
  | cons t ts =>
    rw [behind]
    split
    · exact .refl _
    next ht => exact (Onward.refl ts).cons ht

theorem length_behind {ts : List (Located Token)} (h : ¬AtEnd ts) :
    (behind ts).length < ts.length := by
  cases ts with
  | nil => exact absurd rfl h
  | cons t ts =>
    have ht : t.val ≠ .eof := h
    rw [behind, if_neg ht]
    exact Nat.lt_succ_self _

theorem cons_behind {ts : List (Located Token)} (h : ¬AtEnd ts) : ts = ahead ts :: behind ts := by
  cases ts with
  | nil => exact absurd rfl h
  | cons t ts =>
    have ht : t.val ≠ .eof := h
    rw [behind, if_neg ht]
    rfl

theorem onward_dropWhile {p : Located Token → Bool} (hp : ∀ t, t.val = .eof → p t = false)
    (ts : List (Located Token)) : Onward ts (ts.dropWhile p) := by
  induction ts with
  | nil => exact .refl _
  | cons t ts ih =>
    rw [List.dropWhile_cons]
    split
    next ht =>
      refine ih.cons fun he => ?_
      rw [hp t he] at ht
      cases ht
    · exact .refl _

theorem onward_behindGroup (opening closing : Token) (depth : Nat) (ts : List (Located Token)) :
    Onward ts (behindGroup opening closing depth ts) := by
  fun_induction behindGroup opening closing depth ts with
  | case1 => exact .refl _
  | case2 => exact .refl _
  | case3 depth t ts ht _ ih => exact ih.cons ht
  | case4 depth t ts ht _ _ => exact (Onward.refl ts).cons ht
  | case5 depth t ts ht _ _ _ ih => exact ih.cons ht
  | case6 depth t ts ht _ _ ih => exact ih.cons ht

/-- The tokens `us` are left of `ts` on the same line. -/
def OnLine (ts us : List (Located Token)) : Prop :=
  ∃ passed, ts = passed ++ us ∧ ∀ t ∈ passed, t.val.endsLine = false

theorem OnLine.refl (ts : List (Located Token)) : OnLine ts ts :=
  ⟨[], rfl, fun _ h => nomatch h⟩

theorem OnLine.trans {ts us vs : List (Located Token)} (h : OnLine ts us) (h' : OnLine us vs) :
    OnLine ts vs := by
  obtain ⟨passed, rfl, hpassed⟩ := h
  obtain ⟨passed', rfl, hpassed'⟩ := h'
  exact ⟨passed ++ passed', (List.append_assoc ..).symm, List.forall_mem_append.mpr ⟨hpassed, hpassed'⟩⟩

theorem onLine_behind {ts : List (Located Token)} (h : (ahead ts).val.endsLine = false) :
    OnLine ts (behind ts) := by
  cases ts with
  | nil => exact .refl _
  | cons t ts =>
    have ht : t.val ≠ .eof := fun he => by
      rw [show (ahead (t :: ts)).val = .eof from he] at h
      cases h
    rw [behind, if_neg ht]
    exact ⟨[t], rfl, fun u hu => List.mem_singleton.mp hu ▸ h⟩

theorem onLine_dropWhile {p : Located Token → Bool} (hp : ∀ t, t.val.endsLine = true → p t = false)
    (ts : List (Located Token)) : OnLine ts (ts.dropWhile p) := by
  refine ⟨ts.takeWhile p, (List.takeWhile_append_dropWhile ..).symm, fun t ht => ?_⟩
  by_contra hline
  have htake := List.all_eq_true.mp (List.all_takeWhile (p := p) (l := ts)) t ht
  rw [hp t (Bool.not_eq_false _ ▸ hline)] at htake
  cases htake

/-- The state `t` is behind `s`, with the same faults and the same instructions, and perhaps with
more values. -/
structure Onto (s t : ReadState) : Prop where
  rest : Onward s.rest t.rest
  faults : t.faults = s.faults
  instructions : t.builder.func.instructions = s.builder.func.instructions
  span : t.builder.span = s.builder.span
  args : t.builder.func.args = s.builder.func.args
  values : s.builder.func.Extends t.builder.func

theorem Onto.refl (s : ReadState) : Onto s s := ⟨.refl _, rfl, rfl, rfl, rfl, .refl _⟩

theorem Onto.trans {s t u : ReadState} (h : Onto s t) (h' : Onto t u) : Onto s u :=
  ⟨h.rest.trans h'.rest, h'.faults.trans h.faults, h'.instructions.trans h.instructions,
    h'.span.trans h.span, h'.args.trans h.args, h.values.trans h'.values⟩

theorem onto_of_onward {s : ReadState} {us : List (Located Token)} (h : Onward s.rest us) :
    Onto s { s with rest := us } := ⟨h, rfl, rfl, rfl, rfl, .refl _⟩

/-! ## Two runs -/

/-- The tokens start with the end of a line. -/
def Closes (tail : List (Located Token)) : Prop := ∃ t ts, tail = t :: ts ∧ t.val.endsLine = true

/-- The token does not matter to a reader that looks two tokens ahead. -/
def inert : Token → Bool
  | .equals | .colon | .metadata _ => false
  | _ => true

theorem inert_of_endsLine {t : Token} (h : t.endsLine = true) : inert t = true := by
  cases t <;> first | rfl | cases h

/-- Where two runs part.  In front of the seam they have the same tokens, at places that are
related by `place`.  Behind it they have `tail` and `tail'`. -/
structure Seam where
  place : Span → Span → Prop
  merge : ∀ {a a' b b'}, place a a' → place b b' → place (a.merge b) (a'.merge b')
  tail : List (Located Token)
  tail' : List (Located Token)
  ending : tail = [] ∧ tail' = [] ∨ ∃ b bs b' bs', tail = b :: bs ∧ tail' = b' :: bs' ∧
    inert b.val = true ∧ inert b'.val = true

namespace Seam

/-- The same tokens, at related places. -/
def Same (c : Seam) : List (Located Token) → List (Located Token) → Prop :=
  List.Forall₂ fun t t' => t'.val = t.val ∧ c.place t.span t'.span

/-- Nothing is behind the seam. -/
def whole (place : Span → Span → Prop)
    (merge : ∀ {a a' b b'}, place a a' → place b b' → place (a.merge b) (a'.merge b')) : Seam :=
  ⟨place, merge, [], [], .inl ⟨rfl, rfl⟩⟩

/-- The same tokens to the end, wherever they are. -/
def anywhere : Seam := whole (fun _ _ => True) fun _ _ => trivial

/-- The seam is at the end of a line in both runs. -/
def Closed (c : Seam) : Prop := Closes c.tail ∧ Closes c.tail'

/-- The tokens `y` that are left in front of the seam are enough to know what was read. -/
def Shows (c : Seam) (sure plain : Prop) (y : List (Located Token)) : Prop :=
  c.tail = [] ∨ (∃ t ∈ y, t.val.endsLine = true) ∨ y ≠ [] ∧ (plain ∨ c.Closed) ∨ sure ∧ c.Closed

variable {c : Seam} {sure plain : Prop} {x x' y : List (Located Token)}

theorem tail'_eq_nil (h : c.tail = []) : c.tail' = [] := by
  rcases c.ending with ⟨_, h'⟩ | ⟨b, bs, _, _, hb, _⟩
  · exact h'
  · rw [h] at hb
    cases hb

theorem Shows.prepend (h : c.Shows sure plain y) (x : List (Located Token)) :
    c.Shows sure plain (x ++ y) := by
  rcases h with h | ⟨t, ht, hline⟩ | ⟨hne, h⟩ | h
  · exact .inl h
  · exact .inr (.inl ⟨t, List.mem_append_right x ht, hline⟩)
  · exact .inr (.inr (.inl ⟨List.append_ne_nil_of_right_ne_nil x hne, h⟩))
  · exact .inr (.inr (.inr h))

/-- The end of a line is left in front of the seam, or nothing is behind it. -/
def Rests (c : Seam) (y : List (Located Token)) : Prop :=
  c.tail = [] ∨ ∃ t ∈ y, t.val.endsLine = true

theorem Rests.prepend (h : c.Rests y) (x : List (Located Token)) : c.Rests (x ++ y) :=
  h.imp_right fun ⟨t, ht, hline⟩ => ⟨t, List.mem_append_right x ht, hline⟩

theorem Rests.shows (h : c.Rests y) : c.Shows sure plain y := h.imp_right .inl

theorem Shows.imp {sure' : Prop} (h : c.Shows sure plain y) (hsure : sure → sure') :
    c.Shows sure' plain y :=
  Or.imp_right (Or.imp_right (Or.imp_right (And.imp_left hsure))) h

/-- Behind the last token in front of the seam nothing is read, unless `sure` holds. -/
theorem Shows.of_nil (h : c.Shows sure plain []) : c.tail = [] ∨ sure ∧ c.Closed := by
  rcases h with h | ⟨t, ht, _⟩ | ⟨hne, _⟩ | h
  · exact .inl h
  · cases ht
  · exact absurd rfl hne
  · exact .inr h

end Seam

/-- The states `s` and `s'` have the same tokens up to a seam.  If `d` holds, the function under
construction and the names are the same too. -/
structure Beside (c : Seam) (d : Prop) (s s' : ReadState) : Prop where
  rest : ∃ x x', s.rest = x ++ c.tail ∧ s'.rest = x' ++ c.tail' ∧ c.Same x x'
  builder : d → s.builder.Matches c.place s'.builder
  locals : d → s'.locals = s.locals

section
variable {c : Seam} {sure plain d : Prop} {x x' y : List (Located Token)} {s s' : ReadState}

/-- The tokens in front of the seam, in the other run. -/
theorem Beside.split (h : Beside c d s s') (hy : s.rest = y ++ c.tail) :
    ∃ y', s'.rest = y' ++ c.tail' ∧ c.Same y y' := by
  obtain ⟨x, x', hx, hx', hsame⟩ := h.rest
  rw [hy] at hx
  rw [List.append_cancel_right hx]
  exact ⟨x', hx', hsame⟩

/-- The state behind, in both runs. -/
theorem Beside.moveOn (h : Beside c d s s') {us us' : List (Located Token)}
    (hrest : ∃ x x', us = x ++ c.tail ∧ us' = x' ++ c.tail' ∧ c.Same x x') :
    Beside c d { s with rest := us } { s' with rest := us' } := ⟨hrest, h.builder, h.locals⟩

theorem Seam.Same.length_eq (h : c.Same x x') : x.length = x'.length := List.Forall₂.length_eq h

/-- Both runs pass the same number of tokens. -/
theorem Beside.length_lt_iff {t t' : ReadState} (hs : Beside c d s s') (ht : Beside c d t t') :
    t'.rest.length < s'.rest.length ↔ t.rest.length < s.rest.length := by
  obtain ⟨x, x', hx, hx', hsame⟩ := hs.rest
  obtain ⟨y, y', hy, hy', hsame'⟩ := ht.rest
  rw [hx, hx', hy, hy', List.length_append, List.length_append, List.length_append,
    List.length_append, hsame.length_eq, hsame'.length_eq]
  omega

/-- The next token is the same in both runs. -/
theorem Seam.Same.ahead_val (h : c.Same x x') (hx : x ≠ [] ∨ c.tail = []) :
    (ahead (x' ++ c.tail')).val = (ahead (x ++ c.tail)).val := by
  cases h with
  | nil =>
    have htail := hx.resolve_left fun h => h rfl
    rw [htail, c.tail'_eq_nil htail]
  | cons ht _ => exact ht.1

/-- The token behind the next one is the same, or neither matters. -/
theorem Seam.Same.afterNext (h : c.Same x x') (hx : x ≠ [] ∨ c.tail = []) :
    afterNext (x' ++ c.tail') = afterNext (x ++ c.tail) ∨
      inert (afterNext (x ++ c.tail)) = true ∧ inert (afterNext (x' ++ c.tail')) = true := by
  cases h with
  | nil =>
    have htail := hx.resolve_left fun h => h rfl
    rw [htail, c.tail'_eq_nil htail]
    exact .inl rfl
  | @cons t t' _ _ ht hrest =>
    cases hrest with
    | cons hu _ => exact .inl hu.1
    | nil =>
      rcases c.ending with ⟨htail, htail'⟩ | ⟨b, bs, b', bs', hb, hb', hinert, hinert'⟩
      · rw [htail, htail']
        exact .inl ht.1
      · rw [hb, hb']
        exact .inr ⟨hinert, hinert'⟩

theorem Seam.Shows.ne_nil_or (h : c.Shows False plain y) : y ≠ [] ∨ c.tail = [] := by
  cases y with
  | nil => exact .inr (h.of_nil.resolve_right fun h => h.1)
  | cons t y => exact .inl (List.cons_ne_nil t y)

theorem Seam.same_anywhere : Seam.anywhere.Same x x' ↔ x'.map (·.val) = x.map (·.val) := by
  rw [eq_comm, ← List.forall₂_eq_eq_eq, List.forall₂_map_left_iff, List.forall₂_map_right_iff]
  constructor
  · exact List.Forall₂.imp fun _ _ h => h.1.symm
  · exact List.Forall₂.imp fun _ _ h => ⟨h.symm, trivial⟩

/-- Two runs over the same tokens. -/
theorem beside_anywhere (hrest : s'.rest.map (·.val) = s.rest.map (·.val)) :
    Beside .anywhere False s s' :=
  ⟨⟨_, _, (List.append_nil _).symm, (List.append_nil _).symm, Seam.same_anywhere.mpr hrest⟩,
    False.elim, False.elim⟩

/-! ### Passing tokens -/

/-- A way to pass tokens that does the same in both runs. -/
def Together (sure plain : Prop) (f : List (Located Token) → List (Located Token)) : Prop :=
  ∀ {c : Seam} {x x' y : List (Located Token)}, c.Same x x' → f (x ++ c.tail) = y ++ c.tail →
    c.Shows sure plain y → ∃ y', f (x' ++ c.tail') = y' ++ c.tail' ∧ c.Same y y'

theorem eq_nil_of_suffix {us : List (Located Token)} (hlength : us.length ≤ c.tail.length)
    (h : us = y ++ c.tail) : y = [] := by
  rw [h, List.length_append] at hlength
  exact List.eq_nil_of_length_eq_zero (by omega)

theorem together_behind : Together False plain behind := by
  intro c x x' y hsame hy hshows
  cases hsame with
  | nil =>
    obtain rfl := eq_nil_of_suffix (onward_behind c.tail).length_le hy
    have htail := hshows.of_nil.resolve_right fun h => h.1
    refine ⟨[], ?_, .nil⟩
    rw [List.nil_append, c.tail'_eq_nil htail]
    rfl
  | @cons t t' x x' ht hrest =>
    rw [List.cons_append, behind] at hy ⊢
    rw [ht.1]
    by_cases he : t.val = .eof
    · rw [if_pos he] at hy ⊢
      rw [← List.cons_append] at hy
      rw [← List.append_cancel_right hy]
      exact ⟨t' :: x', rfl, .cons ht hrest⟩
    · rw [if_neg he] at hy ⊢
      rw [← List.append_cancel_right hy]
      exact ⟨x', rfl, hrest⟩

theorem dropWhile_of_closes {p : Token → Bool} (hp : ∀ t, t.endsLine = true → p t = false)
    {ts : List (Located Token)} (h : Closes ts) : ts.dropWhile (fun t => p t.val) = ts := by
  obtain ⟨t, ts, rfl, ht⟩ := h
  exact List.dropWhile_cons_of_neg (by rw [hp t.val ht]; exact Bool.false_ne_true)

/-- What stops at the end of a line does so in both runs. -/
theorem together_dropWhile {p : Token → Bool} (hp : ∀ t, t.endsLine = true → p t = false) :
    Together sure plain (·.dropWhile fun t => p t.val) := by
  intro c x x' y hsame hy hshows
  induction hsame with
  | nil =>
    have hon := onward_dropWhile (p := fun t => p t.val) (fun t ht => hp t.val (by rw [ht]; rfl)) c.tail
    obtain rfl := eq_nil_of_suffix hon.length_le hy
    refine ⟨[], ?_, .nil⟩
    rcases hshows.of_nil with htail | ⟨_, hcloses⟩
    · rw [List.nil_append, c.tail'_eq_nil htail]
      rfl
    · exact dropWhile_of_closes hp hcloses.2
  | @cons t t' x x' ht hrest ih =>
    simp only [List.cons_append, List.dropWhile_cons] at hy ⊢
    rw [ht.1]
    cases hpt : p t.val with
    | true =>
      rw [hpt, if_pos rfl] at hy
      exact ih hy
    | false =>
      rw [hpt, if_neg Bool.false_ne_true, ← List.cons_append] at hy
      rw [← List.append_cancel_right hy]
      exact ⟨t' :: x', rfl, .cons ht hrest⟩

/-- A group that is closed in front of the seam is closed in both runs.  If the end of the group
is at the seam, the tokens behind it must not go on with it. -/
theorem Seam.Same.behindGroup {opening closing : Token} (depth : Nat) (hsame : c.Same x x')
    (hy : behindGroup opening closing depth (x ++ c.tail) = y ++ c.tail)
    (hstop : y = [] → ∀ depth, behindGroup opening closing depth c.tail = c.tail →
      behindGroup opening closing depth c.tail' = c.tail') :
    ∃ y', behindGroup opening closing depth (x' ++ c.tail') = y' ++ c.tail' ∧ c.Same y y' := by
  induction hsame generalizing depth with
  | nil =>
    obtain rfl := eq_nil_of_suffix (onward_behindGroup opening closing depth c.tail).length_le hy
    exact ⟨[], hstop rfl depth hy, .nil⟩
  | @cons t t' x x' ht hrest ih =>
    rw [List.cons_append, Reader.behindGroup] at hy ⊢
    rw [ht.1]
    by_cases he : t.val = .eof
    · rw [if_pos he] at hy ⊢
      rw [← List.cons_append] at hy
      rw [← List.append_cancel_right hy]
      exact ⟨t' :: x', rfl, .cons ht hrest⟩
    · rw [if_neg he] at hy ⊢
      split at hy
      next hopen =>
        rw [if_pos hopen]
        exact ih _ hy
      next hopen =>
        rw [if_neg hopen]
        split at hy
        next hclose =>
          rw [if_pos hclose]
          split at hy
          next hdepth =>
            rw [if_pos hdepth, ← List.append_cancel_right hy]
            exact ⟨x', rfl, hrest⟩
          next hdepth =>
            rw [if_neg hdepth]
            exact ih _ hy
        next hclose =>
          rw [if_neg hclose]
          exact ih _ hy

theorem together_behindGroup (opening closing : Token) (depth : Nat) :
    Together False plain (behindGroup opening closing depth) := by
  intro c x x' y hsame hy hshows
  refine hsame.behindGroup depth hy fun hnil depth _ => ?_
  subst hnil
  have htail := hshows.of_nil.resolve_right fun h => h.1
  rw [c.tail'_eq_nil htail]
  rfl

end

/-! ## Local readers -/

def endState {α : Type} : EStateM.Result (Located SyntaxError) ReadState α → ReadState
  | .ok _ t => t
  | .error _ t => t

/-- The same outcome in both runs.  A fault may be worded differently. -/
inductive Agree (c : Seam) (d : Prop) {α : Type} :
    EStateM.Result (Located SyntaxError) ReadState α →
    EStateM.Result (Located SyntaxError) ReadState α → Prop
  | ok {a : α} {t t' : ReadState} (h : Beside c d t t') : Agree c d (.ok a t) (.ok a t')
  | error {e e' : Located SyntaxError} {t t' : ReadState} (h : Beside c d t t') :
    Agree c d (.error e t) (.error e' t')

/-- The same outcome from the same state, up to the wording of a fault. -/
inductive Worded {α : Type} : EStateM.Result (Located SyntaxError) ReadState α →
    EStateM.Result (Located SyntaxError) ReadState α → Prop
  | ok (a : α) (t : ReadState) : Worded (.ok a t) (.ok a t)
  | error (e e' : Located SyntaxError) (t : ReadState) : Worded (.error e t) (.error e' t)

theorem Worded.refl {α : Type} (r : EStateM.Result (Located SyntaxError) ReadState α) :
    Worded r r := by
  cases r with
  | ok a t => exact .ok a t
  | error e t => exact .error e e t

theorem Agree.worded {α : Type} {c : Seam} {d : Prop}
    {r r' r'' : EStateM.Result (Located SyntaxError) ReadState α} (h : Agree c d r r')
    (h' : Worded r' r'') : Agree c d r r'' := by
  cases h' with
  | ok a t => exact h
  | error e e' t =>
    cases h with
    | error h => exact .error h

structure LocalAt (sure plain d : Prop) {α : Type} (m : Reader α) (s : ReadState) : Prop where
  onto : Onto s (endState (m s))
  onLine : sure → OnLine s.rest (endState (m s)).rest
  agree : ∀ {c s' y}, Beside c d s s' → (endState (m s)).rest = y ++ c.tail →
    c.Shows sure plain y → Agree c d (m s) (m s')

def Local (sure plain d : Prop) {α : Type} (m : Reader α) : Prop := ∀ s, LocalAt sure plain d m s

section
variable {α β : Type} {sure plain d : Prop} {s t : ReadState} {a : α} {m : Reader α}
  {k : α → Reader β}

theorem LocalAt.ok (h : LocalAt sure plain d m s) (hr : m s = .ok a t) :
    Onto s t ∧ (sure → OnLine s.rest t.rest) ∧ ∀ {c s' y}, Beside c d s s' →
      t.rest = y ++ c.tail → c.Shows sure plain y → ∃ t', m s' = .ok a t' ∧ Beside c d t t' := by
  obtain ⟨honto, honLine, hagree⟩ := h
  rw [hr] at honto honLine hagree
  refine ⟨honto, honLine, fun {_ s' _} hs hy hshows => ?_⟩
  have hagree := hagree hs hy hshows
  generalize m s' = r at hagree ⊢
  cases hagree with
  | ok ht => exact ⟨_, rfl, ht⟩

theorem LocalAt.error {e : Located SyntaxError} (h : LocalAt sure plain d m s)
    (hr : m s = .error e t) :
    Onto s t ∧ (sure → OnLine s.rest t.rest) ∧ ∀ {c s' y}, Beside c d s s' →
      t.rest = y ++ c.tail → c.Shows sure plain y →
        ∃ e' t', m s' = .error e' t' ∧ Beside c d t t' := by
  obtain ⟨honto, honLine, hagree⟩ := h
  rw [hr] at honto honLine hagree
  refine ⟨honto, honLine, fun {_ s' _} hs hy hshows => ?_⟩
  have hagree := hagree hs hy hshows
  generalize m s' = r at hagree ⊢
  cases hagree with
  | error ht => exact ⟨_, _, rfl, ht⟩

theorem LocalAt.of_ok (hr : m s = .ok a t) (honto : Onto s t) (honLine : sure → OnLine s.rest t.rest)
    (h : ∀ {c s' y}, Beside c d s s' → t.rest = y ++ c.tail → c.Shows sure plain y →
      ∃ t', m s' = .ok a t' ∧ Beside c d t t') : LocalAt sure plain d m s := by
  refine ⟨hr ▸ honto, hr ▸ honLine, fun {_ s' _} hs hy hshows => ?_⟩
  rw [hr] at hy ⊢
  obtain ⟨t', hr', ht⟩ := h hs hy hshows
  exact hr' ▸ .ok ht

theorem LocalAt.of_error {e : Located SyntaxError} (hr : m s = .error e t) (honto : Onto s t)
    (honLine : sure → OnLine s.rest t.rest)
    (h : ∀ {c s' y}, Beside c d s s' → t.rest = y ++ c.tail → c.Shows sure plain y →
      ∃ e' t', m s' = .error e' t' ∧ Beside c d t t') : LocalAt sure plain d m s := by
  refine ⟨hr ▸ honto, hr ▸ honLine, fun {_ s' _} hs hy hshows => ?_⟩
  rw [hr] at hy ⊢
  obtain ⟨e', t', hr', ht⟩ := h hs hy hshows
  exact hr' ▸ .error ht

/-- What is left behind a further step is left behind the first one, with more tokens. -/
theorem Onto.shows {u : ReadState} (h : Onto t u) {c : Seam} {y : List (Located Token)}
    (hy : u.rest = y ++ c.tail) (hshows : c.Shows sure plain y) :
    ∃ z, t.rest = z ++ c.tail ∧ c.Shows sure plain z := by
  obtain ⟨passed, hpassed, _⟩ := h.rest
  refine ⟨passed ++ y, ?_, hshows.prepend passed⟩
  rw [hpassed, hy, List.append_assoc]

/-! ### Sequences -/

theorem Local.pure (a : α) : Local sure plain d (pure a : Reader α) :=
  fun s => ⟨.refl s, fun _ => .refl _, fun h _ _ => .ok h⟩

theorem LocalAt.bind (hm : LocalAt sure plain d m s)
    (hk : ∀ a t, m s = .ok a t → LocalAt sure plain d (k a) t) :
    LocalAt sure plain d (m >>= k) s := by
  cases hr : m s with
  | ok a t =>
    obtain ⟨honto, honLine, hfollow⟩ := hm.ok hr
    have hbehind := hk a t hr
    refine ⟨bind_of_ok hr ▸ honto.trans hbehind.onto,
      fun hsure => bind_of_ok hr ▸ (honLine hsure).trans (hbehind.onLine hsure),
      fun hs hy hshows => ?_⟩
    rw [bind_of_ok hr] at hy ⊢
    obtain ⟨z, hz, hshows'⟩ := hbehind.onto.shows hy hshows
    obtain ⟨t', hr', ht⟩ := hfollow hs hz hshows'
    rw [bind_of_ok hr']
    exact hbehind.agree ht hy hshows
  | error e t =>
    obtain ⟨honto, honLine, hfollow⟩ := hm.error hr
    refine .of_error (bind_of_error hr) honto honLine fun hs hy hshows => ?_
    obtain ⟨e', t', hr', ht⟩ := hfollow hs hy hshows
    exact ⟨e', t', bind_of_error hr', ht⟩

theorem Local.bind (hm : Local sure plain d m) (hk : ∀ a, Local sure plain d (k a)) :
    Local sure plain d (m >>= k) :=
  fun s => (hm s).bind fun a t _ => hk a t

theorem Local.ite {c : Prop} [Decidable c] {m' : Reader α} (hm : Local sure plain d m)
    (hm' : Local sure plain d m') : Local sure plain d (if c then m else m') := by
  split
  · exact hm
  · exact hm'

theorem Local.discard (hm : Local sure plain d m) : Local sure plain d (Functor.discard m) :=
  hm.bind fun _ => .pure _

theorem Local.foldlM {step : β → α → Reader β} (hstep : ∀ b a, Local sure plain d (step b a))
    (as : List α) (b : β) : Local sure plain d (as.foldlM step b) := by
  induction as generalizing b with
  | nil => exact .pure b
  | cons a rest ih =>
    rw [List.foldlM_cons]
    exact (hstep b a).bind ih

/-- What holds of every round holds of the repetition.  Both runs stop at the same round,
because they pass the same number of tokens in each. -/
theorem Local.iterate {step : α → Reader (Round α)} (hstep : ∀ a, Local sure plain d (step a))
    (a : α) : Local sure plain d (iterate step a) := by
  intro s
  induction a, s using Reader.iterate.induct step with
  | case1 a s b t hr =>
    obtain ⟨honto, honLine, hfollow⟩ := (hstep a s).ok hr
    refine .of_ok (iterate_of_done hr) honto honLine fun hs hy hshows => ?_
    obtain ⟨t', hr', ht⟩ := hfollow hs hy hshows
    exact ⟨t', iterate_of_done hr', ht⟩
  | case2 a s b t hr hless ih =>
    obtain ⟨honto, honLine, hfollow⟩ := (hstep a s).ok hr
    have hrun := iterate_of_again hr hless
    refine ⟨hrun ▸ honto.trans ih.onto, fun hsure => hrun ▸ (honLine hsure).trans (ih.onLine hsure),
      fun hs hy hshows => ?_⟩
    rw [hrun] at hy ⊢
    obtain ⟨z, hz, hshows'⟩ := ih.onto.shows hy hshows
    obtain ⟨t', hr', ht⟩ := hfollow hs hz hshows'
    rw [iterate_of_again hr' ((hs.length_lt_iff ht).mpr hless)]
    exact ih.agree ht hy hshows
  | case3 a s b t hr hless =>
    obtain ⟨honto, honLine, hfollow⟩ := (hstep a s).ok hr
    refine .of_ok (iterate_of_idle hr hless) honto honLine fun hs hy hshows => ?_
    obtain ⟨t', hr', ht⟩ := hfollow hs hy hshows
    exact ⟨t', iterate_of_idle hr' (mt (hs.length_lt_iff ht).mp hless), ht⟩
  | case4 a s e t hr =>
    obtain ⟨honto, honLine, hfollow⟩ := (hstep a s).error hr
    refine .of_error (iterate_of_error hr) honto honLine fun hs hy hshows => ?_
    obtain ⟨e', t', hr', ht⟩ := hfollow hs hy hshows
    exact ⟨e', t', iterate_of_error hr', ht⟩

theorem local_fail (e : SyntaxError) : Local sure plain d (fail e : Reader α) :=
  fun s => ⟨.refl s, fun _ => .refl _, fun h _ _ => .error h⟩

theorem local_throw (e : Located SyntaxError) : Local sure plain d (throw e : Reader α) :=
  fun s => ⟨.refl s, fun _ => .refl _, fun h _ _ => .error h⟩

/-- On a line that ends in front of the seam, or at it, nothing behind the seam is reached. -/
theorem OnLine.shows {ts us x : List (Located Token)} {c : Seam} (h : OnLine ts us)
    (hx : ts = x ++ c.tail) (hshows : c.Shows sure False x) :
    ∃ z, us = z ++ c.tail ∧ c.Shows True False z := by
  obtain ⟨passed, hpassed, hline⟩ := h
  rw [hx] at hpassed
  have hcases : c.tail = [] ∨ (∃ t ∈ x, t.val.endsLine = true) ∨ c.Closed := by
    rcases hshows with h | h | ⟨_, h⟩ | ⟨_, h⟩
    · exact .inl h
    · exact .inr (.inl h)
    · exact .inr (.inr (h.resolve_left id))
    · exact .inr (.inr h)
  have hpassed' : ∀ {t : Located Token}, t ∈ passed → t.val.endsLine ≠ true := fun ht =>
    (hline _ ht).symm ▸ Bool.false_ne_true
  rcases hcases with htail | hcases
  · exact ⟨us, by rw [htail, List.append_nil], .inl htail⟩
  rcases List.append_eq_append_iff.mp hpassed with ⟨z, rfl, hz⟩ | ⟨z, rfl, hz⟩
  · have hclosed := hcases.resolve_left fun ⟨t, ht, he⟩ => hpassed' (List.mem_append_left z ht) he
    cases z with
    | nil => exact ⟨[], hz.symm, .inr (.inr (.inr ⟨trivial, hclosed⟩))⟩
    | cons t z =>
      -- The end of the line behind the seam would have been passed.
      obtain ⟨b, bs, hb, he⟩ := hclosed.1
      cases hb.symm.trans hz
      exact absurd he (hpassed' (List.mem_append_right x List.mem_cons_self))
  · refine ⟨z, hz, ?_⟩
    rcases hcases with ⟨t, ht, he⟩ | hclosed
    · exact .inr (.inl ⟨t, (List.mem_append.mp ht).resolve_left fun h => hpassed' h he, he⟩)
    · exact .inr (.inr (.inr ⟨trivial, hclosed⟩))

/-- Going back behind a fault is safe if the fault shows on every line. -/
theorem local_attempt (hm : Local True False d m) : Local sure False d (attempt m) := by
  intro s
  cases hr : m s with
  | ok a t =>
    obtain ⟨honto, honLine, hfollow⟩ := (hm s).ok hr
    refine .of_ok (by rw [attempt, hr]) honto (fun _ => honLine trivial) fun hs hy hshows => ?_
    obtain ⟨t', hr', ht⟩ := hfollow hs hy (hshows.imp fun _ => trivial)
    exact ⟨t', by rw [attempt, hr'], ht⟩
  | error e t =>
    obtain ⟨honto, honLine, hfollow⟩ := (hm s).error hr
    have hrun : attempt m s = .ok none { t with rest := s.rest } := by rw [attempt, hr]
    refine .of_ok hrun ⟨.refl _, honto.faults, honto.instructions, honto.span, honto.args,
      honto.values⟩ (fun _ => .refl _) fun {_ s' _} hs hy hshows => ?_
    obtain ⟨z, hz, hshows'⟩ := (honLine trivial).shows hy hshows
    obtain ⟨e', t', hr', ht⟩ := hfollow hs hz hshows'
    exact ⟨{ t' with rest := s'.rest }, by rw [attempt, hr'], hs.rest, ht.builder, ht.locals⟩

theorem local_tolerate (hm : Local sure plain d m) : Local sure plain d (tolerate m) := by
  intro s
  cases hr : m s with
  | ok a t =>
    obtain ⟨honto, honLine, hfollow⟩ := (hm s).ok hr
    refine .of_ok (by rw [tolerate, hr]) honto honLine fun hs hy hshows => ?_
    obtain ⟨t', hr', ht⟩ := hfollow hs hy hshows
    exact ⟨t', by rw [tolerate, hr'], ht⟩
  | error e t =>
    obtain ⟨honto, honLine, hfollow⟩ := (hm s).error hr
    refine .of_ok (by rw [tolerate, hr]) honto honLine fun hs hy hshows => ?_
    obtain ⟨e', t', hr', ht⟩ := hfollow hs hy hshows
    exact ⟨t', by rw [tolerate, hr'], ht⟩

end

/-! ## Tokens -/

section
variable {α : Type} {sure plain d : Prop}

theorem local_peek : Local False plain d peek := by
  refine fun s => .of_ok rfl (.refl s) False.elim fun {_ s' _} hs hy hshows => ⟨s', ?_, hs⟩
  obtain ⟨y', hy', hsame⟩ := hs.split hy
  rw [peek, hy, hy', hsame.ahead_val hshows.ne_nil_or]

/-- The reader behind may look two tokens ahead if it does not distinguish tokens that do not
matter. -/
theorem local_lookAhead {k : Token → Token → Reader α} (hk : ∀ t u, Local False plain d (k t u))
    (hinert : ∀ t u u', inert u = true → inert u' = true → k t u = k t u') :
    Local False plain d (peek >>= fun t => peekNext >>= fun u => k t u) := by
  intro s
  have hlocal := hk (ahead s.rest).val (afterNext s.rest) s
  refine ⟨hlocal.onto, False.elim, fun {c s' _} hs hy hshows => ?_⟩
  obtain ⟨z, hz, hshows'⟩ := hlocal.onto.shows hy hshows
  obtain ⟨z', hz', hsame⟩ := hs.split hz
  have hsame : k (ahead s'.rest).val (afterNext s'.rest) = k (ahead s.rest).val (afterNext s.rest) := by
    rw [hz, hz', hsame.ahead_val hshows'.ne_nil_or]
    rcases hsame.afterNext hshows'.ne_nil_or with heq | ⟨hu, hu'⟩
    · rw [heq]
    · exact hinert _ _ _ hu' hu
  show Agree _ _ (k (ahead s.rest).val (afterNext s.rest) s)
    (k (ahead s'.rest).val (afterNext s'.rest) s')
  rw [hsame]
  exact hlocal.agree hs hy hshows

theorem Beside.pass {c : Seam} {s s' : ReadState} {y : List (Located Token)}
    {f : List (Located Token) → List (Located Token)} (hs : Beside c d s s')
    (hf : Together sure plain f) (hy : f s.rest = y ++ c.tail) (hshows : c.Shows sure plain y) :
    Beside c d { s with rest := f s.rest } { s' with rest := f s'.rest } := by
  obtain ⟨x, x', hx, hx', hsame⟩ := hs.rest
  rw [hx] at hy
  obtain ⟨y', hy', hsame'⟩ := hf hsame hy hshows
  exact hs.moveOn ⟨_, y', by rw [hx, hy], by rw [hx', hy'], hsame'⟩

theorem local_skip {f : List (Located Token) → List (Located Token)}
    (hon : ∀ ts, Onward ts (f ts)) (honLine : sure → ∀ ts, OnLine ts (f ts))
    (hf : Together sure plain f) : Local sure plain d (skip f) :=
  fun s => .of_ok rfl (onto_of_onward (hon s.rest)) (fun hsure => honLine hsure s.rest)
    fun hs hy hshows => ⟨_, rfl, hs.pass hf hy hshows⟩

theorem local_skip_dropWhile {p : Token → Bool} (hp : ∀ t, t.endsLine = true → p t = false) :
    Local sure plain d (skip (·.dropWhile fun t => p t.val)) :=
  local_skip (onward_dropWhile fun t ht => hp t.val (by rw [ht]; rfl))
    (fun _ => onLine_dropWhile fun t ht => hp t.val ht) (together_dropWhile hp)

/-- What stops at a token of some kind, and at the end of a line. -/
theorem local_skip_until {p : Token → Bool} (hp : ∀ t, t.endsLine = true → p t = true) :
    Local sure plain d (skip (·.dropWhile fun t => !p t.val)) :=
  local_skip_dropWhile (p := fun t => !p t) fun t ht => by rw [hp t ht]; rfl

theorem local_skip_behindGroup (opening closing : Token) (depth : Nat) :
    Local False plain d (skip (behindGroup opening closing depth)) :=
  local_skip (onward_behindGroup opening closing depth) False.elim
    (together_behindGroup opening closing depth)

theorem local_advance : Local False plain d advance :=
  local_skip onward_behind False.elim together_behind

theorem not_atEnd {s : ReadState} (h : (ahead s.rest).val.endsLine = false) : ¬AtEnd s.rest := by
  intro hend
  rw [hend] at h
  cases h

/-- On a line the next token is passed in both runs. -/
theorem Beside.behind {c : Seam} {s s' : ReadState} {y : List (Located Token)} (hs : Beside c d s s')
    (hend : ¬AtEnd s.rest) (hy : behind s.rest = y ++ c.tail) :
    (ahead s'.rest).val = (ahead s.rest).val ∧
      Beside c d { s with rest := behind s.rest } { s' with rest := behind s'.rest } := by
  obtain ⟨x, x', hx, hx', hsame⟩ := hs.rest
  cases hsame with
  | nil =>
    have hless := length_behind hend
    rw [hy, hx, List.nil_append, List.length_append] at hless
    omega
  | @cons t t' x x' ht hrest =>
    have hne : t.val ≠ .eof := fun he => hend (by rw [hx]; exact he)
    have hne' : t'.val ≠ .eof := ht.1 ▸ hne
    refine ⟨by rw [hx, hx']; exact ht.1, hs.moveOn ⟨x, x', ?_, ?_, hrest⟩⟩
    · rw [hx, List.cons_append, Reader.behind, if_neg hne]
    · rw [hx', List.cons_append, Reader.behind, if_neg hne']

/-- On a line it is safe to advance. -/
theorem localAt_advance {s : ReadState} (hline : (ahead s.rest).val.endsLine = false) :
    LocalAt sure plain d advance s :=
  .of_ok rfl (onto_of_onward (onward_behind s.rest)) (fun _ => onLine_behind hline)
    fun hs hy _ => ⟨_, rfl, (hs.behind (not_atEnd hline) hy).2⟩

theorem eat_of_eq {s : ReadState} {t : Token} (h : (ahead s.rest).val = t) :
    eat t s = .ok true { s with rest := behind s.rest } := by
  show (if (ahead s.rest).val = t then _ else _ : Reader Bool) s = _
  rw [if_pos h]
  rfl

theorem eat_of_ne {s : ReadState} {t : Token} (h : (ahead s.rest).val ≠ t) :
    eat t s = .ok false s := by
  show (if (ahead s.rest).val = t then _ else _ : Reader Bool) s = _
  rw [if_neg h]
  rfl

/-- The next token is the same in both runs, or the end of a line. -/
theorem Beside.alike {c : Seam} {s s' : ReadState} {y : List (Located Token)} (hs : Beside c d s s')
    (hy : s.rest = y ++ c.tail) (hshows : c.Shows sure plain y) :
    (ahead s'.rest).val = (ahead s.rest).val ∨
      (ahead s.rest).val.endsLine = true ∧ (ahead s'.rest).val.endsLine = true := by
  obtain ⟨y', hy', hsame⟩ := hs.split hy
  by_cases hne : y ≠ [] ∨ c.tail = []
  · rw [hy, hy']
    exact .inl (hsame.ahead_val hne)
  · obtain ⟨rfl, htail⟩ := not_or.mp hne |>.imp_left not_not.mp
    cases hsame
    obtain ⟨_, ⟨b, bs, hb, hline⟩, ⟨b', bs', hb', hline'⟩⟩ := hshows.of_nil.resolve_left htail
    rw [hy, hy', hb, hb']
    exact .inr ⟨hline, hline'⟩

theorem local_eat {t : Token} (ht : t.endsLine = false) : Local sure plain d (eat t) := by
  intro s
  by_cases h : (ahead s.rest).val = t
  · have hline : (ahead s.rest).val.endsLine = false := h ▸ ht
    refine .of_ok (eat_of_eq h) (onto_of_onward (onward_behind s.rest))
      (fun _ => onLine_behind hline) fun hs hy _ => ?_
    obtain ⟨hahead, hbehind⟩ := hs.behind (not_atEnd hline) hy
    exact ⟨_, eat_of_eq (hahead.trans h), hbehind⟩
  · refine .of_ok (eat_of_ne h) (.refl s) (fun _ => .refl _) fun {_ s' _} hs hy hshows => ?_
    refine ⟨s', eat_of_ne ?_, hs⟩
    rcases hs.alike hy hshows with heq | ⟨_, hline⟩
    · rwa [heq]
    · rintro rfl
      rw [hline] at ht
      cases ht

theorem local_eatKeyword (keyword : String) : Local sure plain d (eatKeyword keyword) := local_eat rfl

/-- A fault that names the next token. -/
theorem local_refuse (e : Token → SyntaxError) :
    Local sure plain d (peek >>= fun t => (fail (e t) : Reader α)) :=
  fun s => .of_error rfl (.refl s) (fun _ => .refl _) fun {_ s' _} hs _ _ => ⟨_, s', rfl, hs⟩

theorem local_expect {t : Token} (ht : t.endsLine = false) : Local sure plain d (expect t) := by
  refine (local_eat ht).bind fun found => ?_
  split
  · exact .pure ()
  · exact local_refuse _

theorem local_expectKeyword (keyword : String) : Local sure plain d (expectKeyword keyword) := by
  refine (local_eatKeyword keyword).bind fun found => ?_
  split
  · exact .pure ()
  · exact local_refuse _

/-- A reader that looks at the next token and refuses ends of lines. -/
theorem local_inspect {k : Token → Reader α} {e : Token → SyntaxError}
    (hk : ∀ s : ReadState, (ahead s.rest).val.endsLine = false →
      LocalAt sure plain d (k (ahead s.rest).val) s)
    (hline : ∀ t, t.endsLine = true → k t = fail (e t)) : Local sure plain d (peek >>= k) := by
  intro s
  cases hend : (ahead s.rest).val.endsLine with
  | true =>
    have hrun : ∀ {u : ReadState}, (ahead u.rest).val.endsLine = true →
        (peek >>= k) u = fail (e (ahead u.rest).val) u := fun hu => congrFun (hline _ hu) _
    refine .of_error (hrun hend) (.refl s) (fun _ => .refl _) fun {c s' y} hs hy hshows => ?_
    refine ⟨_, s', hrun ?_, hs⟩
    rcases hs.alike hy hshows with heq | ⟨_, hline'⟩
    · rwa [heq]
    · exact hline'
  | false =>
    have hlocal := hk s hend
    refine ⟨hlocal.onto, hlocal.onLine, fun {c s' y} hs hy hshows => ?_⟩
    show Agree _ _ (k (ahead s.rest).val s) (k (ahead s'.rest).val s')
    obtain ⟨z, hz, hshows'⟩ := hlocal.onto.shows hy hshows
    rcases hs.alike hz hshows' with heq | ⟨hline', _⟩
    · rw [heq]
      exact hlocal.agree hs hy hshows
    · rw [hend] at hline'
      cases hline'

theorem local_expectInteger : Local sure plain d expectInteger := by
  refine local_inspect (e := .expectedInteger) (fun s hline => ?_) fun t ht => ?_
  · split
    · exact (localAt_advance hline).bind fun _ t _ => Local.pure _ t
    · exact local_fail _ s
  · cases t <;> first | rfl | cases ht

theorem local_baseType : Local sure plain d baseType := by
  refine local_inspect (e := .expectedType) (fun s hline => ?_) fun t ht => ?_
  · split
    · split
      · exact (localAt_advance hline).bind fun _ t _ => Local.pure _ t
      · exact local_fail _ s
    · exact local_fail _ s
  · cases t <;> first | rfl | cases ht

theorem expectWord_of_word {s : ReadState} {w : String} (h : (ahead s.rest).val = .word w) :
    expectWord s = .ok ⟨w, (ahead s.rest).span⟩ { s with rest := behind s.rest } := by
  rw [expectWord, h]

theorem expectWord_of_other {s : ReadState} (h : ∀ w, (ahead s.rest).val ≠ .word w) :
    expectWord s = .error ⟨.expectedWord (ahead s.rest).val, (ahead s.rest).span⟩ s := by
  unfold expectWord
  split
  next w hw => exact absurd hw (h w)
  · rfl

/-- A word is read with its place, which is not the same in both runs.  It must not matter
for what is read behind, except in the wording of a fault. -/
theorem local_expectWord {k : Located String → Reader α} (hk : ∀ word, Local False plain d (k word))
    (hworded : ∀ w span span' s, Worded (k ⟨w, span⟩ s) (k ⟨w, span'⟩ s)) :
    Local False plain d (expectWord >>= k) := by
  intro s
  by_cases hword : ∃ w, (ahead s.rest).val = .word w
  · obtain ⟨w, hw⟩ := hword
    have hend : ¬AtEnd s.rest := not_atEnd (by rw [hw]; rfl)
    have hrun := bind_of_ok (k := k) (expectWord_of_word hw)
    have hlocal := hk ⟨w, (ahead s.rest).span⟩ { s with rest := behind s.rest }
    have honto : Onto s { s with rest := behind s.rest } := onto_of_onward (onward_behind s.rest)
    refine ⟨hrun ▸ honto.trans hlocal.onto, False.elim, fun {_ s' _} hs hy hshows => ?_⟩
    rw [hrun] at hy ⊢
    obtain ⟨z, hz, _⟩ := hlocal.onto.shows hy hshows
    obtain ⟨hahead, hbehind⟩ := hs.behind hend hz
    rw [bind_of_ok (expectWord_of_word (hahead.trans hw))]
    exact (hlocal.agree hbehind hy hshows).worded (hworded w _ _ _)
  · have hrun : ∀ {u : ReadState}, (ahead u.rest).val = (ahead s.rest).val →
        (expectWord >>= k) u = .error ⟨.expectedWord (ahead u.rest).val, (ahead u.rest).span⟩ u :=
      fun hu => bind_of_error (expectWord_of_other fun w hw => hword ⟨w, hu.symm.trans hw⟩)
    refine .of_error (hrun rfl) (.refl s) False.elim fun {_ s' _} hs hy hshows => ?_
    obtain ⟨y', hy', hsame⟩ := hs.split hy
    exact ⟨_, s', hrun (by rw [hy, hy', hsame.ahead_val hshows.ne_nil_or]), hs⟩

theorem local_stars (type : Ty) : Local sure plain d (stars type) := by
  refine .iterate (fun type => (local_eat rfl).bind fun found => ?_) type
  split <;> exact .pure _

theorem local_openArray (lengths : List UInt64) : Local sure plain d (openArray lengths) := by
  refine (local_eat rfl).bind fun found => .ite ?_ (.pure _)
  exact local_expectInteger.bind fun n => (local_expectKeyword "x").bind fun _ => .pure _

theorem local_closeArray (element : Ty) (n : UInt64) : Local sure plain d (closeArray element n) :=
  (local_expect rfl).bind fun _ => local_stars _

/-- Types are read alike even where they run into the end of a line. -/
theorem local_type : Local sure plain d type := by
  refine (Local.iterate local_openArray []).bind fun lengths => ?_
  refine local_baseType.bind fun base => (local_stars base).bind fun innermost => ?_
  exact .foldlM local_closeArray lengths innermost

theorem local_skipFastMathFlags : Local sure plain d skipFastMathFlags :=
  local_skip_dropWhile fun t ht => by cases t <;> first | rfl | cases ht

theorem local_argumentAttribute : Local False plain d argumentAttribute := by
  refine local_peek.bind fun next => ?_
  split
  · refine .ite (.pure _) (local_advance.bind fun _ => local_peek.bind fun next => ?_)
    split
    · exact (local_skip_behindGroup _ _ _).bind fun _ => .pure _
    · exact .ite (local_advance.bind fun _ => .pure _) (.pure _)
    · exact .pure _
  · exact .pure _

theorem local_skipArgumentAttributes : Local False plain d skipArgumentAttributes :=
  .iterate (fun _ => local_argumentAttribute) ()

end

end Reader
end SsaGraph
