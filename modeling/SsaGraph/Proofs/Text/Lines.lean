import Mathlib.Data.List.DropRight
import SsaGraph.Proofs.Lists
import SsaGraph.Text.Blank

/-!
Trimming, values in quotes, and lines joined by line feeds.
-/

namespace SsaGraph
namespace Text

section
variable {p : Char → Bool}

/-- Characters that are dropped from the ends may as well stand there. -/
theorem trimBy_append_of_all {bs : List Char} (h : ∀ b ∈ bs, p b = true) (cs : List Char) :
    trimBy p (cs ++ bs) = trimBy p cs := by
  have hend : ∀ ds : List Char, ((ds ++ bs).reverse.dropWhile p).reverse =
      (ds.reverse.dropWhile p).reverse := by
    intro ds
    rw [List.reverse_append, List.dropWhile_append_of_pos fun b hb => h b (List.mem_reverse.mp hb)]
  have hnone : bs.dropWhile p = [] := List.dropWhile_eq_nil_iff.mpr h
  unfold trimBy
  rw [List.dropWhile_append]
  split
  next hall =>
    rw [hnone, List.isEmpty_iff.mp hall]
  · exact hend _

theorem trimBy_dropWhile (cs : List Char) : trimBy p (cs.dropWhile p) = trimBy p cs := by
  unfold trimBy
  rw [List.dropWhile_idempotent]

theorem trimBy_cons {c : Char} (h : p c = true) (cs : List Char) : trimBy p (c :: cs) = trimBy p cs := by
  unfold trimBy
  rw [List.dropWhile_cons_of_pos h]

/-- Nothing is dropped if the characters at both ends stay. -/
theorem trimBy_of_stops {cs : List Char} (hfront : Stops p cs) (hback : Stops p cs.reverse) :
    trimBy p cs = cs := by
  unfold trimBy
  rw [dropWhile_of_stops hfront, dropWhile_of_stops hback, List.reverse_reverse]

theorem trimBy_dropWhile_reverse (cs : List Char) :
    trimBy p (cs.reverse.dropWhile p).reverse = trimBy p cs := by
  have hsplit : (cs.reverse.dropWhile p).reverse ++ (cs.reverse.takeWhile p).reverse = cs := by
    rw [← List.reverse_append, List.takeWhile_append_dropWhile, List.reverse_reverse]
  have hall : ∀ b ∈ (cs.reverse.takeWhile p).reverse, p b = true := fun b hb =>
    List.mem_takeWhile_imp (List.mem_reverse.mp hb)
  rw [← trimBy_append_of_all hall, hsplit]

theorem trimBy_sublist (p : Char → Bool) (cs : List Char) : (trimBy p cs).Sublist cs := by
  have hrest := (List.dropWhile_sublist (l := (cs.dropWhile p).reverse) p).reverse
  rw [List.reverse_reverse] at hrest
  exact hrest.trans (List.dropWhile_sublist p)

theorem mem_dropWhile {c : Char} {cs : List Char} (hc : c ∈ cs) (hp : p c = false) :
    c ∈ cs.dropWhile p := by
  rw [← List.takeWhile_append_dropWhile (p := p) (l := cs)] at hc
  rcases List.mem_append.mp hc with hc | hc
  · rw [List.mem_takeWhile_imp hc] at hp
    cases hp
  · exact hc

/-- Nothing but what is trimmed is lost. -/
theorem mem_trimBy {c : Char} {cs : List Char} (hc : c ∈ cs) (hp : p c = false) :
    c ∈ trimBy p cs := by
  unfold trimBy
  rw [List.mem_reverse]
  exact mem_dropWhile (List.mem_reverse.mpr (mem_dropWhile hc hp)) hp

/-- Around a character that stays, each end is trimmed by itself. -/
theorem trimBy_append_cons {c : Char} (hp : p c = false) (cs ds : List Char) :
    trimBy p (cs ++ c :: ds) = cs.dropWhile p ++ c :: (ds.reverse.dropWhile p).reverse := by
  have hfront : (cs ++ c :: ds).dropWhile p = cs.dropWhile p ++ c :: ds := by
    rw [List.dropWhile_append]
    split
    next hall =>
      rw [List.isEmpty_iff.mp hall, List.dropWhile_cons_of_neg (by rw [hp]; exact Bool.false_ne_true)]
      rfl
    · rfl
  have hback : (ds.reverse ++ c :: (cs.dropWhile p).reverse).dropWhile p =
      ds.reverse.dropWhile p ++ c :: (cs.dropWhile p).reverse := by
    rw [List.dropWhile_append]
    split
    next hall =>
      rw [List.isEmpty_iff.mp hall, List.dropWhile_cons_of_neg (by rw [hp]; exact Bool.false_ne_true)]
      rfl
    · rfl
  unfold trimBy
  rw [hfront, List.reverse_append, List.reverse_cons, List.append_assoc, List.singleton_append, hback,
    List.reverse_append, List.reverse_cons, List.reverse_reverse, List.append_assoc,
    List.singleton_append]

end

/-! ## Values and their quotes -/

section
variable {cs : List Char}

theorem isBlank_of_isDigit {c : Char} (h : c.isDigit = true) : isBlank c = false := by
  obtain ⟨hge, hle⟩ := Bool.and_eq_true_iff.mp h
  have hlow : 48 ≤ c.toNat := UInt32.le_iff_toNat_le.mp (of_decide_eq_true hge)
  have hhigh : c.toNat ≤ 57 := UInt32.le_iff_toNat_le.mp (of_decide_eq_true hle)
  simp only [isBlank, Bool.or_eq_false_iff, Bool.and_eq_false_iff, decide_eq_false_iff_not,
    beq_eq_false_iff_ne]
  omega

theorem stops_of_isDigit {p : Char → Bool} (hp : ∀ c : Char, c.isDigit = true → p c = false)
    (h : ∀ c ∈ cs, c.isDigit = true) : Stops p cs ∧ Stops p cs.reverse := by
  refine ⟨fun c hc => hp c (h c (List.mem_of_head? hc)), fun c hc => hp c (h c ?_)⟩
  exact List.mem_reverse.mp (List.mem_of_head? hc)

theorem unquote_digits (h : ∀ c ∈ cs, c.isDigit = true) : unquote (trim (' ' :: cs)) = cs := by
  have hquote : ∀ c : Char, c.isDigit = true → (c == '"') = false := by
    intro c hc
    refine beq_false_of_ne fun he => ?_
    rw [he] at hc
    exact absurd hc (by decide)
  have hblanks := stops_of_isDigit (fun _ => isBlank_of_isDigit) h
  have hquotes := stops_of_isDigit hquote h
  rw [trim, trimBy_cons (by decide), trimBy_of_stops hblanks.1 hblanks.2, unquote,
    trimBy_of_stops hquotes.1 hquotes.2]

/-- Blanks inside the quotes stay, and so do quotes that are not at the ends. -/
theorem unquote_quoted (hfront : cs.head? ≠ some '"') (hback : cs.getLast? ≠ some '"') :
    unquote (trim (' ' :: '"' :: (cs ++ ['"']))) = cs := by
  have hquotes : trim (' ' :: '"' :: (cs ++ ['"'])) = '"' :: (cs ++ ['"']) := by
    rw [trim, trimBy_cons (by decide)]
    refine trimBy_of_stops (.cons (by decide) _) ?_
    rw [List.reverse_cons, List.reverse_append]
    exact .cons (by decide) _
  have hstops : ∀ ds : List Char, ds.head? ≠ some '"' → Stops (· == '"') ds := by
    intro ds hds c hc
    exact beq_false_of_ne fun he => hds (he ▸ hc)
  rw [hquotes, unquote, trimBy_cons (by decide), trimBy_append_of_all (by simp)]
  refine trimBy_of_stops (hstops cs hfront) (hstops cs.reverse ?_)
  rwa [List.head?_reverse]

end

/-! ## Cutting at a mark -/

section
variable {α : Type} [BEq α] [LawfulBEq α] {mark : α} {cs : List α}

theorem takeWhile_ne_of_not_mem (h : mark ∉ cs) : cs.takeWhile (· != mark) = cs := by
  rw [List.takeWhile_eq_self_iff]
  intro c hc
  exact bne_iff_ne.mpr fun he => h (he ▸ hc)

theorem takeWhile_ne_append (h : mark ∉ cs) (rest : List α) :
    (cs ++ mark :: rest).takeWhile (· != mark) = cs := by
  rw [List.takeWhile_append_of_pos (List.takeWhile_eq_self_iff.mp (takeWhile_ne_of_not_mem h)),
    List.takeWhile_cons_of_neg (by rw [bne_self_eq_false]; exact Bool.false_ne_true),
    List.append_nil]

/-- Nothing behind a mark matters. -/
theorem takeWhile_ne_append_cons (cs rest : List α) :
    (cs ++ mark :: rest).takeWhile (· != mark) = cs.takeWhile (· != mark) := by
  by_cases h : mark ∈ cs
  · obtain ⟨before, behind, rfl, hbefore⟩ := List.eq_append_cons_of_mem h
    rw [List.append_assoc, List.cons_append, takeWhile_ne_append hbefore, takeWhile_ne_append hbefore]
  · rw [takeWhile_ne_append h, takeWhile_ne_of_not_mem h]

end

/-! ## Lines -/

theorem lines_go_of_not_mem {cs : List Char} (h : '\n' ∉ cs) (line : List Char) :
    lines.go line cs = if (line ++ cs).isEmpty then [] else [line ++ cs] := by
  induction cs generalizing line with
  | nil => rw [lines.go, List.append_nil]
  | cons c cs ih =>
    have hc : (c == '\n') = false := beq_false_of_ne fun he => h (he ▸ List.mem_cons_self)
    rw [lines.go, hc, if_neg Bool.false_ne_true, ih fun hcs => h (List.mem_cons_of_mem c hcs),
      List.append_assoc, List.singleton_append]

theorem lines_go_append {cs : List Char} (h : '\n' ∉ cs) (line rest : List Char) :
    lines.go line (cs ++ '\n' :: rest) = withoutReturn (line ++ cs) :: lines rest := by
  induction cs generalizing line with
  | nil => rw [List.nil_append, lines.go, BEq.rfl, if_pos rfl, List.append_nil]; rfl
  | cons c cs ih =>
    have hc : (c == '\n') = false := beq_false_of_ne fun he => h (he ▸ List.mem_cons_self)
    rw [List.cons_append, lines.go, hc, if_neg Bool.false_ne_true,
      ih fun hcs => h (List.mem_cons_of_mem c hcs), List.append_assoc, List.singleton_append]

end Text
end SsaGraph
