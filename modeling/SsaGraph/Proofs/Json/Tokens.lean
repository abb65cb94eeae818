import SsaGraph.Binary64.Style
import SsaGraph.Json
import SsaGraph.Proofs.Text.Digits

/-!
Tokens of written values.  A written string ends with its quote, so whatever follows
is read on its own (`tokens?_quote`).  A numeral ends where a character stands that
cannot prolong it; up to there it is read as if it stood alone (`numeral?_append`).
-/

namespace SsaGraph
namespace Json

/-! ## Strings -/

theorem codes_plain {c : Char} (hquote : c ≠ '"') (hslash : c ≠ '\\') (hcontrol : ¬c.toNat < 32)
    (rest : List Char) :
    codes (c :: rest) = (codes rest).map fun r => (c.toNat :: r.1, r.2) := by
  rw [codes.eq_5 c rest hquote (fun _ _ _ _ _ h _ => hslash h) (fun _ _ h _ => hslash h),
    if_neg hcontrol]

theorem codes_short {e c : Char} (he : e ≠ 'u') (h : escaped? e = some c) (rest : List Char) :
    codes ('\\' :: e :: rest) = (codes rest).map fun r => (c.toNat :: r.1, r.2) := by
  rw [codes.eq_4 e rest (fun _ _ _ _ _ h _ => he h), h]
  cases codes rest <;> rfl

theorem codes_hex {n : Nat} (h : n < Nat.pow 16 4) (rest : List Char) :
    codes ('\\' :: 'u' :: Digits.hex 4 n ++ rest) =
      (codes rest).map fun r => (n :: r.1, r.2) := by
  have hread : Digits.hexBelow? (1 <<< 16) (Digits.hex 4 n) = some n :=
    Digits.hexBelow?_hex (by decide) h h
  simp only [Digits.hex, List.nil_append, List.cons_append] at hread ⊢
  rw [codes, hread]
  cases codes rest <;> rfl

theorem codes_escape (c : Char) (rest : List Char) :
    codes (escape c ++ rest) = (codes rest).map fun r => (c.toNat :: r.1, r.2) := by
  by_cases hshort : c ∈ ['"', '\\', '\x08', '\x0c', '\n', '\r', '\t']
  · simp only [List.mem_cons, List.not_mem_nil, or_false] at hshort
    rcases hshort with rfl | rfl | rfl | rfl | rfl | rfl | rfl
    all_goals exact codes_short (by decide) rfl rest
  · simp only [List.mem_cons, List.not_mem_nil, or_false, not_or] at hshort
    by_cases hcontrol : c.toNat < 32
    · have hescape : escape c = '\\' :: 'u' :: Digits.hex 4 c.toNat := by
        simp [escape, hshort, hcontrol]
      rw [hescape]
      exact codes_hex (Nat.lt_trans hcontrol (by decide)) rest
    · have hescape : escape c = [c] := by simp [escape, hshort, hcontrol]
      rw [hescape]
      exact codes_plain hshort.1 hshort.2.1 hcontrol rest

theorem codes_flatMap_escape (cs rest : List Char) :
    codes (cs.flatMap escape ++ '"' :: rest) = some (cs.map Char.toNat, rest) := by
  induction cs with
  | nil => rw [List.flatMap_nil, List.nil_append, codes, List.map_nil]
  | cons c cs ih => rw [List.flatMap_cons, List.append_assoc, codes_escape, ih]; rfl

/-- No character is half of another one. -/
theorem characters?_map_toNat (cs : List Char) : characters? (cs.map Char.toNat) = some cs := by
  induction cs with
  | nil => rfl
  | cons c cs ih =>
    have hvalid : c.toNat < 0xD800 ∨ 0xDFFF < c.toNat ∧ c.toNat < 0x110000 := c.valid
    have hhigh : isHigh c.toNat = false := by
      simp only [isHigh, Bool.and_eq_false_iff, decide_eq_false_iff_not]
      omega
    have hlow : isLow c.toNat = false := by
      simp only [isLow, Bool.and_eq_false_iff, decide_eq_false_iff_not]
      omega
    rw [List.map_cons, characters?.eq_def]
    simp [hhigh, hlow, ih]

/-! ## Numerals -/

/-- Characters that may prolong a numeral or a word. -/
def continues (c : Char) : Bool :=
  c.isAlpha || c.isDigit || c == '.' || c == '+' || c == '-'

theorem continues_of_isDigit {c : Char} (h : c.isDigit = true) : continues c = true := by
  simp [continues, h]

theorem stops_isDigit {rest : List Char} (h : Stops continues rest) : Stops Char.isDigit rest := by
  intro c hc
  have hcontinues := h c hc
  simp only [continues, Bool.or_eq_false_iff] at hcontinues
  exact hcontinues.1.1.1.2

theorem stops_isAlpha {rest : List Char} (h : Stops continues rest) : Stops Char.isAlpha rest := by
  intro c hc
  have hcontinues := h c hc
  simp only [continues, Bool.or_eq_false_iff] at hcontinues
  exact hcontinues.1.1.1.1

section
variable {rest : List Char} (h : Stops continues rest)
include h

theorem ne_cons_of_stops {c : Char} (hc : continues c = true) (xs : List Char) :
    rest ≠ c :: xs := by
  intro e
  have hfalse := h c (e ▸ rfl)
  rw [hc] at hfalse
  cases hfalse

theorem fraction?_append (cs : List Char) :
    fraction? (cs ++ rest) = (fraction? cs).map fun r => (r.1, r.2 ++ rest) := by
  cases cs with
  | nil =>
    have hpoint : ∀ xs, rest = '.' :: xs → False := ne_cons_of_stops h (by decide)
    rw [List.nil_append, fraction?.eq_2 rest hpoint,
      fraction?.eq_2 [] fun _ e => absurd e.symm (List.cons_ne_nil _ _)]
    rfl
  | cons c cs =>
    by_cases hc : c = '.'
    · subst hc
      rw [List.cons_append, fraction?, fraction?, takeWhile_append_of_stops (stops_isDigit h)]
      cases hds : cs.takeWhile Char.isDigit with
      | nil => rfl
      | cons d ds =>
        have hle : (d :: ds).length ≤ cs.length :=
          hds ▸ (List.takeWhile_sublist Char.isDigit).length_le
        show some (d :: ds, (cs ++ rest).drop (d :: ds).length) = _
        rw [List.drop_append_of_le_length hle]
        rfl
    · have hne : ∀ (ys xs : List Char), c :: ys = '.' :: xs → False := by
        intro ys xs e
        exact hc (List.cons.inj e).1
      rw [List.cons_append, fraction?.eq_2 _ (hne _), fraction?.eq_2 _ (hne _)]
      rfl

/-- A sign behind the letter of an exponent is one of its own. -/
theorem filter_take_append (cs : List Char) :
    ((cs ++ rest).take 1).filter (fun c => c == '+' || c == '-') =
      (cs.take 1).filter (fun c => c == '+' || c == '-') := by
  cases cs with
  | cons c cs => rfl
  | nil =>
    cases rest with
    | nil => rfl
    | cons c rest =>
      have hc := h c rfl
      simp only [continues, Bool.or_eq_false_iff] at hc
      simp [hc.1.2, hc.2]

theorem exponent?_append (cs : List Char) :
    exponent? (cs ++ rest) = (exponent? cs).map fun r => (r.1, r.2 ++ rest) := by
  cases cs with
  | nil =>
    cases rest with
    | nil => rfl
    | cons c rest =>
      have hlower : (c == 'e') = false := by
        refine beq_false_of_ne fun hc => ne_cons_of_stops h (by decide : continues 'e' = true) rest ?_
        rw [hc]
      have hupper : (c == 'E') = false := by
        refine beq_false_of_ne fun hc => ne_cons_of_stops h (by decide : continues 'E' = true) rest ?_
        rw [hc]
      simp [exponent?, hlower, hupper]
  | cons e cs =>
    rw [List.cons_append, exponent?, exponent?]
    by_cases he : (e == 'e' || e == 'E') = true
    · rw [if_pos he, if_pos he]
      simp only [filter_take_append h]
      generalize hsign : (cs.take 1).filter (fun c => c == '+' || c == '-') = sign
      have hle : sign.length ≤ cs.length := by
        rw [← hsign]
        exact Nat.le_trans (List.length_filter_le _ _) (List.length_take_le' _ _)
      rw [List.drop_append_of_le_length hle, takeWhile_append_of_stops (stops_isDigit h)]
      cases hds : (cs.drop sign.length).takeWhile Char.isDigit with
      | nil => rfl
      | cons d ds =>
        have hlength : (d :: ds).length ≤ (cs.drop sign.length).length :=
          hds ▸ (List.takeWhile_sublist Char.isDigit).length_le
        show some (some (sign == ['-'], d :: ds),
          (cs.drop sign.length ++ rest).drop (d :: ds).length) = _
        rw [List.drop_append_of_le_length hlength]
        rfl
    · rw [if_neg he, if_neg he]
      rfl

omit h in
theorem numeral?_eq (negative : Bool) (cs : List Char) : numeral? negative cs =
    if (cs.takeWhile Char.isDigit).isEmpty ||
        ((cs.takeWhile Char.isDigit).head? == some '0' && (cs.takeWhile Char.isDigit).length ≠ 1)
    then none
    else (fraction? (cs.drop (cs.takeWhile Char.isDigit).length)).bind fun f =>
      (exponent? f.2).bind fun e =>
        some (⟨negative, cs.takeWhile Char.isDigit, f.1, e.1⟩, e.2) := rfl

/-- A numeral is read as if it stood alone. -/
theorem numeral?_append (negative : Bool) (cs : List Char) :
    numeral? negative (cs ++ rest) = (numeral? negative cs).map fun r => (r.1, r.2 ++ rest) := by
  have hle : (cs.takeWhile Char.isDigit).length ≤ cs.length :=
    (List.takeWhile_sublist Char.isDigit).length_le
  rw [numeral?_eq, numeral?_eq, takeWhile_append_of_stops (stops_isDigit h),
    List.drop_append_of_le_length hle, fraction?_append h]
  split
  · rfl
  · cases hf : fraction? (cs.drop (cs.takeWhile Char.isDigit).length) with
    | none => rfl
    | some f =>
      rw [Option.map_some, Option.bind_some, Option.bind_some, exponent?_append h]
      cases exponent? f.2 <;> rfl

end

/-! ## Tokens -/

theorem tokens?_blank {c : Char} (h : isSpace c = true) (cs : List Char) :
    tokens? (c :: cs) = tokens? cs := by
  rw [tokens?, if_pos h]

theorem tokens?_blanks {blanks : List Char} (h : blanks.all isSpace = true) (cs : List Char) :
    tokens? (blanks ++ cs) = tokens? cs := by
  induction blanks with
  | nil => rfl
  | cons c blanks ih =>
    rw [List.all_cons, Bool.and_eq_true] at h
    rw [List.cons_append, tokens?_blank h.1, ih h.2]

/-- One token, and then the others. -/
theorem tokens?_token {c : Char} {cs rest : List Char} {t : Tok} (hspace : isSpace c = false)
    (ht : token? c cs = some (t, rest)) (hle : rest.length ≤ cs.length) :
    tokens? (c :: cs) = (tokens? rest).map (t :: ·) := by
  rw [tokens?, if_neg (by rw [hspace]; exact Bool.false_ne_true), ht]
  exact if_pos hle

theorem tokens?_punctuation {c : Char} {t : Tok} (hspace : isSpace c = false)
    (ht : punctuation? c = some t) (cs : List Char) :
    tokens? (c :: cs) = (tokens? cs).map (t :: ·) := by
  refine tokens?_token hspace ?_ (Nat.le_refl _)
  rw [token?, ht]

theorem tokens?_quote (s : String) (rest : List Char) :
    tokens? ((quote s).toList ++ rest) = (tokens? rest).map (.string (some s) :: ·) := by
  have hcodes := codes_flatMap_escape s.toList rest
  have htoken : token? '"' (s.toList.flatMap escape ++ '"' :: rest) =
      some (.string (some s), rest) := by
    show (codes (s.toList.flatMap escape ++ '"' :: rest)).map
      (fun r => (Tok.string ((characters? r.1).map String.ofList), r.2)) = _
    rw [hcodes, Option.map_some, characters?_map_toNat, Option.map_some, String.ofList_toList]
  have htext : (quote s).toList ++ rest = '"' :: (s.toList.flatMap escape ++ '"' :: rest) := by
    simp [quote]
  rw [htext]
  refine tokens?_token (by decide) htoken ?_
  simp only [List.length_append, List.length_cons]
  omega

theorem punctuation?_of_continues {c : Char} (h : continues c = true) : punctuation? c = none := by
  unfold punctuation?
  split
  case h_7 => rfl
  all_goals exact absurd h (by decide)

theorem isSpace_of_continues {c : Char} (h : continues c = true) : isSpace c = false := by
  have hne : ∀ d, continues d = false → (c == d) = false := by
    intro d hd
    refine beq_false_of_ne fun e => ?_
    rw [e, hd] at h
    cases h
  simp [isSpace, hne ' ' (by decide), hne '\n' (by decide), hne '\t' (by decide),
    hne '\r' (by decide)]

/-- A digit starts a numeral.  The letter of an exponent starts neither a numeral nor a
word. -/
theorem token?_of_numeral {c : Char} (hc : c.isDigit = true ∨ c = 'e') (cs : List Char) :
    token? c cs = (numeral? false (c :: cs)).map fun r => (.number r.1, r.2) := by
  rcases hc with hc | rfl
  · have hquote : (c == '"') = false := by
      refine beq_false_of_ne fun e => ?_
      rw [e] at hc
      cases hc
    have hminus : (c == '-') = false := by
      refine beq_false_of_ne fun e => ?_
      rw [e] at hc
      cases hc
    simp [token?, punctuation?_of_continues (continues_of_isDigit hc), hquote, hminus, hc]
  · have hnumeral : numeral? false ('e' :: cs) = none := by
      rw [numeral?_eq]
      rfl
    rw [hnumeral]
    rfl

/-! ## Written numbers -/

def IsFraction (cs : List Char) : Prop :=
  cs = [] ∨ ∃ ds, cs = '.' :: ds ∧ ∀ c ∈ ds, c.isDigit = true

def IsExponent (cs : List Char) : Prop :=
  cs = [] ∨ ∃ sign ds, cs = 'e' :: (sign ++ ds) ∧ (sign = [] ∨ sign = ['+'] ∨ sign = ['-']) ∧
    ds ≠ [] ∧ ∀ c ∈ ds, c.isDigit = true

/-- Digits, a fraction and an exponent.  The digits may be missing in front of an
exponent, and then it is no numeral. -/
def Numeric (cs : List Char) : Prop :=
  ∃ whole fraction exponent, cs = whole ++ (fraction ++ exponent) ∧
    (∀ c ∈ whole, c.isDigit = true) ∧ IsFraction fraction ∧ IsExponent exponent ∧
    (whole = [] → fraction = [] ∧ exponent ≠ [])

theorem IsExponent.stops {cs : List Char} (h : IsExponent cs) : Stops Char.isDigit cs := by
  rcases h with rfl | ⟨sign, ds, rfl, _⟩
  · exact .nil _
  · exact .cons (by decide) _

theorem IsFraction.stops {cs : List Char} (h : IsFraction cs) {exponent : List Char}
    (he : IsExponent exponent) : Stops Char.isDigit (cs ++ exponent) := by
  rcases h with rfl | ⟨ds, rfl, _⟩
  · exact he.stops
  · exact .cons (by decide) _

/-- The letter of an exponent ends a fraction. -/
theorem fraction?_of_isFraction {cs exponent : List Char} (h : IsFraction cs)
    (he : IsExponent exponent) {r : List Char × List Char}
    (hr : fraction? (cs ++ exponent) = some r) : r.2 = exponent := by
  rcases h with rfl | ⟨ds, rfl, hds⟩
  · have hpoint : ∀ xs, exponent = '.' :: xs → False := by
      rintro xs rfl
      rcases he with he | ⟨_, _, he, _⟩
      · cases he
      · cases he
    rw [List.nil_append, fraction?.eq_2 exponent hpoint] at hr
    cases hr
    rfl
  · rw [List.cons_append, fraction?, takeWhile_append_of_stops he.stops, takeWhile_of_all hds] at hr
    cases ds with
    | nil => cases hr
    | cons d ds =>
      cases hr
      exact List.drop_left

theorem exponent?_of_isExponent {cs : List Char} (h : IsExponent cs) :
    ∃ e, exponent? cs = some (e, []) := by
  rcases h with rfl | ⟨sign, ds, rfl, hsign, hne, hds⟩
  · exact ⟨none, rfl⟩
  · have htake : ((sign ++ ds).take 1).filter (fun c => c == '+' || c == '-') = sign := by
      rcases hsign with rfl | rfl | rfl
      · cases ds with
        | nil => exact absurd rfl hne
        | cons d ds =>
          have hd := hds d List.mem_cons_self
          have hplus : (d == '+') = false := beq_false_of_ne fun e => by rw [e] at hd; cases hd
          have hminus : (d == '-') = false := beq_false_of_ne fun e => by rw [e] at hd; cases hd
          simp [hplus, hminus]
      · rfl
      · rfl
    rw [exponent?, if_pos (by decide)]
    simp only [htake, List.drop_left, takeWhile_of_all hds]
    cases ds with
    | nil => exact absurd rfl hne
    | cons d ds => exact ⟨some (sign == ['-'], d :: ds), by simp⟩

/-- A written number is one numeral with nothing behind it, or none. -/
theorem numeral?_exhausts {negative : Bool} {cs : List Char} (h : Numeric cs)
    {r : Numeral × List Char} (hr : numeral? negative cs = some r) : r.2 = [] := by
  obtain ⟨whole, fraction, exponent, rfl, hw, hf, he, _⟩ := h
  rw [numeral?_eq, takeWhile_append_of_stops (hf.stops he), takeWhile_of_all hw] at hr
  split at hr
  · cases hr
  · rw [List.drop_left, Option.bind_eq_some_iff] at hr
    obtain ⟨f, hfraction, hr⟩ := hr
    obtain ⟨e, hexponent⟩ := exponent?_of_isExponent he
    rw [fraction?_of_isFraction hf he hfraction, hexponent, Option.bind_some] at hr
    cases hr
    rfl

/-- The first character of a number. -/
theorem Numeric.head {cs : List Char} (h : Numeric cs) :
    ∃ c rest, cs = c :: rest ∧ (c.isDigit = true ∨ c = 'e') := by
  obtain ⟨whole, fraction, exponent, rfl, hw, hf, he, hempty⟩ := h
  cases whole with
  | cons c whole => exact ⟨c, _, rfl, .inl (hw c List.mem_cons_self)⟩
  | nil =>
    obtain ⟨rfl, hne⟩ := hempty rfl
    rcases he with rfl | ⟨sign, ds, rfl, _⟩
    · exact absurd rfl hne
    · exact ⟨'e', _, rfl, .inr rfl⟩

theorem tokens?_numeric {cs rest : List Char} (h : Numeric cs) (hrest : Stops continues rest)
    (negative : Bool) :
    tokens? ((if negative then '-' :: cs else cs) ++ rest) =
      (numeral? negative cs).bind fun r => (tokens? rest).map (.number r.1 :: ·) := by
  have hall : ∀ (c : Char) (ds : List Char), isSpace c = false →
      token? c (ds ++ rest) = (numeral? negative (cs ++ rest)).map (fun r => (.number r.1, r.2)) →
      tokens? (c :: (ds ++ rest)) =
        (numeral? negative cs).bind fun r => (tokens? rest).map (.number r.1 :: ·) := by
    intro c ds hspace htoken
    rw [numeral?_append hrest] at htoken
    cases hr : numeral? negative cs with
    | none =>
      rw [hr] at htoken
      rw [tokens?, hspace, htoken]
      rfl
    | some r =>
      rw [hr, Option.map_some, numeral?_exhausts h hr, List.nil_append, Option.map_some] at htoken
      exact tokens?_token hspace htoken (by simp)
  obtain ⟨c, ds, hcs, hc⟩ := h.head
  cases negative with
  | true =>
    rw [if_pos rfl, List.cons_append]
    exact hall '-' cs (by decide) rfl
  | false =>
    rw [if_neg Bool.false_ne_true, hcs, List.cons_append]
    refine (hall c ds ?_ ?_).trans (by rw [hcs])
    · refine isSpace_of_continues ?_
      rcases hc with hc | rfl
      · exact continues_of_isDigit hc
      · decide
    · rw [token?_of_numeral hc, hcs]
      rfl

/-! ## Separate texts -/

/-- The text gives these tokens, or none at all, in front of everything that cannot
prolong it. -/
def Tokenizes (text : List Char) (r : Option (List Tok)) : Prop :=
  ∀ rest, Stops continues rest →
    tokens? (text ++ rest) = r.bind fun ts => (tokens? rest).map (ts ++ ·)

@[simp] theorem tokens?_nil : tokens? [] = some [] := by rw [tokens?]

theorem Tokenizes.tokens?_eq {text : List Char} {r : Option (List Tok)} (h : Tokenizes text r) :
    tokens? text = r := by
  have htext := h [] (.nil _)
  rw [List.append_nil, tokens?_nil] at htext
  rw [htext]
  cases r <;> simp

theorem tokenizes_quote (s : String) : Tokenizes (quote s).toList (some [.string (some s)]) := by
  intro rest _
  rw [tokens?_quote]
  rfl

/-- The numeral of a count. -/
def countNumeral (n : Nat) : Numeral := ⟨false, Nat.toDigits 10 n, [], none⟩

theorem numeral?_toDigits (n : Nat) :
    numeral? false (Nat.toDigits 10 n) = some (countNumeral n, []) := by
  have hall : (Nat.toDigits 10 n).takeWhile Char.isDigit = Nat.toDigits 10 n :=
    takeWhile_of_all fun c hc => Digits.isDigit_of_mem_toDigits hc
  have hzero : ((Nat.toDigits 10 n).head? == some '0' && (Nat.toDigits 10 n).length ≠ 1) = false := by
    by_cases h : (Nat.toDigits 10 n).head? = some '0'
    · simp [Digits.length_of_head?_toDigits h]
    · simp [h]
  have hempty : (Nat.toDigits 10 n).isEmpty = false := by simp
  rw [numeral?_eq, hall, hempty, hzero, List.drop_length]
  rfl

theorem tokenizes_count (n : Nat) :
    Tokenizes (toString n).toList (some [.number (countNumeral n)]) := by
  intro rest hrest
  have hnumeric : Numeric (Nat.toDigits 10 n) :=
    ⟨Nat.toDigits 10 n, [], [], by simp, fun c hc => Digits.isDigit_of_mem_toDigits hc, .inl rfl,
      .inl rfl, fun h => absurd h Nat.toDigits_ne_nil⟩
  have htokens := tokens?_numeric hnumeric hrest false
  rw [if_neg Bool.false_ne_true, numeral?_toDigits] at htokens
  rw [show (toString n).toList = Nat.toDigits 10 n by simp, htokens]
  rfl

theorem tokenizes_null : Tokenizes ['n', 'u', 'l', 'l'] (some [.null]) := by
  intro rest hrest
  have hletters : (['u', 'l', 'l'] ++ rest).takeWhile Char.isAlpha = ['u', 'l', 'l'] := by
    rw [takeWhile_append_of_stops (stops_isAlpha hrest)]
    decide
  have htoken : token? 'n' (['u', 'l', 'l'] ++ rest) = some (.null, rest) := by
    show (word? ('n' :: (['u', 'l', 'l'] ++ rest).takeWhile Char.isAlpha)).map
      (fun t => (t, (['u', 'l', 'l'] ++ rest).drop
        ((['u', 'l', 'l'] ++ rest).takeWhile Char.isAlpha).length)) = _
    rw [hletters]
    rfl
  exact tokens?_token (by decide) htoken (Nat.le_add_right _ 3)

theorem count?_countNumeral {n : Nat} (h : n < 1 <<< 64) : (countNumeral n).count? = some n :=
  Digits.natBelow?_toDigits h

end Json

namespace NumberStyle

open Json (Numeric)

theorem isDigit_of_mem_replicate (n : Nat) : ∀ c ∈ List.replicate n '0', c.isDigit = true := by
  intro c hc
  rw [List.eq_of_mem_replicate hc]
  rfl

theorem isDigit_of_mem_zero : ∀ c ∈ ['0'], c.isDigit = true := isDigit_of_mem_replicate 1

theorem numeric_positional {d : Decimal} (h : ∀ c ∈ d.digits, c.isDigit = true) :
    Numeric (positional d) := by
  unfold positional
  split
  next p _ =>
    split
    · exact ⟨['0'], '.' :: d.digits, [], by simp, isDigit_of_mem_zero, .inr ⟨d.digits, rfl, h⟩,
        .inl rfl, fun hnil => absurd hnil (List.cons_ne_nil _ _)⟩
    split
    next hp hle =>
      refine ⟨d.digits ++ List.replicate (p - d.digits.length) '0', ['.', '0'], [], by simp, ?_,
        .inr ⟨['0'], rfl, isDigit_of_mem_zero⟩, .inl rfl, ?_⟩
      · intro c hc
        rcases List.mem_append.mp hc with hc | hc
        · exact h c hc
        · exact isDigit_of_mem_replicate _ c hc
      · intro hnil
        have hlength := congrArg List.length hnil
        simp only [List.length_append, List.length_replicate, List.length_nil] at hlength
        omega
    next hp hlt =>
      refine ⟨d.digits.take p, '.' :: d.digits.drop p, [], by simp,
        fun c hc => h c (List.mem_of_mem_take hc),
        .inr ⟨_, rfl, fun c hc => h c (List.mem_of_mem_drop hc)⟩, .inl rfl, ?_⟩
      intro hnil
      have hlength := congrArg List.length hnil
      simp only [List.length_take, List.length_nil] at hlength
      omega
  next k _ =>
    refine ⟨['0'], '.' :: (List.replicate (k + 1) '0' ++ d.digits), [], by simp,
      isDigit_of_mem_zero, .inr ⟨_, rfl, ?_⟩, .inl rfl,
      fun hnil => absurd hnil (List.cons_ne_nil _ _)⟩
    intro c hc
    rcases List.mem_append.mp hc with hc | hc
    · exact isDigit_of_mem_replicate _ c hc
    · exact h c hc

theorem numeric_exponential (style : NumberStyle) {d : Decimal}
    (h : ∀ c ∈ d.digits, c.isDigit = true) : Numeric (style.exponential d) := by
  have hexponent : Json.IsExponent
      ((if d.point - 1 < 0 then ['e', '-'] else if style.plusSign then ['e', '+'] else ['e']) ++
        (d.point - 1).natAbs.repr.toList) := by
    have hdigits : ∀ c ∈ (d.point - 1).natAbs.repr.toList, c.isDigit = true := by
      intro c hc
      exact Digits.isDigit_of_mem_toDigits (by simpa using hc)
    have hne : (d.point - 1).natAbs.repr.toList ≠ [] := by simp
    split
    · exact .inr ⟨['-'], _, rfl, by simp, hne, hdigits⟩
    split
    · exact .inr ⟨['+'], _, rfl, by simp, hne, hdigits⟩
    · exact .inr ⟨[], _, rfl, by simp, hne, hdigits⟩
  have hwhole : ∀ c ∈ d.digits.take 1, c.isDigit = true := fun c hc => h c (List.mem_of_mem_take hc)
  have hdrop : ∀ c ∈ d.digits.drop 1, c.isDigit = true := fun c hc => h c (List.mem_of_mem_drop hc)
  unfold exponential
  cases hds : d.digits.drop 1 with
  | nil =>
    exact ⟨d.digits.take 1, [], _, by simp only [List.append_assoc], hwhole, .inl rfl, hexponent,
      fun _ => ⟨rfl, by simp⟩⟩
  | cons c ds =>
    rw [hds] at hdrop
    refine ⟨d.digits.take 1, '.' :: c :: ds, _, by simp only [List.append_assoc], hwhole,
      .inr ⟨_, rfl, hdrop⟩, hexponent, fun hnil => ?_⟩
    rw [List.take_eq_nil_iff] at hnil
    rcases hnil with hnil | hnil
    · cases hnil
    · rw [hnil] at hds
      cases hds

theorem isDigit_of_mem_shortest {tie : Tie} {x : Binary64} {c : Char}
    (h : c ∈ (x.shortest tie).digits) : c.isDigit = true := by
  unfold Binary64.shortest at h
  simp only at h
  split at h
  · cases h
  next ds grid hfound =>
    obtain ⟨k, _, hk⟩ := List.exists_of_findSome?_eq_some hfound
    obtain ⟨n, _, hn⟩ := Option.map_eq_some_iff.mp hk
    have hmem : c ∈ ds := by
      have h := List.mem_reverse.mp h
      exact List.mem_reverse.mp ((List.dropWhile_sublist _).subset h)
    rw [← (Prod.mk.inj hn).1] at hmem
    exact Digits.isDigit_of_mem_toDigits (by simpa using hmem)

/-- A finite number is written with its sign and digits. -/
theorem write_finite (style : NumberStyle) {x : Binary64} (h : x.isFinite = true) :
    ∃ cs, Numeric cs ∧
      (style.write x).toList = if x.negative then '-' :: cs else cs := by
  have hnan : x.isNaN = false := by
    simp only [Binary64.isFinite, Binary64.isNaN, decide_eq_true_eq, decide_eq_false_iff_not] at h ⊢
    omega
  refine ⟨if x.isZero then ['0', '.', '0'] else style.digits (x.shortest style.tie), ?_, ?_⟩
  · split
    · exact ⟨['0'], ['.', '0'], [], rfl, isDigit_of_mem_zero,
        .inr ⟨['0'], rfl, isDigit_of_mem_zero⟩,
        .inl rfl, fun hnil => absurd hnil (List.cons_ne_nil _ _)⟩
    · unfold digits
      split
      · exact numeric_positional fun c hc => isDigit_of_mem_shortest hc
      · exact numeric_exponential style fun c hc => isDigit_of_mem_shortest hc
  · rw [write, hnan, h]
    exact String.toList_ofList

end NumberStyle
end SsaGraph
