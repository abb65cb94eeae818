import SsaGraph.Proofs.Text.Digits
import SsaGraph.Token.Scan

/-!
Scanning undoes writing.  A token is written with its name in quotes, an integer in
decimal and a floating point number by its bits.  Its text is one piece, whatever
follows, except that a word or a number must not go on (`piece_text`).  So tokens that
are written with a blank wherever it is needed are scanned as they were (`scanned_written`).
-/

namespace SsaGraph
namespace Token

/-! ## Texts -/

def quote (s : String) : List Char := '"' :: (s.toList ++ ['"'])

/-- The text of a token.  The end of a text has none. -/
def text : Token → List Char
  | loc name => '%' :: quote name
  | glob name => '@' :: quote name
  | word w => w.toList
  | int n => Nat.toDigits 10 n.toNat
  | float x => '0' :: 'x' :: Digits.hex 16 x.bits.toNat
  | str s => quote s
  | attr name => '#' :: quote name
  | metadata name => '!' :: quote name
  | lparen => ['(']
  | rparen => [')']
  | lbrace => ['\x7b']
  | rbrace => ['\x7d']
  | lbracket => ['[']
  | rbracket => [']']
  | langle => ['<']
  | rangle => ['>']
  | comma => [',']
  | equals => ['=']
  | colon => [':']
  | star => ['*']
  | ellipsis => ['.', '.', '.']
  | newline => ['\n']
  | eof => []

/-- A text that may stand between quotes. -/
def Quotable (s : String) : Prop := ∀ c ∈ s.toList, isQuotable c = true

/-- Characters that make a word. -/
def IsWord : List Char → Prop
  | [] => False
  | c :: cs => isWordStart c = true ∧ (∀ d ∈ cs, isNameChar d = true) ∧
      ¬(c = '.' ∧ cs.take 2 = ['.', '.'])

def isPlainWord : List Char → Bool
  | [] => false
  | c :: cs => isWordStart c && cs.all isNameChar && c != '.'

theorem isWord_of_isPlainWord {cs : List Char} (h : isPlainWord cs = true) : IsWord cs := by
  cases cs with
  | nil => cases h
  | cons c cs =>
    simp only [isPlainWord, Bool.and_eq_true, List.all_eq_true, bne_iff_ne] at h
    exact ⟨h.1.1, h.1.2, fun e => h.2 e.1⟩

/-- Tokens whose text can be scanned. -/
def Writable : Token → Prop
  | loc name | glob name => name ≠ "" ∧ Quotable name
  | attr name | metadata name | str name => Quotable name
  | word w => IsWord w.toList
  | eof => False
  | _ => True

/-- The mark in front of a name, and the name. -/
def sigil? : Token → Option (Char × String)
  | loc name => some ('%', name)
  | glob name => some ('@', name)
  | attr name => some ('#', name)
  | metadata name => some ('!', name)
  | _ => none

/-- Whether the text could go on with a name character. -/
def goesOn : Token → Bool
  | word _ | int _ | float _ => true
  | _ => false

/-! ## Pieces -/

theorem quoted_append {s : String} (h : Quotable s) (rest : List Char) :
    quoted (s.toList ++ '"' :: rest) = (s, s.toList.length + 1, true) := by
  have hbody : (s.toList ++ '"' :: rest).takeWhile isQuotable = s.toList := by
    rw [takeWhile_append_of_stops (.cons (by decide) _), takeWhile_of_all h]
  unfold quoted
  simp only [hbody, List.drop_left, List.head?_cons, String.ofList_toList]
  rfl

theorem name_quote {s : String} (h : Quotable s) (rest : List Char) :
    name (quote s ++ rest) = (s, (quote s).length) := by
  show ((quoted (s.toList ++ ['"'] ++ rest)).1, (quoted (s.toList ++ ['"'] ++ rest)).2.1 + 1) = _
  rw [List.append_assoc, List.singleton_append, quoted_append h]
  simp [quote]

theorem beq_of_isNameChar {c d : Char} (hc : isNameChar c = true) (hd : isNameChar d = false) :
    (c == d) = false := by
  refine beq_false_of_ne fun e => ?_
  rw [e, hd] at hc
  cases hc

theorem punctuation?_of_isNameChar {c : Char} (h : isNameChar c = true) :
    punctuation? c = none := by
  unfold punctuation?
  split
  case h_14 => rfl
  all_goals exact absurd h (by decide)

theorem isNameChar_of_isDigit {c : Char} (h : c.isDigit = true) : isNameChar c = true := by
  simp [isNameChar, Char.isAlphanum, h]

theorem isNameChar_of_isAlpha {c : Char} (h : c.isAlpha = true) : isNameChar c = true := by
  simp [isNameChar, Char.isAlphanum, h]

theorem isNameChar_of_isHex {c : Char} (h : Digits.isHex c = true) : isNameChar c = true := by
  have hle : ∀ a b : Char, a ≤ b ↔ a.val ≤ b.val := fun _ _ => Iff.rfl
  simp only [Digits.isHex, Bool.or_eq_true, Bool.and_eq_true, decide_eq_true_eq, hle] at h
  rcases h with (h | h) | h
  · exact isNameChar_of_isDigit h
  · have hz : c.val ≤ 'z'.val := UInt32.le_trans h.2 (by decide)
    have hlower : c.isLower = true :=
      Bool.and_eq_true_iff.mpr ⟨decide_eq_true h.1, decide_eq_true hz⟩
    exact isNameChar_of_isAlpha (Bool.or_eq_true_iff.mpr (.inr hlower))
  · have hz : c.val ≤ 'Z'.val := UInt32.le_trans h.2 (by decide)
    have hupper : c.isUpper = true := decide_eq_true ⟨h.1, hz⟩
    exact isNameChar_of_isAlpha (Bool.or_eq_true_iff.mpr (.inl hupper))

theorem le_of_isAlpha {c : Char} (h : c.isAlpha = true) : 'A'.val ≤ c.val := by
  rcases Bool.or_eq_true_iff.mp h with h | h
  · exact (of_decide_eq_true h).1
  · have hle : 'a'.val ≤ c.val := of_decide_eq_true (Bool.and_eq_true_iff.mp h).1
    exact UInt32.le_trans (by decide) hle

/-- A word does not start like a number. -/
theorem isDigit_of_isWordStart {c : Char} (h : isWordStart c = true) : c.isDigit = false := by
  refine Bool.eq_false_iff.mpr fun hdigit => ?_
  have hle : c.val ≤ '9'.val := of_decide_eq_true (Bool.and_eq_true_iff.mp hdigit).2
  simp only [isWordStart, Bool.or_eq_true, beq_iff_eq] at h
  rcases h with ((h | h) | h) | h
  · exact absurd (UInt32.le_trans (le_of_isAlpha h) hle) (by decide)
  all_goals
    rw [h] at hdigit
    exact absurd hdigit (by decide)

/-- Nothing that starts with a name character is skipped, a mark or a name. -/
theorem piece_of_isNameChar {c : Char} (hc : isNameChar c = true) (cs : List Char) :
    piece c cs =
      if c == '.' && cs.take 2 == ['.', '.'] then .token .ellipsis 2
      else if c.isDigit then
        if c == '0' && cs.head? == some 'x' then hexadecimal (cs.drop 1)
        else decimal false (c :: cs)
      else if c == '-' && (cs.head?.any Char.isDigit) then decimal true cs
      else if isWordStart c then
        .token (.word (String.ofList (c :: cs.takeWhile isNameChar)))
          (cs.takeWhile isNameChar).length
      else .stray := by
  have hblank : isBlank c = false := by
    simp [isBlank, beq_of_isNameChar hc (by decide : isNameChar ' ' = false),
      beq_of_isNameChar hc (by decide : isNameChar '\t' = false),
      beq_of_isNameChar hc (by decide : isNameChar '\r' = false),
      beq_of_isNameChar hc (by decide : isNameChar '\x0c' = false)]
  rw [piece, beq_of_isNameChar hc (by decide : isNameChar ';' = false), hblank,
    punctuation?_of_isNameChar hc, beq_of_isNameChar hc (by decide : isNameChar '%' = false),
    beq_of_isNameChar hc (by decide : isNameChar '@' = false),
    beq_of_isNameChar hc (by decide : isNameChar '#' = false),
    beq_of_isNameChar hc (by decide : isNameChar '!' = false),
    beq_of_isNameChar hc (by decide : isNameChar '"' = false)]
  rfl

section
variable {rest : List Char} (h : Stops isNameChar rest)
include h

theorem stops_of_isNameChar {p : Char → Bool} (hp : ∀ c, p c = true → isNameChar c = true) :
    Stops p rest := by
  intro c hc
  have hname := h c hc
  cases hpc : p c with
  | false => rfl
  | true =>
    rw [hp c hpc] at hname
    cases hname

/-- Points behind a text do not make it start with more of them. -/
theorem take_two_of_append {cs : List Char} (hcs : (cs ++ rest).take 2 = ['.', '.']) :
    cs.take 2 = ['.', '.'] := by
  have hrest : ∀ n xs, rest.take n ≠ '.' :: xs := by
    intro n xs e
    have hhead := congrArg List.head? e
    rw [List.head?_take] at hhead
    split at hhead
    · cases hhead
    · have hfalse := h '.' hhead
      exact absurd hfalse (by decide)
  cases cs with
  | nil => exact absurd hcs (hrest 2 ['.'])
  | cons c cs =>
    cases cs with
    | nil => exact absurd (List.cons.inj hcs).2 (hrest 1 [])
    | cons d cs => exact hcs

theorem piece_word {c : Char} {cs : List Char} (hword : IsWord (c :: cs)) :
    piece c (cs ++ rest) = .token (.word (String.ofList (c :: cs))) cs.length := by
  obtain ⟨hstart, hnames, hpoints⟩ := hword
  have hc : isNameChar c = true := by
    simp only [isWordStart, isNameChar, Char.isAlphanum, Bool.or_eq_true] at hstart ⊢
    rcases hstart with ((hs | hs) | hs) | hs <;> simp [hs]
  have hminus : (c == '-') = false := by
    refine beq_false_of_ne fun e => ?_
    rw [e] at hstart
    exact absurd hstart (by decide)
  have hellipsis : (c == '.' && (cs ++ rest).take 2 == ['.', '.']) = false := by
    refine Bool.eq_false_iff.mpr fun e => hpoints ?_
    rw [Bool.and_eq_true, beq_iff_eq, beq_iff_eq] at e
    exact ⟨e.1, take_two_of_append h e.2⟩
  have hbody : (cs ++ rest).takeWhile isNameChar = cs := by
    rw [takeWhile_append_of_stops h, takeWhile_of_all hnames]
  rw [piece_of_isNameChar hc, hellipsis, isDigit_of_isWordStart hstart, hminus, hstart, hbody]
  rfl

/-- Decimal digits are an integer if nothing goes on behind them. -/
theorem decimal_toDigits (negative : Bool) {n : Nat} (hn : n < 1 <<< 64) :
    decimal negative (Nat.toDigits 10 n ++ rest) =
      .token (.int (if negative then 0 - UInt64.ofNat n else UInt64.ofNat n))
        (if negative then (Nat.toDigits 10 n).length else (Nat.toDigits 10 n).length - 1) := by
  have hwhole : (Nat.toDigits 10 n ++ rest).takeWhile Char.isDigit = Nat.toDigits 10 n := by
    rw [takeWhile_append_of_stops (stops_of_isNameChar h fun _ => isNameChar_of_isDigit),
      takeWhile_of_all fun c hc => Digits.isDigit_of_mem_toDigits hc]
  have hfraction : fraction? rest = none := by
    unfold fraction?
    split
    next rest =>
      exact absurd (h '.' rfl) (by decide)
    · rfl
  have hexponent : exponent? rest = none := by
    cases rest with
    | nil => rfl
    | cons e rest =>
      have he : isNameChar e = false := h e rfl
      have hletter : (e == 'e' || e == 'E') = false := by
        refine Bool.eq_false_iff.mpr fun hletter => ?_
        rcases Bool.or_eq_true_iff.mp hletter with hletter | hletter
        · rw [beq_iff_eq.mp hletter] at he
          exact absurd he (by decide)
        · rw [beq_iff_eq.mp hletter] at he
          exact absurd he (by decide)
      simp [exponent?, hletter]
  dsimp only [decimal]
  rw [hwhole, List.drop_left, hfraction, Option.map_none, Option.getD_none, List.drop_zero, hexponent,
    Digits.natBelow?_toDigits hn]
  rfl

theorem piece_digits (n : UInt64) {c : Char} {cs : List Char}
    (hdigits : Nat.toDigits 10 n.toNat = c :: cs) :
    piece c (cs ++ rest) = .token (.int n) cs.length := by
  have hall : ∀ d ∈ c :: cs, d.isDigit = true := fun d hd =>
    Digits.isDigit_of_mem_toDigits (hdigits ▸ hd)
  have hc := hall c List.mem_cons_self
  have hpoint : (c == '.') = false := by
    refine beq_false_of_ne fun e => ?_
    rw [e] at hc
    exact absurd hc (by decide)
  have hhex : ((cs ++ rest).head? == some 'x') = false := by
    refine beq_false_of_ne fun e => ?_
    cases cs with
    | nil => exact absurd (h 'x' e) (by decide)
    | cons d cs =>
      have hd := hall d (by simp)
      rw [Option.some.inj e] at hd
      exact absurd hd (by decide)
  have hdecimal := decimal_toDigits h false n.toNat_lt
  rw [hdigits, UInt64.ofNat_toNat] at hdecimal
  rw [piece_of_isNameChar (isNameChar_of_isDigit hc), hpoint, hc, hhex, Bool.and_false]
  exact hdecimal

theorem piece_negative {n : Nat} (hn : n < 1 <<< 64) :
    piece '-' (Nat.toDigits 10 n ++ rest) =
      .token (.int (0 - UInt64.ofNat n)) (Nat.toDigits 10 n).length := by
  have hhead : (Nat.toDigits 10 n ++ rest).head?.any Char.isDigit = true := by
    cases hdigits : Nat.toDigits 10 n with
    | nil => exact absurd hdigits Nat.toDigits_ne_nil
    | cons c cs => exact Digits.isDigit_of_mem_toDigits (hdigits ▸ List.mem_cons_self)
  rw [piece_of_isNameChar (by decide), show ('-' == '.') = false by decide, Bool.false_and,
    if_neg Bool.false_ne_true, if_neg (by decide), hhead, if_pos (by decide),
    decimal_toDigits h true hn]
  rfl

/-- Digits in either case are the bits of a number. -/
theorem piece_hexadecimal {ds : List Char} {x : Binary64} (hne : ds ≠ [])
    (hds : ∀ d ∈ ds, Digits.isHex d = true) (hx : Digits.value 16 ds = x.bits.toNat) :
    piece '0' ('x' :: ds ++ rest) = .token (.float x) (ds.length + 1) := by
  have hdigits : (ds ++ rest).takeWhile Digits.isHex = ds := by
    rw [takeWhile_append_of_stops (stops_of_isNameChar h fun _ => isNameChar_of_isHex),
      takeWhile_of_all hds]
  have hvalue : Digits.hexBelow? (1 <<< 64) ds = some x.bits.toNat := by
    rw [Digits.hexBelow?, hx, if_pos ⟨hne, List.all_eq_true.mpr hds, x.bits.toNat_lt⟩]
  rw [piece_of_isNameChar (by decide), show ('0' == '.') = false by decide, Bool.false_and,
    if_neg Bool.false_ne_true, if_pos (by decide), List.cons_append, List.head?_cons,
    if_pos (by decide), List.drop_one, List.tail_cons, hexadecimal, hdigits, hvalue]
  show Piece.token (.float ⟨UInt64.ofNat x.bits.toNat⟩) (ds.length + 1) = _
  rw [UInt64.ofNat_toNat]

theorem piece_hex (x : Binary64) :
    piece '0' ('x' :: Digits.hex 16 x.bits.toNat ++ rest) = .token (.float x) 17 := by
  have hlength := Digits.length_hex 16 x.bits.toNat
  rw [piece_hexadecimal h (fun hnil => ?_) (fun c hc => Digits.isHex_of_mem_hex hc)
    (Digits.value_hex x.bits.toNat_lt), hlength]
  rw [hnil] at hlength
  cases hlength

end

/-- The first character of a name tells what it names. -/
theorem piece_sigil {t : Token} {sigil : Char} {s : String} (h : t.sigil? = some (sigil, s))
    (ht : t.Writable) {cs : List Char} {n : Nat} (hname : name cs = (s, n)) :
    piece sigil cs = .token t n := by
  cases t with
  | loc name | glob name =>
    cases h
    rw [piece, if_neg (by decide), if_neg (by decide), if_pos (by decide), hname]
    exact if_neg (mt String.isEmpty_iff.mp ht.1)
  | attr name | metadata name =>
    cases h
    rw [piece, if_neg (by decide), if_neg (by decide), if_neg (by decide), if_pos (by decide), hname]
    rfl
  | _ => cases h

theorem piece_str {s : String} (hs : Quotable s) (rest : List Char) :
    piece '"' (s.toList ++ ['"'] ++ rest) = .token (.str s) (s.toList ++ ['"']).length := by
  rw [List.append_assoc, List.singleton_append, piece, if_neg (by decide), if_neg (by decide),
    if_neg (by decide), if_neg (by decide), if_pos (by decide), quoted_append hs,
    List.length_append]
  rfl

/-- The text of a token is one piece. -/
theorem piece_text {t : Token} (ht : t.Writable) : ∃ c cs, t.text = c :: cs ∧
    ∀ rest, (t.goesOn = true → Stops isNameChar rest) →
      piece c (cs ++ rest) = .token t cs.length := by
  cases t with
  | loc name | glob name =>
    exact ⟨_, quote name, rfl, fun rest _ => piece_sigil rfl ht (name_quote ht.2 rest)⟩
  | attr name | metadata name =>
    exact ⟨_, quote name, rfl, fun rest _ => piece_sigil rfl ht (name_quote ht rest)⟩
  | str s => exact ⟨'"', s.toList ++ ['"'], rfl, fun rest _ => piece_str ht rest⟩
  | word w =>
    have hword : IsWord w.toList := ht
    cases hw : w.toList with
    | nil =>
      rw [hw] at hword
      exact hword.elim
    | cons c cs =>
      refine ⟨c, cs, hw, fun rest hrest => ?_⟩
      rw [piece_word (hrest rfl) (hw ▸ hword), ← hw, String.ofList_toList]
  | int n =>
    cases hdigits : Nat.toDigits 10 n.toNat with
    | nil => exact absurd hdigits Nat.toDigits_ne_nil
    | cons c cs => exact ⟨c, cs, hdigits, fun rest hrest => piece_digits (hrest rfl) n hdigits⟩
  | float x =>
    refine ⟨'0', 'x' :: Digits.hex 16 x.bits.toNat, rfl, fun rest hrest => ?_⟩
    rw [piece_hex (hrest rfl), List.length_cons, Digits.length_hex]
  | eof => exact ht.elim
  | lparen | rparen | lbrace | rbrace | lbracket | rbracket | langle | rangle | comma | equals
  | colon | star | newline => exact ⟨_, [], rfl, fun _ _ => rfl⟩
  | ellipsis => exact ⟨'.', ['.', '.'], rfl, fun _ _ => rfl⟩

/-! ## Whole texts -/

/-- Tokens with a blank between any two that are not tight. -/
def written (tight : Token → Token → Bool) : List Token → List Char
  | [] => []
  | [t] => t.text
  | t :: u :: ts =>
    t.text ++ ((if tight t u then [] else [' ']) ++ written tight (u :: ts))

/-- What a text is scanned to, without the places. -/
def scanned (start : Nat) (cs : List Char) : List Token × List SyntaxError :=
  ((scanFrom start cs).tokens.map (·.val), (scanFrom start cs).faults.map (·.val))

theorem scanned_nil (start : Nat) : scanned start [] = ([eof], []) := by
  rw [scanned, scanFrom]
  rfl

theorem scanned_blank (start : Nat) (cs : List Char) :
    ∃ later, scanned start (' ' :: cs) = scanned later cs := by
  refine ⟨start + ' '.utf8Size + byteLength (cs.take 0), ?_⟩
  rw [scanned, scanFrom]
  rfl

/-- One token, and then the others. -/
theorem scanned_token {t : Token} {c : Char} {cs rest : List Char}
    (h : piece c (cs ++ rest) = .token t cs.length) (start : Nat) :
    ∃ later, scanned start (c :: cs ++ rest) =
      (t :: (scanned later rest).1, (scanned later rest).2) := by
  rw [List.cons_append, scanned, scanFrom, h]
  refine ⟨start + c.utf8Size + byteLength ((cs ++ rest).take cs.length), ?_⟩
  simp only [Piece.more, List.drop_left]
  rfl

theorem scanned_text {t : Token} (ht : t.Writable) (rest : List Char)
    (hrest : t.goesOn = true → Stops isNameChar rest) (start : Nat) :
    ∃ later, scanned start (t.text ++ rest) =
      (t :: (scanned later rest).1, (scanned later rest).2) := by
  obtain ⟨c, cs, htext, hpiece⟩ := piece_text ht
  rw [htext]
  exact scanned_token (hpiece rest hrest) start

/-- A token that could go on is tight only in front of one that does not prolong it. -/
def Separates (tight : Token → Token → Bool) : Prop :=
  ∀ t u, tight t u = true → t.goesOn = true → ∃ c cs, u.text = c :: cs ∧ isNameChar c = false

theorem exists_written_append (tight : Token → Token → Bool) (t : Token) (ts : List Token) :
    ∃ rest, written tight (t :: ts) = t.text ++ rest := by
  cases ts with
  | nil => exact ⟨[], by rw [written, List.append_nil]⟩
  | cons u ts => exact ⟨_, by rw [written]⟩

theorem scanned_written {tight : Token → Token → Bool} (htight : Separates tight)
    {ts : List Token} (hts : ∀ t ∈ ts, t.Writable) (start : Nat) :
    scanned start (written tight ts) = (ts ++ [eof], []) := by
  induction ts generalizing start with
  | nil => exact scanned_nil start
  | cons t ts ih =>
    have ht := hts t List.mem_cons_self
    cases ts with
    | nil =>
      obtain ⟨later, h⟩ := scanned_text ht [] (fun _ => .nil _) start
      rw [List.append_nil, scanned_nil] at h
      rw [written, h]
      rfl
    | cons u ts =>
      have hlater := ih fun v hv => hts v (List.mem_cons_of_mem t hv)
      rw [written]
      by_cases htu : tight t u = true
      · obtain ⟨more, hmore⟩ := exists_written_append tight u ts
        have hstops : t.goesOn = true → Stops isNameChar (written tight (u :: ts)) := by
          intro hgoes
          obtain ⟨c, cs, hu, hc⟩ := htight t u htu hgoes
          rw [hmore, hu]
          exact .cons hc _
        obtain ⟨later, h⟩ := scanned_text ht _ hstops start
        rw [if_pos htu, List.nil_append, h, hlater]
        rfl
      · obtain ⟨later, h⟩ := scanned_text ht (' ' :: written tight (u :: ts))
          (fun _ => .cons (by decide) _) start
        obtain ⟨later', h'⟩ := scanned_blank later (written tight (u :: ts))
        rw [if_neg htu, List.singleton_append, h, h', hlater]
        rfl

end Token
end SsaGraph
