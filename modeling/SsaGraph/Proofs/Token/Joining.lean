import SsaGraph.Proofs.Lists
import SsaGraph.Token.Scan

/-!
Scanning two texts with a line feed between them.  No piece takes a line feed that is not
its first character, so the pieces of the first text are what they are without the second
one (`piece_line`).  The scan of both is that of the first, up to its end marker, the
line end, and that of the second with every place moved (`scan_append`).
-/

namespace SsaGraph

/-! ## Places moved -/

/-- The span `k` bytes further on, as far as its thirty-two bits go. -/
def Span.shift (k : Nat) (s : Span) : Span := ⟨s.start + UInt32.ofNat k, s.stop + UInt32.ofNat k⟩

def Located.shift {α : Type} (k : Nat) (x : Located α) : Located α :=
  { x with span := x.span.shift k }

theorem Span.shift_of_ofNat {k : Nat} (h : UInt32.ofNat k = 0) (s : Span) : s.shift k = s := by
  simp [shift, h]

theorem Span.shift_ofOffsets (k start stop : Nat) :
    (ofOffsets start stop).shift k = ofOffsets (start + k) (stop + k) := by
  simp [shift, ofOffsets, UInt32.ofNat_add]

@[simp] theorem Located.val_shift {α : Type} (k : Nat) (x : Located α) : (x.shift k).val = x.val := rfl

namespace Token

/-- The tokens in front of the end marker, and others in its place. -/
def carry (tail : List (Located Token)) : List (Located Token) → List (Located Token)
  | [] => tail
  | t :: ts => if t.val = .eof then tail else t :: carry tail ts

theorem carry_cons {tail : List (Located Token)} {t : Located Token} (ht : t.val ≠ .eof)
    (ts : List (Located Token)) : carry tail (t :: ts) = t :: carry tail ts := if_neg ht

/-! ## Pieces in front of a line feed -/

section
variable (rest : List Char)

/-- A line feed behind the characters is not taken for another one. -/
theorem head?_line {c : Char} (hc : c ≠ '\n') (cs : List Char) :
    (cs ++ '\n' :: rest).head? = some c ↔ cs.head? = some c := by
  cases cs with
  | nil => exact ⟨fun h => absurd (Option.some.inj h).symm hc, fun h => nomatch h⟩
  | cons d cs => rfl

theorem takeWhile_line {p : Char → Bool} (hp : p '\n' = false) (cs : List Char) :
    (cs ++ '\n' :: rest).takeWhile p = cs.takeWhile p := takeWhile_append_of_stops (.cons hp rest) cs

theorem length_takeWhile_le {α : Type} (p : α → Bool) (xs : List α) :
    (xs.takeWhile p).length ≤ xs.length := (List.takeWhile_prefix p).length_le

theorem quoted_line (cs : List Char) : quoted (cs ++ '\n' :: rest) = quoted cs := by
  have hbody := takeWhile_line rest (p := isQuotable) (by decide) cs
  have hclosed : ∀ ds : List Char,
      ((ds ++ '\n' :: rest).head? == some '"') = (ds.head? == some '"') := by
    intro ds
    rw [Bool.eq_iff_iff, beq_iff_eq, beq_iff_eq, head?_line rest (by decide)]
  unfold quoted
  simp only [hbody, List.drop_append_of_le_length (length_takeWhile_le isQuotable cs), hclosed]

theorem quoted_taken_le (cs : List Char) : (quoted cs).2.1 ≤ cs.length := by
  have hbody := length_takeWhile_le isQuotable cs
  unfold quoted
  simp only
  split
  next hclosed =>
    have hhead : (cs.drop (cs.takeWhile isQuotable).length).head? ≠ none := by
      rw [beq_iff_eq] at hclosed
      rw [hclosed]
      exact Option.some_ne_none _
    have hne := mt List.head?_eq_none_iff.mpr hhead
    have hpos := List.length_pos_iff.mpr hne
    rw [List.length_drop] at hpos
    omega
  · exact hbody

/-- A name that does not start with a quote is made of name characters. -/
theorem name_of_ne {cs : List Char} (h : cs.head? ≠ some '"') :
    name cs = (String.ofList (cs.takeWhile isNameChar), (cs.takeWhile isNameChar).length) := by
  unfold name
  split
  · exact absurd rfl h
  · rfl

theorem name_line (cs : List Char) : name (cs ++ '\n' :: rest) = name cs := by
  by_cases h : cs.head? = some '"'
  · obtain ⟨cs, rfl⟩ := List.head?_eq_some_iff.mp h
    show ((quoted (cs ++ '\n' :: rest)).1, (quoted (cs ++ '\n' :: rest)).2.1 + 1) = _
    rw [quoted_line]
    rfl
  · have hjoined := mt (head?_line rest (by decide) cs).mp h
    rw [name_of_ne hjoined, name_of_ne h, takeWhile_line rest (by decide)]

theorem name_taken_le (cs : List Char) : (name cs).2 ≤ cs.length := by
  by_cases h : cs.head? = some '"'
  · obtain ⟨cs, rfl⟩ := List.head?_eq_some_iff.mp h
    exact Nat.succ_le_succ (quoted_taken_le cs)
  · rw [name_of_ne h]
    exact length_takeWhile_le isNameChar cs

theorem fraction?_of_ne {cs : List Char} (h : cs.head? ≠ some '.') : fraction? cs = none := by
  unfold fraction?
  split
  · exact absurd rfl h
  · rfl

theorem fraction?_line (cs : List Char) : fraction? (cs ++ '\n' :: rest) = fraction? cs := by
  by_cases h : cs.head? = some '.'
  · obtain ⟨cs, rfl⟩ := List.head?_eq_some_iff.mp h
    simp only [List.cons_append, fraction?, takeWhile_line rest (p := Char.isDigit) (by decide)]
  · rw [fraction?_of_ne (mt (head?_line rest (by decide) cs).mp h), fraction?_of_ne h]

theorem fraction?_size_le (cs : List Char) :
    ((fraction? cs).map fun ds => ds.length + 1).getD 0 ≤ cs.length := by
  unfold fraction?
  split
  next rest =>
    have hdigits := length_takeWhile_le Char.isDigit rest
    split
    · exact Nat.zero_le _
    · exact Nat.succ_le_succ hdigits
  · exact Nat.zero_le _

theorem sign_line (cs : List Char) :
    ((cs ++ '\n' :: rest).take 1).filter (fun c => c == '+' || c == '-') =
      (cs.take 1).filter fun c => c == '+' || c == '-' := by
  cases cs with
  | nil => rfl
  | cons c cs => rfl

theorem length_sign_le (cs : List Char) :
    ((cs.take 1).filter fun c => c == '+' || c == '-').length ≤ cs.length :=
  Nat.le_trans (List.length_filter_le _ _) (List.length_take_le' 1 cs)

theorem exponent?_line (cs : List Char) : exponent? (cs ++ '\n' :: rest) = exponent? cs := by
  cases cs with
  | nil => rfl
  | cons e cs =>
    simp only [List.cons_append, exponent?, sign_line,
      List.drop_append_of_le_length (length_sign_le cs),
      takeWhile_line rest (p := Char.isDigit) (by decide)]

theorem exponent?_size_le (cs : List Char) :
    ((exponent? cs).map fun e => e.1.length + e.2.length + 1).getD 0 ≤ cs.length := by
  cases cs with
  | nil => exact Nat.zero_le _
  | cons e cs =>
    have hsign := length_sign_le cs
    have hdigits := length_takeWhile_le Char.isDigit
      (cs.drop ((cs.take 1).filter fun c => c == '+' || c == '-').length)
    rw [List.length_drop] at hdigits
    unfold exponent?
    simp only
    split
    · split
      · exact Nat.zero_le _
      · simp only [Option.map_some, Option.getD_some, List.length_cons]
        omega
    · exact Nat.zero_le _

theorem hexadecimal_line (cs : List Char) : hexadecimal (cs ++ '\n' :: rest) = hexadecimal cs := by
  unfold hexadecimal
  rw [takeWhile_line rest (by decide)]

theorem decimal_line (negative : Bool) (cs : List Char) :
    decimal negative (cs ++ '\n' :: rest) = decimal negative cs := by
  unfold decimal
  simp only [takeWhile_line rest (p := Char.isDigit) (by decide),
    List.drop_append_of_le_length (length_takeWhile_le Char.isDigit cs), fraction?_line,
    List.drop_append_of_le_length (fraction?_size_le _), exponent?_line]

theorem take_two_line (cs : List Char) :
    ((cs ++ '\n' :: rest).take 2 == ['.', '.']) = (cs.take 2 == ['.', '.']) := by
  rcases cs with _ | ⟨a, _ | ⟨b, cs⟩⟩
  · rfl
  · show (a == '.' && ('\n' == '.' && true)) = (a == '.' && false)
    rfl
  · rfl

/-- A number does not go past a line feed behind it. -/
theorem number_line (c : Char) (cs : List Char) :
    (if c == '0' && (cs ++ '\n' :: rest).head? == some 'x' then
        hexadecimal ((cs ++ '\n' :: rest).drop 1)
      else decimal false (c :: (cs ++ '\n' :: rest))) =
      if c == '0' && cs.head? == some 'x' then hexadecimal (cs.drop 1)
      else decimal false (c :: cs) := by
  have hdecimal := decimal_line rest false (c :: cs)
  rw [List.cons_append] at hdecimal
  cases cs with
  | nil => rw [hdecimal]; simp
  | cons d cs =>
    rw [hdecimal, List.cons_append, List.drop_one, List.tail_cons, hexadecimal_line]
    rfl

theorem isDigit_head?_line (cs : List Char) :
    (cs ++ '\n' :: rest).head?.any Char.isDigit = cs.head?.any Char.isDigit := by
  cases cs with
  | nil => rfl
  | cons c cs => rfl

/-- No piece depends on what stands behind the line. -/
theorem piece_line (c : Char) (cs : List Char) : piece c (cs ++ '\n' :: rest) = piece c cs := by
  unfold piece
  simp only [takeWhile_line rest (p := (· != '\n')) (by decide), name_line, quoted_line,
    take_two_line, number_line, isDigit_head?_line, decimal_line,
    takeWhile_line rest (p := isNameChar) (by decide)]

end

/-! ## Pieces and the characters that are left -/

def Piece.token? : Piece → Option Token
  | token t _ | flawed t _ _ => some t
  | _ => none

/-- What holds of every piece that starts with `c` and goes on in `cs`: it takes no more
characters than there are, is not the end marker, is a line end only if `c` is one, and is
skipped only if it is a blank or a comment. -/
structure Piece.Fits (c : Char) (cs : List Char) (p : Piece) : Prop where
  more_le : p.more ≤ cs.length
  ne_eof : p.token? ≠ some .eof
  newline : p.token? = some .newline → c = '\n'
  skipped : ∀ n, p = .skipped n → isBlank c = true ∧ n = 0 ∨
    c = ';' ∧ n = (cs.takeWhile (· != '\n')).length

section
variable {c : Char} {cs : List Char} {n : Nat}

theorem fits_skipped (hle : n ≤ cs.length) (h : isBlank c = true ∧ n = 0 ∨
    c = ';' ∧ n = (cs.takeWhile (· != '\n')).length) : Piece.Fits c cs (.skipped n) where
  more_le := hle
  ne_eof := nofun
  newline := nofun
  skipped k hk := by
    cases hk
    exact h

theorem fits_fault {e : SyntaxError} (h : n ≤ cs.length) : Piece.Fits c cs (.fault e n) where
  more_le := h
  ne_eof := nofun
  newline := nofun
  skipped := nofun

/-- A token is no mark, or it is the one that `c` is. -/
theorem fits_token {t : Token} (heof : t ≠ .eof) (hnewline : t = .newline → c = '\n')
    (h : n ≤ cs.length) : Piece.Fits c cs (.token t n) where
  more_le := h
  ne_eof he := heof (Option.some.inj he)
  newline he := hnewline (Option.some.inj he)
  skipped := nofun

theorem punctuation?_ne_eof {t : Token} (h : punctuation? c = some t) : t ≠ .eof := by
  rintro rfl
  unfold punctuation? at h
  split at h <;> cases h

theorem eq_of_punctuation? (h : punctuation? c = some .newline) : c = '\n' := by
  unfold punctuation? at h
  split at h
  · rfl
  all_goals cases h

theorem fits_hexadecimal {x : Char} : Piece.Fits c (x :: cs) (hexadecimal cs) := by
  have hdigits := Nat.succ_le_succ (length_takeWhile_le Digits.isHex cs)
  unfold hexadecimal
  simp only
  split
  · exact fits_token Token.noConfusion Token.noConfusion hdigits
  · exact fits_fault hdigits

/-- A sign is in front of the characters of a negative numeral; otherwise the first of
them is not counted. -/
theorem fits_decimal {negative : Bool} {ds : List Char}
    (h : cs.length ≤ if negative then ds.length else ds.length + 1) :
    Piece.Fits c ds (decimal negative cs) := by
  unfold decimal
  extract_lets whole afterWhole fraction fractionSize exponent exponentSize size more
  have hwhole : whole.length ≤ cs.length := length_takeWhile_le Char.isDigit cs
  have hfraction : fractionSize ≤ cs.length - whole.length := by
    rw [← List.length_drop]
    exact fraction?_size_le afterWhole
  have hexponent : exponentSize ≤ cs.length - whole.length - fractionSize := by
    rw [← List.length_drop, ← List.length_drop]
    exact exponent?_size_le (afterWhole.drop fractionSize)
  have hmore : more ≤ ds.length := by
    cases negative with
    | true => exact Nat.le_trans (show size ≤ cs.length by omega) h
    | false => exact Nat.sub_le_of_le_add (Nat.le_trans (show size ≤ cs.length by omega) h)
  split
  · split
    · exact fits_token Token.noConfusion Token.noConfusion hmore
    · exact fits_fault hmore
  · exact fits_token Token.noConfusion Token.noConfusion hmore

end

theorem Piece.Fits.ite {b : Prop} [Decidable b] {c : Char} {cs : List Char} {p q : Piece}
    (hp : b → p.Fits c cs) (hq : q.Fits c cs) : (if b then p else q).Fits c cs := by
  by_cases h : b
  · rw [if_pos h]
    exact hp h
  · rw [if_neg h]
    exact hq

theorem fits_piece (c : Char) (cs : List Char) : (piece c cs).Fits c cs := by
  have hname := name_taken_le cs
  have hquoted := quoted_taken_le cs
  unfold piece
  refine .ite (fun hc => ?_) (.ite (fun hc => ?_) ?_)
  · exact fits_skipped (length_takeWhile_le _ cs) (.inr ⟨beq_iff_eq.mp hc, rfl⟩)
  · exact fits_skipped (Nat.zero_le _) (.inl ⟨hc, rfl⟩)
  split
  next t ht =>
    refine fits_token (punctuation?_ne_eof ht) (fun hnewline => ?_) (Nat.zero_le _)
    exact eq_of_punctuation? (hnewline ▸ ht)
  refine .ite (fun _ => ?_) (.ite (fun _ => ?_) (.ite (fun _ => ?_) (.ite (fun hdots => ?_) ?_)))
  · refine .ite (fun _ => fits_fault hname) ?_
    split <;> exact fits_token Token.noConfusion Token.noConfusion hname
  · simp only
    split <;> exact fits_token Token.noConfusion Token.noConfusion hname
  · refine .ite (fun _ => fits_token Token.noConfusion Token.noConfusion hquoted) ?_
    exact ⟨hquoted, Option.some_inj.not.mpr Token.noConfusion,
      fun h => Token.noConfusion (Option.some.inj h), nofun⟩
  · rw [Bool.and_eq_true_iff, beq_iff_eq, beq_iff_eq] at hdots
    have htwo := List.length_take_le' 2 cs
    rw [hdots.2] at htwo
    exact fits_token Token.noConfusion Token.noConfusion htwo
  refine .ite (fun _ => .ite (fun hx => ?_) (fits_decimal (Nat.le_refl _)))
    (.ite (fun _ => fits_decimal (Nat.le_refl _)) (.ite (fun _ => ?_) ?_))
  · rw [Bool.and_eq_true_iff, beq_iff_eq, beq_iff_eq] at hx
    obtain ⟨cs, rfl⟩ := List.head?_eq_some_iff.mp hx.2
    exact fits_hexadecimal
  · exact fits_token Token.noConfusion Token.noConfusion (length_takeWhile_le isNameChar cs)
  · exact ⟨Nat.zero_le _, nofun, nofun, nofun⟩

/-! ## Bytes -/

theorem byteLength_cons (c : Char) (cs : List Char) :
    byteLength (c :: cs) = c.utf8Size + byteLength cs := by
  have hfrom : ∀ (cs : List Char) (n : Nat),
      cs.foldl (fun n c => n + c.utf8Size) n = n + byteLength cs := by
    intro cs
    induction cs with
    | nil => exact fun n => rfl
    | cons c cs ih =>
      intro n
      rw [byteLength, List.foldl_cons, List.foldl_cons, ih, ih, Nat.zero_add, Nat.add_assoc]
  rw [byteLength, List.foldl_cons, hfrom, Nat.zero_add]

theorem byteLength_append (cs ds : List Char) :
    byteLength (cs ++ ds) = byteLength cs + byteLength ds := by
  induction cs with
  | nil => exact (Nat.zero_add _).symm
  | cons c cs ih => rw [List.cons_append, byteLength_cons, byteLength_cons, ih, Nat.add_assoc]

theorem byteLength_toList (text : String) : byteLength text.toList = text.utf8ByteSize := by
  have hchars : ∀ cs : List Char, (String.ofList cs).utf8ByteSize = byteLength cs := by
    intro cs
    induction cs with
    | nil => rfl
    | cons c cs ih =>
      rw [← List.singleton_append, String.ofList_append, String.utf8ByteSize_append, ih,
        byteLength_append, byteLength_cons, ← String.singleton_eq_ofList,
        String.utf8ByteSize_singleton]
      rfl
  rw [← hchars, String.ofList_toList]

/-! ## The scan of both texts -/

def Scan.shift (k : Nat) (s : Scan) : Scan :=
  ⟨s.tokens.map (·.shift k), s.faults.map (·.shift k)⟩

/-- The first scan without its end marker, the line end at `place` and the second scan. -/
def Scan.join (s : Scan) (place : Span) (t : Scan) : Scan :=
  ⟨carry (⟨.newline, place⟩ :: t.tokens) s.tokens, s.faults ++ t.faults⟩

theorem strayFaults_shift (k : Nat) (c : Char) (offset : Nat) :
    strayFaults c (offset + k) = (strayFaults c offset).map (·.shift k) := by
  have hplace : ∀ i, Span.ofOffsets (offset + k + i) (offset + k + i + 1) =
      (Span.ofOffsets (offset + i) (offset + i + 1)).shift k := by
    intro i
    rw [Span.shift_ofOffsets, Nat.add_right_comm offset k i, Nat.add_right_comm (offset + i) k 1]
  refine List.ext_getElem? fun i => ?_
  simp only [strayFaults, List.getElem?_map, List.getElem?_mapIdx, Option.map_map, hplace]
  rfl

theorem onto_shift (p : Piece) (k : Nat) (c : Char) (start stop : Nat) (s : Scan) :
    p.onto c (start + k) (stop + k) (s.shift k) = (p.onto c start stop s).shift k := by
  cases p <;> simp [Piece.onto, Scan.shift, Located.shift, Span.shift_ofOffsets, strayFaults_shift]

/-- The places of a scan are counted from where it starts. -/
theorem scanFrom_shift (k start : Nat) (cs : List Char) :
    scanFrom (start + k) cs = (scanFrom start cs).shift k := by
  fun_induction scanFrom start cs with
  | case1 start => simp [scanFrom, Scan.shift, Located.shift, Span.shift_ofOffsets]
  | case2 start c cs p stop ih =>
    have hstop : start + k + c.utf8Size + byteLength (cs.take p.more) = stop + k := by omega
    rw [scanFrom, hstop, ih]
    exact onto_shift p k c start stop _

theorem tokens_subset_onto (p : Piece) (c : Char) (start stop : Nat) (s : Scan) :
    s.tokens ⊆ (p.onto c start stop s).tokens := by
  cases p with
  | skipped n => exact List.Subset.refl _
  | token t n => exact List.subset_cons_self _ _
  | flawed t e n => exact List.subset_cons_self _ _
  | fault e n => exact List.Subset.refl _
  | stray => exact List.Subset.refl _

/-- Every scan has an end marker. -/
theorem exists_eof_scanFrom (start : Nat) (cs : List Char) :
    ∃ t ∈ (scanFrom start cs).tokens, t.val = .eof := by
  fun_induction scanFrom start cs with
  | case1 start => exact ⟨_, List.mem_cons_self, rfl⟩
  | case2 start c cs p stop ih =>
    obtain ⟨t, ht, he⟩ := ih
    exact ⟨t, tokens_subset_onto _ _ _ _ _ ht, he⟩

/-- What a piece gives comes in front of the second text too. -/
theorem onto_join {p : Piece} (hp : p.token? ≠ some .eof) (c : Char) (start stop : Nat) (place : Span)
    (s t : Scan) : p.onto c start stop (s.join place t) = (p.onto c start stop s).join place t := by
  have hcarry : ∀ u span, p.token? = some u →
      carry (⟨.newline, place⟩ :: t.tokens) (⟨u, span⟩ :: s.tokens) =
        ⟨u, span⟩ :: carry (⟨.newline, place⟩ :: t.tokens) s.tokens :=
    fun u span hu => carry_cons (fun he => hp (hu.trans (congrArg some he))) s.tokens
  cases p with
  | skipped n => rfl
  | token u n => simp only [Piece.onto, Scan.join, hcarry u _ rfl]
  | flawed u e n => simp only [Piece.onto, Scan.join, hcarry u _ rfl, List.cons_append]
  | fault e n => rfl
  | stray => simp only [Piece.onto, Scan.join, List.append_assoc]

theorem scanFrom_append (start : Nat) (cs ds : List Char) :
    scanFrom start (cs ++ '\n' :: ds) =
      (scanFrom start cs).join (.ofOffsets (start + byteLength cs) (start + byteLength cs + 1))
        (scanFrom (start + byteLength cs + 1) ds) := by
  fun_induction scanFrom start cs with
  | case1 start =>
    rw [List.nil_append, scanFrom]
    rfl
  | case2 start c cs p stop ih =>
    have hfits := fits_piece c cs
    have hstop : stop + byteLength (cs.drop p.more) = start + byteLength (c :: cs) := by
      have hparts := byteLength_append (cs.take p.more) (cs.drop p.more)
      rw [List.take_append_drop] at hparts
      rw [byteLength_cons]
      omega
    rw [List.cons_append, scanFrom, piece_line, List.take_append_of_le_length hfits.more_le,
      List.drop_append_of_le_length hfits.more_le, ih, hstop]
    exact onto_join hfits.ne_eof c _ _ _ _ _

/-- Scanning two texts with a line feed between them. -/
theorem scan_append (a b : String) :
    scan (a ++ "\n" ++ b) =
      (scan a).join (.ofOffsets a.utf8ByteSize (a.utf8ByteSize + 1))
        ((scan b).shift (a.utf8ByteSize + 1)) := by
  have hchars : (a ++ "\n" ++ b).toList = a.toList ++ '\n' :: b.toList := by
    rw [String.toList_append, String.toList_append, List.append_assoc]
    rfl
  rw [scan, hchars, scanFrom_append, byteLength_toList, Nat.zero_add, scan, scan, ← scanFrom_shift,
    Nat.zero_add]

end Token
end SsaGraph
