import SsaGraph.Proofs.Token.Joining

/-!
Every byte of a text is accounted for by its scan.  The pieces of a text follow one
another without gaps, so a byte belongs to one of them: to a token, to a fault, or to
something that is skipped, which is a blank or a comment (`Accounts`).  No piece but a line
end holds a line feed, so the line ends among the tokens are the line feeds of the text.
-/

namespace SsaGraph

/-! ## Bytes of a text -/

namespace Text

/-- The bytes of characters in UTF-8. -/
def encoded (cs : List Char) : List UInt8 := cs.flatMap String.utf8EncodeChar

def bytes (text : String) : List UInt8 := text.toUTF8.data.toList

theorem bytes_eq (text : String) : bytes text = encoded text.toList := by
  rw [bytes, String.toUTF8_eq_toByteArray, ← String.utf8Encode_toList]
  exact List.toList_data_toByteArray

theorem encoded_cons (c : Char) (cs : List Char) :
    encoded (c :: cs) = String.utf8EncodeChar c ++ encoded cs := List.flatMap_cons

theorem encoded_append (cs ds : List Char) : encoded (cs ++ ds) = encoded cs ++ encoded ds :=
  List.flatMap_append

theorem length_encoded (cs : List Char) : (encoded cs).length = Token.byteLength cs := by
  induction cs with
  | nil => rfl
  | cons c cs ih =>
    rw [encoded_cons, List.length_append, String.length_utf8EncodeChar, ih, Token.byteLength_cons]

theorem length_bytes (text : String) : (bytes text).length = text.utf8ByteSize := by
  rw [bytes_eq, length_encoded, Token.byteLength_toList]

/-- Only a character of ASCII has a byte of ASCII. -/
theorem toNat_of_mem_utf8EncodeChar {c : Char} {b : UInt8} (hb : b ∈ String.utf8EncodeChar c)
    (hlt : b.toNat < 128) : c.toNat = b.toNat := by
  -- Every byte of a longer encoding has its highest bit set.
  have hhigh : ∀ {x : Nat}, 128 ≤ x → x < 256 → b ≠ UInt8.ofNat x := by
    intro x hlow hx he
    rw [he, UInt8.toNat_ofNat_of_lt' hx] at hlt
    omega
  delta String.utf8EncodeChar at hb
  simp only at hb
  split at hb
  next hsmall =>
    have hsmall : c.toNat ≤ 127 := hsmall
    rw [List.mem_singleton.mp hb]
    exact (UInt8.toNat_ofNat_of_lt' (show c.toNat < 256 by omega)).symm
  split at hb
  · simp only [List.mem_cons, List.not_mem_nil, or_false] at hb
    rcases hb with hb | hb <;> exact absurd hb (hhigh (by omega) (by omega))
  split at hb
  · simp only [List.mem_cons, List.not_mem_nil, or_false] at hb
    rcases hb with hb | hb | hb <;> exact absurd hb (hhigh (by omega) (by omega))
  · simp only [List.mem_cons, List.not_mem_nil, or_false] at hb
    rcases hb with hb | hb | hb | hb <;> exact absurd hb (hhigh (by omega) (by omega))

theorem eq_newline_of_mem {c : Char} (h : 0x0a ∈ String.utf8EncodeChar c) : c = '\n' :=
  Char.toNat_inj.mp (toNat_of_mem_utf8EncodeChar h (by decide))

end Text

/-- The bytes from `start` to `stop` are those of the characters. -/
def Text.Holds (bs : List UInt8) (start stop : Nat) (cs : List Char) : Prop :=
  ∃ before after, bs = before ++ (encoded cs ++ after) ∧ start = before.length ∧
    stop = before.length + Token.byteLength cs

/-- No byte from `start` to `stop` is a line feed. -/
def Text.OneLine (bs : List UInt8) (start stop : Nat) : Prop :=
  ∀ k, start ≤ k → k < stop → bs[k]? ≠ some 0x0a

namespace Text

section
variable {bs : List UInt8} {start stop : Nat} {cs : List Char} {k : Nat}

theorem holds_bytes (text : String) : Holds (bytes text) 0 (bytes text).length text.toList :=
  ⟨[], [], by rw [bytes_eq, List.append_nil, List.nil_append], rfl, by
    rw [bytes_eq, length_encoded, List.length_nil, Nat.zero_add]⟩

theorem Holds.split {ds : List Char} (h : Holds bs start stop (cs ++ ds)) :
    Holds bs start (start + Token.byteLength cs) cs ∧
      Holds bs (start + Token.byteLength cs) stop ds := by
  obtain ⟨before, after, hbs, rfl, rfl⟩ := h
  rw [encoded_append, List.append_assoc] at hbs
  refine ⟨⟨before, _, hbs, rfl, rfl⟩, before ++ encoded cs, after, ?_, ?_, ?_⟩
  · rw [hbs, List.append_assoc]
  · rw [List.length_append, length_encoded]
  · rw [List.length_append, length_encoded, Token.byteLength_append, Nat.add_assoc]

theorem Holds.stop_eq (h : Holds bs start stop cs) : stop = start + Token.byteLength cs := by
  obtain ⟨before, after, -, rfl, rfl⟩ := h
  rfl

theorem Holds.stop_le (h : Holds bs start stop cs) : stop ≤ bs.length := by
  obtain ⟨before, after, rfl, rfl, rfl⟩ := h
  simp only [List.length_append, length_encoded]
  omega

/-- Each of the bytes is one of some character. -/
theorem Holds.exists_mem (h : Holds bs start stop cs) (hstart : start ≤ k) (hstop : k < stop) :
    ∃ c ∈ cs, ∃ b ∈ String.utf8EncodeChar c, bs[k]? = some b := by
  obtain ⟨before, after, rfl, rfl, rfl⟩ := h
  have hlt : k - before.length < (encoded cs).length := by
    rw [length_encoded]
    omega
  obtain ⟨c, hc, hb⟩ := List.mem_flatMap.mp (List.getElem_mem hlt)
  refine ⟨c, hc, _, hb, ?_⟩
  rw [List.getElem?_append_right hstart, List.getElem?_append_left hlt, List.getElem?_eq_getElem hlt]

theorem Holds.first {c : Char} {b : UInt8} (h : Holds bs start stop (c :: cs))
    (hc : String.utf8EncodeChar c = [b]) : bs[start]? = some b := by
  obtain ⟨before, after, rfl, rfl, rfl⟩ := h
  rw [encoded_cons, hc]
  simp

/-- Characters on one line have no byte that is a line feed. -/
theorem Holds.oneLine (h : Holds bs start stop cs) (hcs : '\n' ∉ cs) : OneLine bs start stop := by
  intro k hstart hstop hfeed
  obtain ⟨c, hc, b, hb, hget⟩ := h.exists_mem hstart hstop
  rw [hfeed] at hget
  cases hget
  exact hcs (eq_newline_of_mem hb ▸ hc)

end

end Text

/-! ## Spans -/

namespace Span

instance : Membership Nat Span := ⟨fun s k => s.start.toNat ≤ k ∧ k < s.stop.toNat⟩

theorem mem_iff {s : Span} {k : Nat} : k ∈ s ↔ s.start.toNat ≤ k ∧ k < s.stop.toNat := Iff.rfl

/-- A span that is not empty and has ended where another starts. -/
def Before (a b : Span) : Prop := a.start < a.stop ∧ a.stop ≤ b.start

/-- No byte of the span is a line feed. -/
def OnLine (bs : List UInt8) (s : Span) : Prop := ∀ k ∈ s, bs[k]? ≠ some 0x0a

/-- The offsets of a span in a text that is not too long. -/
theorem toNat_ofOffsets {start stop : Nat} (hle : start ≤ stop) (hlt : stop < UInt32.size) :
    (ofOffsets start stop).start.toNat = start ∧ (ofOffsets start stop).stop.toNat = stop :=
  ⟨UInt32.toNat_ofNat_of_lt' (Nat.lt_of_le_of_lt hle hlt), UInt32.toNat_ofNat_of_lt' hlt⟩

end Span

namespace Token

/-! ## What a piece gives -/

/-- The token of a piece, with its place. -/
def Piece.located (span : Span) (p : Piece) : List (Located Token) :=
  (p.token?.map fun t => ⟨t, span⟩).toList

/-- The faults that a piece is reported with. -/
def Piece.reports (c : Char) (start stop : Nat) : Piece → List (Located SyntaxError)
  | skipped _ | token _ _ => []
  | flawed _ e _ | fault e _ => [⟨e, .ofOffsets start stop⟩]
  | stray => strayFaults c start

section
variable {p : Piece} {c : Char} {start stop : Nat}

theorem tokens_onto (p : Piece) (c : Char) (start stop : Nat) (s : Scan) :
    (p.onto c start stop s).tokens = p.located (.ofOffsets start stop) ++ s.tokens := by
  cases p <;> rfl

theorem faults_onto (p : Piece) (c : Char) (start stop : Nat) (s : Scan) :
    (p.onto c start stop s).faults = p.reports c start stop ++ s.faults := by
  cases p <;> rfl

theorem mem_located {span : Span} {t : Located Token} :
    t ∈ p.located span ↔ p.token? = some t.val ∧ t.span = span := by
  rw [Piece.located, Option.mem_toList, Option.map_eq_some_iff]
  constructor
  · rintro ⟨v, hv, rfl⟩
    exact ⟨hv, rfl⟩
  · rintro ⟨hv, rfl⟩
    exact ⟨t.val, hv, rfl⟩

theorem mem_strayFaults {offset : Nat} {e : Located SyntaxError} (h : e ∈ strayFaults c offset) :
    ∃ i < c.utf8Size, e.span = .ofOffsets (offset + i) (offset + i + 1) := by
  obtain ⟨i, hi, rfl⟩ := List.mem_mapIdx.mp h
  rw [String.length_utf8EncodeChar] at hi
  exact ⟨i, hi, rfl⟩

theorem exists_strayFaults (offset : Nat) {i : Nat} (h : i < c.utf8Size) :
    ∃ e ∈ strayFaults c offset, e.span = .ofOffsets (offset + i) (offset + i + 1) := by
  rw [← String.length_utf8EncodeChar] at h
  exact ⟨_, List.mem_mapIdx.mpr ⟨i, h, rfl⟩, rfl⟩

/-- What is reported lies in the piece. -/
theorem mem_of_mem_reports (hsize : start + c.utf8Size ≤ stop) (hlt : stop < UInt32.size)
    {e : Located SyntaxError} (he : e ∈ p.reports c start stop) :
    start ≤ e.span.start.toNat ∧ e.span.stop.toNat ≤ stop := by
  cases p with
  | skipped n | token t n => cases he
  | flawed t f n | fault f n =>
    rw [List.mem_singleton.mp he]
    obtain ⟨hstart, hstop⟩ := Span.toNat_ofOffsets (show start ≤ stop by omega) hlt
    exact ⟨Nat.le_of_eq hstart.symm, Nat.le_of_eq hstop⟩
  | stray =>
    obtain ⟨i, hi, hspan⟩ := mem_strayFaults he
    obtain ⟨hstart, hstop⟩ := Span.toNat_ofOffsets (show start + i ≤ start + i + 1 by omega)
      (show start + i + 1 < UInt32.size by omega)
    rw [hspan, hstart, hstop]
    omega

/-- A piece is a token, or is skipped, or all of it is reported. -/
theorem exists_report (hsize : p = .stray → stop = start + c.utf8Size) (hlt : stop < UInt32.size)
    {k : Nat} (hk : start ≤ k) (hk' : k < stop) : (∃ t, p.token? = some t) ∨ (∃ n, p = .skipped n) ∨
      ∃ e ∈ p.reports c start stop, k ∈ e.span := by
  cases p with
  | skipped n => exact .inr (.inl ⟨n, rfl⟩)
  | token t n | flawed t e n => exact .inl ⟨t, rfl⟩
  | fault e n =>
    obtain ⟨hstart, hstop⟩ := Span.toNat_ofOffsets (show start ≤ stop by omega) hlt
    refine .inr (.inr ⟨_, List.mem_singleton_self _, ?_⟩)
    rw [Span.mem_iff, hstart, hstop]
    exact ⟨hk, hk'⟩
  | stray =>
    have hsize := hsize rfl
    have hi : k - start < c.utf8Size := by omega
    obtain ⟨e, he, hspan⟩ := exists_strayFaults start hi
    obtain ⟨hstart, hstop⟩ := Span.toNat_ofOffsets
      (show start + (k - start) ≤ start + (k - start) + 1 by omega)
      (show start + (k - start) + 1 < UInt32.size by omega)
    refine .inr (.inr ⟨e, he, ?_⟩)
    rw [hspan, Span.mem_iff, hstart, hstop]
    omega

end

theorem piece_newline (cs : List Char) : piece '\n' cs = .token .newline 0 := by
  rw [piece, if_neg (by decide), if_neg (by decide)]
  rfl

/-- No piece goes past the end of a line. -/
theorem newline_not_mem_take (c : Char) (cs : List Char) : '\n' ∉ cs.take (piece c cs).more := by
  by_cases h : '\n' ∈ cs
  · -- The piece is the same without the line feed, and takes no more than there is.
    obtain ⟨line, rest, rfl, hline⟩ := List.eq_append_cons_of_mem h
    have hmore := (fits_piece c line).more_le
    rw [piece_line, List.take_append_of_le_length hmore]
    exact fun hmem => hline (List.mem_of_mem_take hmem)
  · exact fun hmem => h (List.mem_of_mem_take hmem)

/-! ## What a scan accounts for -/

def isBlankByte (b : UInt8) : Bool := b == 0x20 || b == 0x09 || b == 0x0d || b == 0x0c

/-- No token and no fault of the scan has byte `k`. -/
def Scan.Omits (s : Scan) (k : Nat) : Prop :=
  (∀ t ∈ s.tokens, k ∉ t.span) ∧ ∀ e ∈ s.faults, k ∉ e.span

/-- The bytes from `start` to `stop` are a semicolon and everything behind it on its line.  No
token and no fault touches them. -/
structure Comment (bs : List UInt8) (s : Scan) (start stop : Nat) : Prop where
  opens : bs[start]? = some 0x3b
  oneLine : Text.OneLine bs start stop
  ends : stop = bs.length ∨ bs[stop]? = some 0x0a
  apart : ∀ k, start ≤ k → k < stop → s.Omits k

/-- The scan of the bytes from `start` on leaves none of them out. -/
structure Accounts (bs : List UInt8) (start : Nat) (s : Scan) : Prop where
  /-- There is one end marker, behind everything. -/
  ends : ∃ ts last, s.tokens = ts ++ [⟨.eof, last⟩] ∧ last.start.toNat = bs.length ∧
    last.stop.toNat = bs.length ∧ ∀ t ∈ ts, t.val ≠ .eof
  inside : ∀ t ∈ s.tokens, start ≤ t.span.start.toNat ∧ t.span.stop.toNat ≤ bs.length
  /-- Tokens are in order and disjoint, and none but the last is empty. -/
  ordered : s.tokens.Pairwise fun a b => a.span.Before b.span
  reported : ∀ e ∈ s.faults, start ≤ e.span.start.toNat ∧ e.span.stop.toNat ≤ bs.length
  /-- The line ends are the line feeds. -/
  newlines : ∀ span : Span, ⟨.newline, span⟩ ∈ s.tokens ↔
    start ≤ span.start.toNat ∧ bs[span.start.toNat]? = some 0x0a ∧
      span.stop.toNat = span.start.toNat + 1
  onLine : (∀ t ∈ s.tokens, t.val ≠ .newline → t.span.OnLine bs) ∧ ∀ e ∈ s.faults, e.span.OnLine bs
  covered : ∀ k b, start ≤ k → bs[k]? = some b → (∀ t ∈ s.tokens, k ∉ t.span) →
    isBlankByte b = true ∨ (∃ first last, start ≤ first ∧ first ≤ k ∧ k < last ∧
      Comment bs s first last) ∨ ∃ e ∈ s.faults, k ∈ e.span

/-- What a piece is, where it stands in the bytes of a text. -/
structure Piece.Stands (bs : List UInt8) (c : Char) (start stop : Nat) (p : Piece) : Prop where
  size_le : start + c.utf8Size ≤ stop
  stop_le : stop ≤ bs.length
  stray : p = .stray → stop = start + c.utf8Size
  ne_eof : p.token? ≠ some .eof
  newline : p.token? = some .newline →
    p = .token .newline 0 ∧ bs[start]? = some 0x0a ∧ stop = start + 1
  oneLine : p.token? ≠ some .newline → Text.OneLine bs start stop
  skipped : ∀ n, p = .skipped n →
    (∀ k, start ≤ k → k < stop → ∀ b, bs[k]? = some b → isBlankByte b = true) ∨
      bs[start]? = some 0x3b ∧ (stop = bs.length ∨ bs[stop]? = some 0x0a)

section
variable {bs : List UInt8} {start stop : Nat} {c : Char} {cs : List Char}

/-- The bytes of a blank are blank. -/
theorem isBlankByte_of_mem (hc : isBlank c = true) {b : UInt8} (hb : b ∈ String.utf8EncodeChar c) :
    isBlankByte b = true := by
  have hall : [' ', '\t', '\r', '\x0c'].all
      (fun d => (String.utf8EncodeChar d).all isBlankByte) = true := by decide
  have hmem : c ∈ [' ', '\t', '\r', '\x0c'] := by
    simpa [isBlank, or_assoc] using hc
  exact List.all_eq_true.mp (List.all_eq_true.mp hall c hmem) b hb

/-- Behind the characters of a line there is nothing, or a line feed. -/
theorem drop_line (cs : List Char) : cs.drop (cs.takeWhile (· != '\n')).length = [] ∨
    ∃ rest, cs.drop (cs.takeWhile (· != '\n')).length = '\n' :: rest := by
  have hall : ∀ line : List Char, '\n' ∉ line → line.takeWhile (· != '\n') = line := by
    intro line hline
    exact takeWhile_of_all fun d hd => bne_iff_ne.mpr fun he => hline (he ▸ hd)
  by_cases h : '\n' ∈ cs
  · obtain ⟨line, rest, rfl, hline⟩ := List.eq_append_cons_of_mem h
    rw [takeWhile_line rest (by decide), hall line hline, List.drop_left]
    exact .inr ⟨rest, rfl⟩
  · rw [hall cs h, List.drop_length]
    exact .inl rfl

theorem stands_piece (h : Text.Holds bs start bs.length (c :: cs))
    (hstop : stop = start + byteLength (c :: cs.take (piece c cs).more)) :
    (piece c cs).Stands bs c start stop := by
  have hfits := fits_piece c cs
  rw [← List.take_append_drop (piece c cs).more cs, ← List.cons_append] at h
  obtain ⟨hspan, hrest⟩ := h.split
  simp only [← hstop] at hspan hrest
  rw [byteLength_cons] at hstop
  exact {
    size_le := by omega
    stop_le := hspan.stop_le
    stray := fun hp => by
      rw [hp] at hstop
      exact hstop
    ne_eof := hfits.ne_eof
    newline := fun hp => by
      obtain rfl := hfits.newline hp
      have hnewline := piece_newline cs
      rw [hnewline] at hstop
      exact ⟨hnewline, hspan.first rfl, hstop⟩
    oneLine := fun hp => by
      refine hspan.oneLine fun hmem => ?_
      rcases List.mem_cons.mp hmem with rfl | hmem
      · exact hp (by rw [piece_newline]; rfl)
      · exact newline_not_mem_take c cs hmem
    skipped := fun n hp => by
      rw [hp] at hspan hrest
      rcases hfits.skipped n hp with ⟨hblank, rfl⟩ | ⟨rfl, rfl⟩
      · refine .inl fun k hk hk' b hb => ?_
        obtain ⟨d, hd, b', hb', hget⟩ := hspan.exists_mem hk hk'
        rw [hb] at hget
        cases hget
        rw [List.mem_singleton.mp hd] at hb'
        exact isBlankByte_of_mem hblank hb'
      · refine .inr ⟨hspan.first rfl, ?_⟩
        rcases drop_line cs with hend | ⟨rest, hend⟩
        · rw [Piece.more, hend] at hrest
          exact .inl hrest.stop_eq.symm
        · rw [Piece.more, hend] at hrest
          exact .inr (hrest.first rfl) }

end

/-! ## Piece by piece -/

section
variable {bs : List UInt8} {start stop : Nat} {c : Char} {p : Piece} {s : Scan}

theorem mem_faults_onto {e : Located SyntaxError} :
    e ∈ (p.onto c start stop s).faults ↔ e ∈ p.reports c start stop ∨ e ∈ s.faults := by
  rw [faults_onto, List.mem_append]

/-- Where a piece stands, thirty-two bits hold its offsets. -/
theorem Piece.Stands.offsets (hp : p.Stands bs c start stop) (hlt : bs.length < UInt32.size) :
    (Span.ofOffsets start stop).start.toNat = start ∧
      (Span.ofOffsets start stop).stop.toNat = stop :=
  Span.toNat_ofOffsets (Nat.le_trans (Nat.le_add_right _ _) hp.size_le)
    (Nat.lt_of_le_of_lt hp.stop_le hlt)

theorem Piece.Stands.mem_tokens (hp : p.Stands bs c start stop) (hlt : bs.length < UInt32.size)
    {t : Located Token} : t ∈ (p.onto c start stop s).tokens ↔
      (p.token? = some t.val ∧ t.span.start.toNat = start ∧ t.span.stop.toNat = stop) ∨
        t ∈ s.tokens := by
  obtain ⟨hstart, hstop⟩ := hp.offsets hlt
  rw [tokens_onto, List.mem_append, mem_located]
  refine or_congr_left (and_congr_right fun _ => ⟨fun h => ?_, fun h => ?_⟩)
  · rw [h]
    exact ⟨hstart, hstop⟩
  · obtain ⟨_, first, last⟩ := t
    have hfirst : first = UInt32.ofNat start := UInt32.toNat_inj.mp (h.1.trans hstart.symm)
    have hlast : last = UInt32.ofNat stop := UInt32.toNat_inj.mp (h.2.trans hstop.symm)
    rw [hfirst, hlast]
    rfl

/-- What a piece is reported with lies in it. -/
theorem Piece.Stands.reports (hp : p.Stands bs c start stop) (hlt : bs.length < UInt32.size)
    {e : Located SyntaxError} (he : e ∈ p.reports c start stop) :
    start ≤ e.span.start.toNat ∧ e.span.stop.toNat ≤ stop :=
  mem_of_mem_reports hp.size_le (Nat.lt_of_le_of_lt hp.stop_le hlt) he

/-- A piece touches nothing behind it. -/
theorem Piece.Stands.apart (hp : p.Stands bs c start stop) (hlt : bs.length < UInt32.size) {k : Nat}
    (hk : stop ≤ k) (h : s.Omits k) : (p.onto c start stop s).Omits k := by
  constructor
  · intro t ht
    rcases (hp.mem_tokens hlt).mp ht with ⟨-, -, hstop⟩ | ht
    · rw [Span.mem_iff]
      omega
    · exact h.1 t ht
  · intro e he
    rcases mem_faults_onto.mp he with he | he
    · have hin := hp.reports hlt he
      rw [Span.mem_iff]
      omega
    · exact h.2 e he

/-- A comment further on is one still with a piece in front of it. -/
theorem Comment.onto {first last : Nat} (h : Comment bs s first last)
    (hp : p.Stands bs c start stop) (hlt : bs.length < UInt32.size) (hfirst : stop ≤ first) :
    Comment bs (p.onto c start stop s) first last :=
  { h with apart := fun k hk hk' => hp.apart hlt (Nat.le_trans hfirst hk) (h.apart k hk hk') }

namespace Accounts

/-- What is scanned from `stop` on touches nothing in front of it. -/
theorem apart (hs : Accounts bs stop s) {k : Nat} (hk : k < stop) : s.Omits k := by
  constructor
  · intro t ht hin
    have hstart := (hs.inside t ht).1
    have hle := hin.1
    omega
  · intro e he hin
    have hstart := (hs.reported e he).1
    have hle := hin.1
    omega

theorem newlines_onto (hs : Accounts bs stop s) (hp : p.Stands bs c start stop)
    (hlt : bs.length < UInt32.size) (span : Span) :
    ⟨.newline, span⟩ ∈ (p.onto c start stop s).tokens ↔
      start ≤ span.start.toNat ∧ bs[span.start.toNat]? = some 0x0a ∧
        span.stop.toNat = span.start.toNat + 1 := by
  have hsize := hp.size_le
  rw [hp.mem_tokens hlt, hs.newlines]
  constructor
  · rintro (⟨hnewline, hstart, hstop⟩ | ⟨hk, hfeed, hspan⟩)
    · obtain ⟨-, hfeed, hone⟩ := hp.newline hnewline
      simp only at hstart hstop
      rw [hstart, hstop, hone]
      exact ⟨Nat.le_refl _, hfeed, rfl⟩
    · exact ⟨by omega, hfeed, hspan⟩
  · rintro ⟨hk, hfeed, hspan⟩
    by_cases hin : span.start.toNat < stop
    · have hnewline : p.token? = some .newline := by
        by_contra hne
        exact hp.oneLine hne _ hk hin hfeed
      obtain ⟨-, -, hone⟩ := hp.newline hnewline
      exact .inl ⟨hnewline, by simp only; omega, by simp only; omega⟩
    · exact .inr ⟨by omega, hfeed, hspan⟩

theorem covered_onto (hs : Accounts bs stop s) (hp : p.Stands bs c start stop)
    (hlt : bs.length < UInt32.size) {k : Nat} {b : UInt8} (hk : start ≤ k) (hb : bs[k]? = some b)
    (hout : ∀ t ∈ (p.onto c start stop s).tokens, k ∉ t.span) :
    isBlankByte b = true ∨
      (∃ first last, start ≤ first ∧ first ≤ k ∧ k < last ∧
        Comment bs (p.onto c start stop s) first last) ∨
      ∃ e ∈ (p.onto c start stop s).faults, k ∈ e.span := by
  by_cases hin : k < stop
  · rcases exists_report hp.stray (Nat.lt_of_le_of_lt hp.stop_le hlt) hk hin with
      ⟨t, ht⟩ | ⟨n, rfl⟩ | ⟨e, he, hmem⟩
    · obtain ⟨hstart, hstop⟩ := hp.offsets hlt
      refine absurd ?_ (hout ⟨t, .ofOffsets start stop⟩
        ((hp.mem_tokens hlt).mpr (.inl ⟨ht, hstart, hstop⟩)))
      rw [Span.mem_iff, hstart, hstop]
      exact ⟨hk, hin⟩
    · rcases hp.skipped n rfl with hblank | ⟨hopens, hends⟩
      · exact .inl (hblank k hk hin b hb)
      · exact .inr (.inl ⟨start, stop, Nat.le_refl _, hk, hin, hopens, hp.oneLine nofun, hends,
          fun j _ hj => hs.apart hj⟩)
    · exact .inr (.inr ⟨e, mem_faults_onto.mpr (.inl he), hmem⟩)
  · have hstop : stop ≤ k := by omega
    have hsize := hp.size_le
    rcases hs.covered k b hstop hb fun t ht => hout t ((hp.mem_tokens hlt).mpr (.inr ht)) with
      hblank | ⟨first, last, hfirst, hle, hlast, hcomment⟩ | ⟨e, he, hmem⟩
    · exact .inl hblank
    · exact .inr (.inl ⟨first, last, by omega, hle, hlast, hcomment.onto hp hlt hfirst⟩)
    · exact .inr (.inr ⟨e, mem_faults_onto.mpr (.inr he), hmem⟩)

theorem onLine_onto (hs : Accounts bs stop s) (hp : p.Stands bs c start stop)
    (hlt : bs.length < UInt32.size) :
    (∀ t ∈ (p.onto c start stop s).tokens, t.val ≠ .newline → t.span.OnLine bs) ∧
      ∀ e ∈ (p.onto c start stop s).faults, e.span.OnLine bs := by
  constructor
  · intro t ht hne k hk
    rcases (hp.mem_tokens hlt).mp ht with ⟨hv, hstart, hstop⟩ | ht
    · rw [Span.mem_iff, hstart, hstop] at hk
      exact hp.oneLine (fun he => hne (Option.some.inj (hv.symm.trans he))) k hk.1 hk.2
    · exact hs.onLine.1 t ht hne k hk
  · intro e he k hk
    rcases mem_faults_onto.mp he with he | he
    · have hne : p.token? ≠ some .newline := by
        intro hnewline
        rw [(hp.newline hnewline).1] at he
        cases he
      obtain ⟨hstart, hstop⟩ := hp.reports hlt he
      exact hp.oneLine hne k (Nat.le_trans hstart hk.1) (Nat.lt_of_lt_of_le hk.2 hstop)
    · exact hs.onLine.2 e he k hk

theorem onto (hs : Accounts bs stop s) (hp : p.Stands bs c start stop)
    (hlt : bs.length < UInt32.size) : Accounts bs start (p.onto c start stop s) := by
  have hsize := hp.size_le
  have hstop := hp.stop_le
  have hpos := c.utf8Size_pos
  exact {
    ends := by
      obtain ⟨ts, last, hts, hfirst, hlast, hne⟩ := hs.ends
      refine ⟨p.located (.ofOffsets start stop) ++ ts, last, ?_, hfirst, hlast, ?_⟩
      · rw [tokens_onto, hts, List.append_assoc]
      · intro t ht
        rcases List.mem_append.mp ht with ht | ht
        · exact fun he => hp.ne_eof (he ▸ (mem_located.mp ht).1)
        · exact hne t ht
    inside := by
      intro t ht
      rcases (hp.mem_tokens hlt).mp ht with ⟨-, hfirst, hlast⟩ | ht
      · omega
      · have hin := hs.inside t ht
        omega
    ordered := by
      rw [tokens_onto]
      refine List.pairwise_append.mpr ⟨?_, hs.ordered, ?_⟩
      · unfold Piece.located
        cases p.token? <;> simp
      · intro a ha b hb
        obtain ⟨hfirst, hlast⟩ := hp.offsets hlt
        have hin := (hs.inside b hb).1
        rw [(mem_located.mp ha).2]
        simp only [Span.Before, UInt32.lt_iff_toNat_lt, UInt32.le_iff_toNat_le, hfirst, hlast]
        omega
    reported := by
      intro e he
      rcases mem_faults_onto.mp he with he | he
      · have hin := hp.reports hlt he
        omega
      · have hin := hs.reported e he
        omega
    newlines := hs.newlines_onto hp hlt
    onLine := hs.onLine_onto hp hlt
    covered := fun k b hk hb hout => hs.covered_onto hp hlt hk hb hout }

end Accounts

end

/-- Behind the last byte there is the end marker. -/
theorem accounts_end {bs : List UInt8} (hlt : bs.length < UInt32.size) :
    Accounts bs bs.length ⟨[⟨.eof, .ofOffsets bs.length bs.length⟩], []⟩ := by
  have hnone : ∀ {k : Nat} {b : UInt8}, bs.length ≤ k → bs[k]? ≠ some b := by
    intro k b hk
    rw [List.getElem?_eq_none hk]
    exact (Option.some_ne_none b).symm
  obtain ⟨hstart, hstop⟩ := Span.toNat_ofOffsets (Nat.le_refl bs.length) hlt
  exact {
    ends := ⟨[], _, rfl, hstart, hstop, List.forall_mem_nil _⟩
    inside := fun t ht => by
      rw [List.mem_singleton.mp ht, hstart, hstop]
      exact ⟨Nat.le_refl _, Nat.le_refl _⟩
    ordered := List.pairwise_singleton _ _
    reported := List.forall_mem_nil _
    newlines := fun span => by
      constructor
      · intro h
        cases List.mem_singleton.mp h
      · rintro ⟨hk, hfeed, -⟩
        exact absurd hfeed (hnone hk)
    onLine := by
      refine ⟨fun t ht hne k hk => ?_, List.forall_mem_nil _⟩
      rw [List.mem_singleton.mp ht, Span.mem_iff, hstart] at hk
      exact hnone hk.1
    covered := fun k b hk hb => absurd hb (hnone hk) }

theorem accounts_scanFrom {bs : List UInt8} (hlt : bs.length < UInt32.size) (start : Nat)
    (cs : List Char) (h : Text.Holds bs start bs.length cs) :
    Accounts bs start (scanFrom start cs) := by
  -- What is scanned behind a piece accounts for the bytes from its end on.
  fun_induction scanFrom start cs with
  | case1 start =>
    obtain rfl : bs.length = start := h.stop_eq
    exact accounts_end hlt
  | case2 start c cs p stop ih =>
    have hstop : stop = start + byteLength (c :: cs.take p.more) := by
      rw [byteLength_cons, ← Nat.add_assoc]
    have hrest : Text.Holds bs stop bs.length (cs.drop p.more) := by
      rw [← List.take_append_drop p.more cs, ← List.cons_append] at h
      rw [hstop]
      exact h.split.2
    exact (ih hrest).onto (stands_piece h hstop) hlt

/-- The scan of a text of fewer than `2 ^ 32` bytes accounts for every byte of it. -/
theorem scan_accounts {text : String} (h : text.utf8ByteSize < UInt32.size) :
    Accounts (Text.bytes text) 0 (scan text) := by
  rw [← Text.length_bytes] at h
  exact accounts_scanFrom h 0 text.toList (Text.holds_bytes text)

/-- A text with a comment, a string that is not closed, a quoted name and characters that start
nothing. -/
def unclosed : String := "@\"a b\" = ; é\n\"open é\n%é;\n"

theorem scan_accounts_unclosed : unclosed.utf8ByteSize = 28 ∧
    (scan unclosed).tokens.length = 7 ∧ (scan unclosed).faults.length = 4 ∧
    Accounts (Text.bytes unclosed) 0 (scan unclosed) :=
  ⟨by decide, by decide +kernel, by decide +kernel, scan_accounts (by decide)⟩

end Token
end SsaGraph
