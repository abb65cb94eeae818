import SsaGraph.Proofs.Program.Alongside
import SsaGraph.Proofs.Token.Coverage

/-!
Reading two texts with a line feed between them.  The functions of the first text are read
from both as they are, because what is read of them is settled in front of its end marker.
Those of the second text are read with every place moved, as far as thirty-two bits hold it.
Places that do not fit come round: behind `2 ^ 32` bytes they are what they were without them.
-/

namespace SsaGraph

/-! ## Places moved -/

namespace Span

/-- The second span is the first one, `k` bytes further on. -/
def Moved (k : Nat) (s t : Span) : Prop :=
  t.start.toNat = s.start.toNat + k ∧ t.stop.toNat = s.stop.toNat + k

/-- In a short text, the second span is the first one moved, if that is possible. -/
def Follows (short : Prop) (k : Nat) (s t : Span) : Prop :=
  short → s.start ≤ s.stop ∧ (s.stop.toNat + k < UInt32.size → s.Moved k t)

theorem Follows.merge {short : Prop} {k : Nat} {a a' b b' : Span} (ha : a.Follows short k a')
    (hb : b.Follows short k b') : (a.merge b).Follows short k (a'.merge b') := by
  intro hshort
  obtain ⟨ha, hmoved⟩ := ha hshort
  obtain ⟨hb, hmoved'⟩ := hb hshort
  rw [UInt32.le_iff_toNat_le] at ha hb
  obtain ⟨hstart, hstop⟩ := a.toNat_merge b
  obtain ⟨hstart', hstop'⟩ := a'.toNat_merge b'
  refine ⟨UInt32.le_iff_toNat_le.mpr (by omega), fun hfits => ?_⟩
  obtain ⟨ha₁, ha₂⟩ := hmoved (by omega)
  obtain ⟨hb₁, hb₂⟩ := hmoved' (by omega)
  exact ⟨by omega, by omega⟩

theorem follows_shift {short : Prop} {s : Span} (h : short → s.start ≤ s.stop) (k : Nat) :
    s.Follows short k (s.shift k) := by
  intro hshort
  refine ⟨h hshort, fun hfits => ?_⟩
  have hfits : s.stop.toNat + k < 4294967296 := hfits
  have hle := UInt32.le_iff_toNat_le.mp (h hshort)
  have hk : (UInt32.ofNat k).toNat = k := UInt32.toNat_ofNat_of_lt' (by omega)
  refine ⟨?_, ?_⟩ <;>
    rw [shift, UInt32.toNat_add, hk, Nat.mod_eq_of_lt (by omega)]

end Span

/-- The places of the instructions are `k` bytes further on in the second function, where thirty-two
bits hold them. -/
def Func.Moved (k : Nat) (f g : Func) : Prop :=
  List.Forall₂ (fun i j => i.span.Moved k j.span ↔ i.span.stop.toNat + k < UInt32.size)
    f.instructions.toList g.instructions.toList

theorem Func.Matches.moved {short : Prop} {k : Nat} {f g : Func}
    (h : f.Matches (Span.Follows short k) g) (hshort : short) : f.Moved k g :=
  h.instructions.imp fun i j hij => by
    refine ⟨fun hmoved => ?_, (hij.2 hshort).2⟩
    rw [← hmoved.2]
    exact j.span.stop.toNat_lt_size

theorem Func.Matches.eq {f g : Func} (h : f.Matches Eq g) : g = f := by
  have hinstructions : g.instructions = f.instructions := by
    rw [← Array.toList_inj, eq_comm, ← List.forall₂_eq_eq_eq]
    exact h.instructions.imp fun i j hij => by rw [hij.1, ← hij.2]
  rw [h.func, hinstructions]

theorem Token.Accounts.start_le_stop {bs : List UInt8} {start : Nat} {s : Scan}
    (h : Accounts bs start s) {t : Located Token} (ht : t ∈ s.tokens) :
    t.span.start ≤ t.span.stop := by
  obtain ⟨ts, last, hts, hstart, hstop, -⟩ := h.ends
  have hordered := h.ordered
  rw [hts] at hordered ht
  rcases List.mem_append.mp ht with ht | ht
  · exact Nat.le_of_lt ((List.pairwise_append.mp hordered).2.2 t ht _ (List.mem_singleton_self _)).1
  · rw [List.mem_singleton.mp ht]
    exact UInt32.le_iff_toNat_le.mpr (Nat.le_of_eq (hstart.trans hstop.symm))

namespace Reader

open Token (carry carry_cons)

section
variable {tail : List (Located Token)} {s s' t : ReadState}

/-- Moved tokens yield the same functions, with their places moved where that is possible. -/
theorem Yields.shift {short : Prop} {k : Nat} {fs : List Func} (h : Yields s fs)
    (hshort : short → ∀ t ∈ s.rest, t.span.start ≤ t.span.stop)
    (ht : t.rest = s.rest.map (·.shift k)) :
    ∃ gs, Yields t gs ∧ List.Forall₂ (Func.Matches (Span.Follows short k)) fs gs := by
  have hs : Beside (.whole (Span.Follows short k) .merge) False s t := by
    refine ⟨⟨s.rest, s.rest.map (·.shift k), (List.append_nil _).symm, ?_, ?_⟩, False.elim, False.elim⟩
    · rw [ht]
      exact (List.append_nil _).symm
    · refine List.forall₂_map_right_iff.mpr (List.forall₂_same.mpr fun t ht => ⟨rfl, ?_⟩)
      exact Span.follows_shift (fun h => hshort h t ht) k
  exact h.beside hs rfl

/-! ## In place of the end marker -/

/-- The seam in front of the end marker `e`, in whose place there are other tokens. -/
def Seam.atEnd {e : Located Token} (he : e.val = .eof) (es : List (Located Token))
    (htail : Closes tail) : Seam where
  place := Eq
  merge := fun ha hb => by rw [ha, hb]
  tail := e :: es
  tail' := tail
  ending := by
    obtain ⟨b, bs, rfl, hb⟩ := htail
    exact .inr ⟨e, es, b, bs, rfl, rfl, inert_of_endsLine (by rw [he]; rfl), inert_of_endsLine hb⟩

/-- Nothing is passed behind the end marker. -/
theorem Onward.front {ts us y es : List (Located Token)} {e : Located Token} (h : Onward ts us)
    (he : e.val = .eof) (hts : ts = y ++ e :: es) : ∃ x z, us = z ++ e :: es ∧ y = x ++ z := by
  obtain ⟨passed, rfl, hpassed⟩ := h
  rcases List.append_eq_append_iff.mp hts with ⟨w, rfl, hw⟩ | ⟨w, rfl, hw⟩
  · exact ⟨passed, w, hw, rfl⟩
  · cases w with
    | nil => exact ⟨y, [], hw.symm, (List.append_nil y).symm⟩
    | cons t w =>
      cases hw
      exact absurd he (hpassed _ (List.mem_append_right y List.mem_cons_self))

/-- Whatever follows a text in place of its end marker is read behind its functions. -/
theorem Yields.append {fs : List Func} {P : List Func → Prop} {x es : List (Located Token)}
    {e : Located Token} (h : Yields s fs) (he : e.val = .eof) (htail : Closes tail)
    (hx : s.rest = x ++ e :: es) (hfree : ∀ t ∈ x, t.val ≠ .eof)
    (hs : Beside (Seam.atEnd he es htail) False s s')
    (hrest : ∀ t : ReadState, t.rest = tail → ∃ gs, Yields t gs ∧ P gs) :
    ∃ gs, Yields s' (fs ++ gs) ∧ P gs := by
  have hclosed : (Seam.atEnd he es htail).Closed := ⟨⟨e, es, rfl, by rw [he]; rfl⟩, htail⟩
  induction h generalizing x s' with
  | @stop s h =>
    cases x with
    | cons t x =>
      rw [hx] at h
      exact absurd h (hfree t List.mem_cons_self)
    | nil =>
      obtain ⟨_, hx', hsame⟩ := hs.split hx
      cases hsame
      exact hrest s' hx'
  | @skip s t fs h _ ih =>
    obtain ⟨p, z, hz, rfl⟩ := h.onward.1.front he hx
    obtain ⟨t', ht', ht⟩ := h.beside hs hz fun _ => .inr (.inr hclosed)
    obtain ⟨gs, hgs, hP⟩ := ih hz (fun t hm => hfree t (List.mem_append_right p hm)) ht
    exact ⟨gs, .skip ht' hgs, hP⟩
  | @define s t f fs hnext h _ ih =>
    obtain ⟨p, z, hz, rfl⟩ := h.onward.1.front he hx
    obtain ⟨f', t', ht', hf, ht⟩ := h.beside hs hz
    obtain rfl : f' = f := hf.eq
    obtain ⟨x', hx', hsame⟩ := hs.split hx
    have hne : p ++ z ≠ [] := ne_nil_of_length_lt (c := Seam.atEnd he es htail) hx hz h.length_lt
    obtain ⟨gs, hgs, hP⟩ := ih hz (fun t hm => hfree t (List.mem_append_right p hm)) ht
    refine ⟨gs, .define ?_ ht' hgs, hP⟩
    rw [hx', hsame.ahead_val (.inl hne)]
    exact hx ▸ hnext

/-- Tokens up to the end marker. -/
theorem exists_carry {ts : List (Located Token)} (h : ∃ t ∈ ts, t.val = .eof) :
    ∃ x e es, ts = x ++ e :: es ∧ e.val = .eof ∧ (∀ t ∈ x, t.val ≠ .eof) ∧
      ∀ tail, carry tail ts = x ++ tail := by
  induction ts with
  | nil =>
    obtain ⟨t, ht, _⟩ := h
    cases ht
  | cons t ts ih =>
    by_cases ht : t.val = .eof
    · exact ⟨[], t, ts, rfl, ht, List.forall_mem_nil _, fun tail => if_pos ht⟩
    · obtain ⟨u, hu, he⟩ := h
      have hmarked : ∃ t ∈ ts, t.val = .eof := by
        rcases List.mem_cons.mp hu with rfl | hu
        · exact absurd he ht
        · exact ⟨u, hu, he⟩
      obtain ⟨x, e, es, rfl, he, hfree, hcarry⟩ := ih hmarked
      refine ⟨t :: x, e, es, rfl, he, List.forall_mem_cons.mpr ⟨ht, hfree⟩, fun tail => ?_⟩
      rw [carry_cons ht, hcarry]
      rfl

end
end Reader

/-- Two texts that are read are read together, with a line feed between them: first the
functions of the first one, then those of the second one.  The places of the latter are moved
behind the first text and the line feed, where thirty-two bits hold them. -/
theorem Program.read_joined {a b : String} {p q : Program} (ha : Program.read a = .ok p)
    (hb : Program.read b = .ok q) :
    ∃ fs, Program.read (a ++ "\n" ++ b) = .ok ⟨p.functions ++ fs⟩ ∧
      fs.map Func.unplaced = q.functions.map Func.unplaced ∧
      (b.utf8ByteSize < UInt32.size →
        List.Forall₂ (Func.Moved (a.utf8ByteSize + 1)) q.functions fs) := by
  obtain ⟨hscan, hyields⟩ := read_eq_ok.mp ha
  obtain ⟨hscan', hyields'⟩ := read_eq_ok.mp hb
  have hordered : b.utf8ByteSize < UInt32.size →
      ∀ t ∈ (Token.scan b).tokens, t.span.start ≤ t.span.stop := fun hsize t ht => by
    rw [← Text.length_bytes] at hsize
    exact (Token.accounts_scanFrom hsize 0 b.toList (Text.holds_bytes b)).start_le_stop ht
  have hbehind : ∀ t : ReadState,
      t.rest = ⟨.newline, .ofOffsets a.utf8ByteSize (a.utf8ByteSize + 1)⟩ ::
        ((Token.scan b).shift (a.utf8ByteSize + 1)).tokens →
      ∃ fs, Reader.Yields t fs ∧ List.Forall₂ (Func.Matches
        (Span.Follows (b.utf8ByteSize < UInt32.size) (a.utf8ByteSize + 1))) q.functions fs :=
    fun t ht => by
      obtain ⟨fs, hfs, hmatches⟩ := hyields'.shift (k := a.utf8ByteSize + 1)
        (t := { t with rest := Reader.behind t.rest }) hordered (by rw [ht]; rfl)
      exact ⟨fs, .skip (.blank (by rw [ht]; rfl)) hfs, hmatches⟩
  have hcloses : Reader.Closes (⟨.newline, .ofOffsets a.utf8ByteSize (a.utf8ByteSize + 1)⟩ ::
      ((Token.scan b).shift (a.utf8ByteSize + 1)).tokens) := ⟨_, _, rfl, rfl⟩
  obtain ⟨x, e, es, hx, he, hfree, hcarry⟩ :=
    Reader.exists_carry (Token.exists_eof_scanFrom 0 a.toList)
  have hbeside : Reader.Beside (Reader.Seam.atEnd he es hcloses) False
      ⟨(Token.scan a).tokens, [], default, .empty⟩
      ⟨((Token.scan a).join (.ofOffsets a.utf8ByteSize (a.utf8ByteSize + 1))
        ((Token.scan b).shift (a.utf8ByteSize + 1))).tokens, [], default, .empty⟩ :=
    ⟨⟨x, x, hx, hcarry (_ :: _), List.forall₂_same.mpr fun _ _ => ⟨rfl, rfl⟩⟩, False.elim,
      False.elim⟩
  obtain ⟨fs, hfs, hmatches⟩ := hyields.append he hcloses hx hfree hbeside hbehind
  refine ⟨fs, ?_, ?_, fun hsize => hmatches.imp fun _ _ h => h.moved hsize⟩
  · rw [read_eq_ok, Token.scan_append]
    refine ⟨?_, hfs⟩
    simp only [Token.Scan.join, Token.Scan.shift, hscan, hscan', List.map_nil, List.append_nil]
  · rw [← List.forall₂_eq_eq_eq, List.forall₂_map_left_iff, List.forall₂_map_right_iff]
    exact (List.Forall₂.flip hmatches).imp fun _ _ h => h.unplaced_eq

/-- A text that ends in a name whose quote is not closed. -/
def Program.openName : String := "define void @f() \x7b\n  ret void\n\x7d\n!\"end"

def Program.negation : String :=
  "define double @g(double %x) \x7b
    %y = fneg double %x
    ret double %y
  \x7d"

theorem Program.read_joined_openName :
    ∃ p q fs, read openName = .ok p ∧ read negation = .ok q ∧
      p.functions.map (·.name) = ["f"] ∧ q.functions.map (·.name) = ["g"] ∧
      q.functions.flatMap (·.instructions.toList.map (·.span)) = [⟨34, 53⟩, ⟨58, 71⟩] ∧
      read (openName ++ "\n" ++ negation) = .ok ⟨p.functions ++ fs⟩ ∧
      fs.map Func.unplaced = q.functions.map Func.unplaced ∧
      List.Forall₂ (Func.Moved 38) q.functions fs := by
  have hread : (match read openName with
      | .ok p => match read negation with
        | .ok q => decide (p.functions.map (·.name) = ["f"] ∧ q.functions.map (·.name) = ["g"] ∧
            q.functions.flatMap (·.instructions.toList.map (·.span)) = [⟨34, 53⟩, ⟨58, 71⟩])
        | .error _ => false
      | .error _ => false) = true := by
    decide +kernel
  split at hread
  next p hp =>
    split at hread
    next q hq =>
      obtain ⟨hf, hg, hspans⟩ := of_decide_eq_true hread
      have hsize : openName.utf8ByteSize + 1 = 38 := by decide
      obtain ⟨fs, hjoined, hsame, hmoved⟩ := read_joined hp hq
      exact ⟨p, q, fs, hp, hq, hf, hg, hspans, hjoined, hsame, hsize ▸ hmoved (by decide)⟩
    · cases hread
  · cases hread

/-! ## Behind a long comment -/

namespace Token

/-- A comment of `n + 1` bytes. -/
def comment (n : Nat) : String := ";" ++ String.ofList (List.replicate n 'x')

theorem toList_comment (n : Nat) : (comment n).toList = ';' :: List.replicate n 'x' := by
  rw [comment, String.toList_append]
  exact congrArg (';' :: ·) String.toList_ofList

theorem byteLength_replicate (n : Nat) : byteLength (List.replicate n 'x') = n := by
  induction n with
  | zero => rfl
  | succ n ih =>
    rw [List.replicate_succ, byteLength_cons, ih]
    exact Nat.add_comm 1 n

theorem utf8ByteSize_comment (n : Nat) : (comment n).utf8ByteSize = n + 1 := by
  rw [← byteLength_toList, toList_comment, byteLength_cons, byteLength_replicate]
  exact Nat.add_comm 1 n

theorem piece_comment (n : Nat) : piece ';' (List.replicate n 'x') = .skipped n := by
  have hline : (List.replicate n 'x').takeWhile (· != '\n') = List.replicate n 'x' :=
    takeWhile_of_all fun c hc => by
      rw [List.eq_of_mem_replicate hc]
      rfl
  rw [piece, if_pos (by decide), hline, List.length_replicate]

/-- Of a comment there is only the end marker. -/
theorem scan_comment (n : Nat) : scan (comment n) = ⟨[⟨.eof, .ofOffsets (n + 1) (n + 1)⟩], []⟩ := by
  have htake : (List.replicate n 'x').take n = List.replicate n 'x' :=
    List.take_of_length_le (Nat.le_of_eq List.length_replicate)
  have hdrop : (List.replicate n 'x').drop n = [] :=
    List.drop_of_length_le (Nat.le_of_eq List.length_replicate)
  rw [scan, toList_comment, scanFrom, piece_comment]
  simp only [Piece.more, Piece.onto, htake, hdrop, byteLength_replicate, scanFrom]
  rw [show 0 + ';'.utf8Size + n = n + 1 from Nat.add_comm _ n]

theorem Scan.shift_of_ofNat {k : Nat} (h : UInt32.ofNat k = 0) (s : Scan) : s.shift k = s := by
  have hplace : ∀ {α : Type} (x : Located α), x.shift k = x := fun x => by
    rw [Located.shift, Span.shift_of_ofNat h]
  simp only [Scan.shift, hplace, List.map_id']

end Token

namespace Program

theorem read_comment (n : Nat) : read (Token.comment n) = .ok ⟨[]⟩ := by
  rw [read_eq_ok, Token.scan_comment]
  exact ⟨rfl, .stop rfl⟩

/-- Behind a comment and a line feed of `2 ^ 32` bytes in all, or a multiple of that, a text is read
with the places that it has alone. -/
theorem read_behind_comment {n : Nat} {b : String} {q : Program} (hn : UInt32.ofNat (n + 1 + 1) = 0)
    (hb : read b = .ok q) : read (Token.comment n ++ "\n" ++ b) = .ok q := by
  obtain ⟨hscan, hyields⟩ := read_eq_ok.mp hb
  rw [read_eq_ok, Token.scan_append, Token.utf8ByteSize_comment, Token.Scan.shift_of_ofNat hn,
    Token.scan_comment]
  exact ⟨hscan, .skip (.blank rfl) hyields⟩

/-- The places behind a text of `2 ^ 32 - 1` bytes and a line feed are not moved. -/
theorem read_wraps_places :
    (Token.comment 4294967294).utf8ByteSize + 1 = 4294967296 ∧
      read (Token.comment 4294967294) = .ok ⟨[]⟩ ∧ ∃ q, read negation = .ok q ∧
        q.functions.flatMap (·.instructions.toList.map (·.span)) = [⟨34, 53⟩, ⟨58, 71⟩] ∧
        read (Token.comment 4294967294 ++ "\n" ++ negation) = .ok q ∧
        ∀ s : Span, ¬s.Moved 4294967296 s := by
  have hread : (read negation).toOption.map
      (fun q => q.functions.flatMap (·.instructions.toList.map (·.span))) =
        some [⟨34, 53⟩, ⟨58, 71⟩] := by
    decide +kernel
  cases hq : read negation with
  | error e =>
    rw [hq] at hread
    cases hread
  | ok q =>
    rw [hq] at hread
    refine ⟨congrArg (· + 1) (Token.utf8ByteSize_comment _), read_comment _, q, rfl,
      Option.some.inj hread, read_behind_comment (by decide) hq, fun s hmoved => ?_⟩
    have hstart := hmoved.1
    omega

end Program
end SsaGraph
