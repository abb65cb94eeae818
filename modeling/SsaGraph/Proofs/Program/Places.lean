import SsaGraph.Proofs.Program.Alongside
import SsaGraph.Proofs.Program.Origin
import SsaGraph.Proofs.Token.Coverage

/-!
The places of instructions.  Tokens come in the order of the text and the instructions that are
read stand on lines one behind the other, so the span of each instruction ends before that of
the next one starts (`Laid.ordered`), and the instructions of a function that is read have
different places (`Program.span_inj_of_read`).  No line goes on behind a line feed, so neither
does the span of an instruction (`Token.Accounts.onLine_of_line`).
-/

namespace SsaGraph

/-! ## Tokens -/

/-- Tokens one behind the other.  None but the end marker is empty. -/
structure Ordered (ts : List (Located Token)) : Prop where
  pairwise : ts.Pairwise fun a b => a.span.Before b.span
  nonempty : ∀ t ∈ ts, t.val ≠ .eof → t.span.start < t.span.stop

theorem Ordered.sublist {ts us : List (Located Token)} (h : Ordered ts) (hsub : us.Sublist ts) :
    Ordered us :=
  ⟨h.pairwise.sublist hsub, fun t ht => h.nonempty t (hsub.subset ht)⟩

/-- A span and a later one are covered from the start of the first to the end of the second. -/
theorem Span.merge_of_le {a b : Span} (ha : a.start < a.stop) (hb : b.start < b.stop)
    (h : b = a ∨ a.stop ≤ b.start) : a.start < b.stop ∧ a.merge b = ⟨a.start, b.stop⟩ := by
  rcases h with rfl | h
  · exact ⟨ha, Span.merge_self b⟩
  · rw [UInt32.lt_iff_toNat_lt] at ha hb
    rw [UInt32.le_iff_toNat_le] at h
    rw [merge, if_neg (by rw [UInt32.lt_iff_toNat_lt]; omega),
      if_pos (UInt32.lt_iff_toNat_lt.mpr (by omega))]
    exact ⟨UInt32.lt_iff_toNat_lt.mpr (by omega), rfl⟩

namespace Token.Accounts

variable {bs : List UInt8} {start : Nat} {s : Scan}

theorem mem_eof (h : Accounts bs start s) : ∃ t ∈ s.tokens, t.val = .eof := by
  obtain ⟨ts, last, hts, -⟩ := h.ends
  exact ⟨_, by rw [hts]; exact List.mem_append_right _ (List.mem_singleton_self _), rfl⟩

theorem ordered_tokens (h : Accounts bs start s) : Ordered s.tokens := by
  refine ⟨h.ordered, fun t ht hne => ?_⟩
  obtain ⟨ts, last, hts, -⟩ := h.ends
  have hordered := h.ordered
  rw [hts] at hordered ht
  rcases List.mem_append.mp ht with ht | ht
  · exact ((List.pairwise_append.mp hordered).2.2 t ht _ (List.mem_singleton_self _)).1
  · rw [List.mem_singleton.mp ht] at hne
    exact absurd rfl hne

/-- Between the first token of a line and its last there is no line feed. -/
theorem onLine_of_line (h : Accounts bs 0 s) (hlt : bs.length < UInt32.size)
    {before line after : List (Located Token)} {first last : Located Token}
    (hsplit : s.tokens = before ++ (line ++ after)) (hline : ∀ t ∈ line, t.val.endsLine = false)
    (hfirst : first ∈ line) (hlast : last ∈ line) :
    Span.OnLine bs ⟨first.span.start, last.span.stop⟩ := by
  intro k hk hfeed
  obtain ⟨hstart, hstop⟩ := Span.mem_iff.mp hk
  simp only at hstart hstop
  have hk : k < bs.length := (List.getElem?_eq_some_iff.mp hfeed).1
  obtain ⟨hk, hk'⟩ := Span.toNat_ofOffsets (Nat.le_add_right k 1)
    (show k + 1 < UInt32.size by omega)
  have hmem : ⟨.newline, .ofOffsets k (k + 1)⟩ ∈ s.tokens := by
    rw [h.newlines, hk, hk']
    exact ⟨Nat.zero_le k, hfeed, rfl⟩
  have hordered := h.ordered
  rw [hsplit] at hordered hmem
  obtain ⟨-, hrest, hbefore⟩ := List.pairwise_append.mp hordered
  rcases List.mem_append.mp hmem with hmem | hmem
  · have hle := UInt32.le_iff_toNat_le.mp (hbefore _ hmem first (List.mem_append_left _ hfirst)).2
    simp only at hle
    omega
  rcases List.mem_append.mp hmem with hmem | hmem
  · exact Bool.noConfusion (hline _ hmem)
  · have hle := UInt32.le_iff_toNat_le.mp ((List.pairwise_append.mp hrest).2.2 last hlast _ hmem).2
    simp only at hle
    omega

end Token.Accounts

namespace Reader

/-! ## Lines of tokens -/

/-- Everything up to the end of the current line. -/
def untilLineEnd (ts : List (Located Token)) : List (Located Token) :=
  ts.takeWhile fun t => !t.val.endsLine

section
variable {ts us : List (Located Token)}

theorem untilLineEnd_append (ts : List (Located Token)) : untilLineEnd ts ++ fromLineEnd ts = ts :=
  List.takeWhile_append_dropWhile

theorem endsLine_of_mem_untilLineEnd {t : Located Token} (h : t ∈ untilLineEnd ts) :
    t.val.endsLine = false := by
  simpa using List.all_eq_true.mp List.all_takeWhile t h

theorem Onward.sublist (h : Onward ts us) : us.Sublist ts := by
  obtain ⟨passed, rfl, _⟩ := h
  exact List.sublist_append_right passed us

/-- The end of a line is found if the end marker is still to come. -/
theorem closes_of_onward (h : Onward ts (fromLineEnd us)) (heof : ∃ t ∈ ts, t.val = .eof) :
    Closes (fromLineEnd us) := by
  rcases closes_or_nil_fromLineEnd us with hnil | hcloses
  · obtain ⟨passed, hts, hpassed⟩ := h
    obtain ⟨t, ht, heof⟩ := heof
    rw [hts, hnil, List.append_nil] at ht
    exact absurd heof (hpassed t ht)
  · exact hcloses

/-- A line starts where its first token does and stops where its last one does. -/
theorem lineSpan_eq (h : Ordered ts) (hline : (ahead ts).val.endsLine = false) :
    ∃ first last, (untilLineEnd ts).head? = some first ∧ (untilLineEnd ts).getLast? = some last ∧
      first.span.start < last.span.stop ∧ lineSpan ts = ⟨first.span.start, last.span.stop⟩ := by
  cases ts with
  | nil => cases hline
  | cons t ts =>
    have hline : t.val.endsLine = false := hline
    have huntil : untilLineEnd (t :: ts) = t :: untilLineEnd ts :=
      List.takeWhile_cons_of_pos (by rw [hline]; rfl)
    obtain ⟨last, hlast⟩ : ∃ last, (untilLineEnd (t :: ts)).getLast? = some last := by
      rw [huntil]
      exact ⟨_, List.getLast?_eq_some_getLast (List.cons_ne_nil _ _)⟩
    have hmem : last ∈ untilLineEnd (t :: ts) := List.mem_of_getLast? hlast
    have hnonempty : ∀ u ∈ untilLineEnd (t :: ts), u.span.start < u.span.stop := by
      intro u hu
      refine h.nonempty u ((List.takeWhile_prefix _).subset hu) fun heof => ?_
      have hends := endsLine_of_mem_untilLineEnd hu
      rw [heof] at hends
      cases hends
    have hfirst := hnonempty t (by rw [huntil]; exact List.mem_cons_self)
    have hlt := hnonempty last hmem
    have horder : last.span = t.span ∨ t.span.stop ≤ last.span.start := by
      rcases List.mem_cons.mp ((List.takeWhile_prefix _).subset hmem) with rfl | hin
      · exact .inl rfl
      · exact .inr ((List.pairwise_cons.mp h.pairwise).1 last hin).2
    obtain ⟨hless, hmerge⟩ := Span.merge_of_le hfirst hlt horder
    refine ⟨t, last, by rw [huntil]; rfl, hlast, hless, ?_⟩
    unfold lineSpan
    rw [show (t :: ts).takeWhile (fun t => !t.val.endsLine) = untilLineEnd (t :: ts) from rfl, hlast]
    exact hmerge

/-! ## Instructions -/

/-- Instruction `i` is written on a line of the tokens, from `first` on, and `last` is the last
token of that line. -/
def StandsAt (ts : List (Located Token)) (i : Instruction) (first last : Located Token) : Prop :=
  ∃ before line after, ts = before ++ (line ++ after) ∧ WrittenAt (line ++ after) i ∧
    line.head? = some first ∧ line.getLast? = some last ∧
    (∀ t ∈ line, t.val.endsLine = false) ∧ Closes after

/-- The line that an instruction stands on is behind the lines of those before it. -/
theorem Laid.ordered {is : List Instruction} (h : Laid ts is us) (hts : Ordered ts) :
    is.Pairwise (fun i j => i.span.Before j.span) ∧
      ∀ i ∈ is, ∃ t ∈ ts, i.span.start = t.span.start := by
  -- The second part carries the induction: what is read behind a line starts at a token there.
  induction h with
  | none _ => exact ⟨.nil, List.forall_mem_nil _⟩
  | @line ts us _ i is hon hstarts hwritten _ ih =>
    have hus := hts.sublist hon.sublist
    obtain ⟨hpairwise, hmem⟩ := ih (hus.sublist (onward_fromLineEnd us).sublist)
    obtain ⟨first, last, hfirst, hlast, hlt, hspan⟩ :=
      lineSpan_eq hus (endsLine_of_startsLine hstarts)
    rw [← hwritten.span] at hspan
    have hsplit := hus.pairwise
    rw [← untilLineEnd_append us, List.pairwise_append] at hsplit
    refine ⟨List.pairwise_cons.mpr ⟨fun j hj => ?_, hpairwise⟩, fun j hj => ?_⟩
    · obtain ⟨t, ht, hstart⟩ := hmem j hj
      have hbefore := (hsplit.2.2 last (List.mem_of_getLast? hlast) t ht).2
      rw [hspan]
      exact ⟨hlt, hstart ▸ hbefore⟩
    · rcases List.mem_cons.mp hj with rfl | hj
      · refine ⟨first, hon.sublist.subset ?_, by rw [hspan]⟩
        exact (List.takeWhile_prefix _).subset (List.mem_of_mem_head? hfirst)
      · obtain ⟨t, ht, hstart⟩ := hmem j hj
        exact ⟨t, hon.sublist.subset ((onward_fromLineEnd us).sublist.subset ht), hstart⟩

end

end Reader

/-- The span of an instruction in the text that it is read from. -/
structure Instruction.Spans (text : String) (i : Instruction) : Prop where
  start_lt : i.span.start < i.span.stop
  stop_le : i.span.stop.toNat ≤ text.utf8ByteSize
  onLine : i.span.OnLine (Text.bytes text)
  extent : ∃ first last, Reader.StandsAt (Token.scan text).tokens i first last ∧
    i.span = ⟨first.span.start, last.span.stop⟩

namespace Program

section
variable {text : String} {p : Program} {f : Func} {i j : Instruction}

theorem ordered_of_read (hsize : text.utf8ByteSize < UInt32.size) (h : read text = .ok p) :
    p.instructions.Pairwise fun i j => i.span.Before j.span := by
  rw [← Text.length_bytes] at hsize
  have haccounts := Token.accounts_scanFrom hsize 0 text.toList (Text.holds_bytes text)
  obtain ⟨ts, hlaid⟩ := laid_of_read h
  exact (hlaid.ordered haccounts.ordered_tokens).1

theorem nodup_spans_of_read (hsize : text.utf8ByteSize < UInt32.size) (h : read text = .ok p) :
    (p.instructions.map (·.span)).Nodup := by
  refine List.pairwise_map.mpr ((ordered_of_read hsize h).imp fun hbefore he => ?_)
  rw [he] at hbefore
  exact absurd hbefore.1 (Nat.not_lt.mpr hbefore.2)

/-- The instructions of a function that is read have different places. -/
theorem span_inj_of_read (hsize : text.utf8ByteSize < UInt32.size) (h : read text = .ok p)
    (hf : f ∈ p.functions) {a b : Nat} (ha : f.instructions[a]? = some i) (hb : f.instructions[b]? = some j) (hspan : i.span = j.span) :
    a = b := by
  have hsub : f.instructions.toList.Sublist p.instructions := by
    rw [instructions, List.flatMap_def]
    exact List.sublist_flatten_of_mem (List.mem_map_of_mem hf)
  have hnodup : (f.instructions.toList.map (·.span)).Nodup :=
    (nodup_spans_of_read hsize h).sublist (hsub.map _)
  have hget : ∀ {k : Nat} {i : Instruction}, f.instructions[k]? = some i →
      (f.instructions.toList.map (·.span))[k]? = some i.span := by
    intro k i hk
    rw [List.getElem?_map, Array.getElem?_toList, hk]
    rfl
  have hlt := (List.getElem?_eq_some_iff.mp (hget ha)).1
  exact (List.getElem?_inj hlt hnodup).mp (by rw [hget ha, hget hb, hspan])

theorem spans_of_mem (hsize : text.utf8ByteSize < UInt32.size) (h : read text = .ok p)
    (hi : i ∈ p.instructions) : i.Spans text := by
  rw [← Text.length_bytes] at hsize
  have haccounts : Token.Accounts (Text.bytes text) 0 (Token.scan text) :=
    Token.accounts_scanFrom hsize 0 text.toList (Text.holds_bytes text)
  obtain ⟨ts, hlaid⟩ := laid_of_read h
  obtain ⟨us, hon, hstarts, hwritten⟩ := hlaid.exists_line hi
  obtain ⟨first, last, hfirst, hlast, hlt, hspan⟩ := Reader.lineSpan_eq
    (haccounts.ordered_tokens.sublist hon.sublist) (Reader.endsLine_of_startsLine hstarts)
  rw [← hwritten.span] at hspan
  have hcloses := Reader.closes_of_onward (hon.trans (Reader.onward_fromLineEnd us)) haccounts.mem_eof
  obtain ⟨before, hsplit, -⟩ := hon
  rw [← Reader.untilLineEnd_append us] at hsplit hwritten
  have hlastmem := List.mem_of_getLast? hlast
  have hline : ∀ t ∈ Reader.untilLineEnd us, t.val.endsLine = false :=
    fun t ht => Reader.endsLine_of_mem_untilLineEnd ht
  exact {
    start_lt := by rw [hspan]; exact hlt
    stop_le := by
      rw [hspan, ← Text.length_bytes]
      refine (haccounts.inside last ?_).2
      rw [hsplit]
      exact List.mem_append_right _ (List.mem_append_left _ hlastmem)
    onLine := by
      rw [hspan]
      exact haccounts.onLine_of_line hsize hsplit hline (List.mem_of_mem_head? hfirst) hlastmem
    extent := ⟨first, last, ⟨before, _, _, hsplit, hwritten, hfirst, hlast, hline, hcloses⟩, hspan⟩ }

/-- The instructions of a program that is read have spans in the text, each from the first token
of the instruction to the last one of its line, in order and apart. -/
theorem spans_of_read (hsize : text.utf8ByteSize < UInt32.size) (h : read text = .ok p) :
    (∀ f ∈ p.functions, ∀ i ∈ f.instructions, i.Spans text ∧ i.span ≠ .absent) ∧
      p.instructions.Pairwise (fun i j => i.span.Before j.span) ∧
      (p.instructions.map (·.span)).Nodup := by
  refine ⟨fun f hf i hi => ?_, ordered_of_read hsize h, nodup_spans_of_read hsize h⟩
  have hspans := spans_of_mem hsize h (mem_instructions hf hi)
  refine ⟨hspans, fun habsent => ?_⟩
  have hlt := hspans.start_lt
  rw [habsent] at hlt
  exact absurd hlt (Nat.lt_irrefl _)

end

/-- A label in front of an instruction, a type that goes on behind a line end, and a body that
starts on the line of its header. -/
def crowded : String :=
  "define double @f(double %x) \x7b
entry: %a = fadd double %x, %x ; twice
  %b = call double (double,
    ...) @g(double %a)
  ret double %b
\x7d
define void @g() \x7b ret void
\x7d"

set_option maxRecDepth 4000 in
theorem spans_of_read_crowded :
    crowded.utf8ByteSize = 167 ∧ ∃ p, read crowded = .ok p ∧ p.functions.length = 2 ∧
      p.instructions.map (·.span) = [⟨37, 60⟩, ⟨71, 96⟩, ⟨122, 135⟩, ⟨157, 165⟩] ∧
      (∀ f ∈ p.functions, ∀ i ∈ f.instructions, i.Spans crowded ∧ i.span ≠ .absent) ∧
      p.instructions.Pairwise (fun i j => i.span.Before j.span) ∧
      (p.instructions.map (·.span)).Nodup := by
  have hsize : crowded.utf8ByteSize = 167 := by decide +kernel
  have hread : (read crowded).toOption.map
      (fun p => (p.functions.length, p.instructions.map (·.span))) =
        some (2, [⟨37, 60⟩, ⟨71, 96⟩, ⟨122, 135⟩, ⟨157, 165⟩]) := by
    rw [show read crowded = _ from read_ofList _]
    decide +kernel
  cases hp : read crowded with
  | error e =>
    rw [hp] at hread
    cases hread
  | ok p =>
    rw [hp] at hread
    obtain ⟨hlength, hspans⟩ := Prod.mk.inj (Option.some.inj hread)
    exact ⟨hsize, p, rfl, hlength, hspans, spans_of_read (by rw [hsize]; decide) hp⟩

end Program
end SsaGraph
