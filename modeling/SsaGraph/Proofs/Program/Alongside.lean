import SsaGraph.Proofs.Program.Runs

/-!
Two readings side by side.  The steps of a reading without a fault are taken again when other
tokens stand behind a seam that they do not pass: parts of a body (`Passes.beside`), bodies,
headers, definitions and lines outside of them.
-/

namespace SsaGraph

theorem Func.Matches.pushInstruction {place : Span → Span → Prop} {f f' : Func}
    (h : f.Matches place f') {i i' : Instruction} (hi : i' = { i with span := i'.span })
    (hspan : place i.span i'.span) :
    Func.Matches place { f with instructions := f.instructions.push i }
      { f' with instructions := f'.instructions.push i' } where
  func := by rw [h.func]
  instructions := by
    rw [Array.toList_push, Array.toList_push]
    exact List.rel_append h.instructions (.cons ⟨hi, hspan⟩ .nil)

/-- An instruction is pushed in both builders. -/
theorem Builder.Matches.push {place : Span → Span → Prop} {b b' : Builder} (h : b.Matches place b')
    (hspan : place b.span b'.span) (opcode : Opcode) (operands : List Handle) (type : Ty)
    (predicate : Option Predicate) (name : Option String) :
    (b.push opcode operands type predicate name).1.Matches place
        (b'.push opcode operands type predicate name).1 ∧
      (b'.push opcode operands type predicate name).2 =
        (b.push opcode operands type predicate name).2 := by
  have hsize : b'.func.instructions.size = b.func.instructions.size := by
    rw [← Array.length_toList, ← Array.length_toList]
    exact h.func.instructions.length_eq.symm
  by_cases htype : type = .void
  · subst htype
    rw [push_void, push_void]
    exact ⟨⟨h.func.pushInstruction rfl hspan, h.symbols, h.labels⟩, rfl⟩
  · obtain ⟨hresult, hfunc⟩ := Reader.matches_pushValue h.func
      (.result b.func.instructions.size) type name
    have hresult : b'.func.values.size = b.func.values.size := hresult
    rw [push_of_ne_void htype, push_of_ne_void htype, hsize, hresult]
    exact ⟨⟨hfunc.pushInstruction rfl hspan, h.symbols, h.labels⟩, rfl⟩

namespace Reader

section
variable {c : Seam} {d : Prop} {x x' y : List (Located Token)} {s s' t u u' : ReadState}

/-! ## Lines -/

theorem Seam.Same.takeWhile (h : c.Same x x') (hrests : c.Rests x) :
    c.Same ((x ++ c.tail).takeWhile fun t => !t.val.endsLine)
      ((x' ++ c.tail').takeWhile fun t => !t.val.endsLine) := by
  induction h with
  | nil =>
    have htail := hrests.resolve_right fun ⟨t, ht, _⟩ => nomatch ht
    rw [htail, c.tail'_eq_nil htail]
    exact .nil
  | @cons t t' x x' ht _ ih =>
    simp only [List.cons_append, List.takeWhile_cons, ht.1]
    cases hline : t.val.endsLine with
    | true => exact .nil
    | false =>
      refine .cons ht (ih (hrests.imp_right fun ⟨u, hu, hend⟩ => ⟨u, ?_, hend⟩))
      rcases List.mem_cons.mp hu with rfl | hu
      · rw [hline] at hend
        cases hend
      · exact hu

theorem Seam.Same.last (h : c.Same x x') {a a' : Span} (ha : c.place a a') :
    c.place ((x.getLast?.map (·.span)).getD a) ((x'.getLast?.map (·.span)).getD a') := by
  have hreverse : c.Same x.reverse x'.reverse := List.forall₂_reverse_iff.mpr h
  rw [List.getLast?_eq_head?_reverse, List.getLast?_eq_head?_reverse]
  generalize x.reverse = w at hreverse ⊢
  generalize x'.reverse = w' at hreverse ⊢
  cases hreverse with
  | nil => exact ha
  | cons ht _ => exact ht.2

/-- The places of a line that ends in front of the seam. -/
theorem Seam.Same.lineSpan (h : c.Same x x') (hne : x ≠ []) (hrests : c.Rests x) :
    c.place (lineSpan (x ++ c.tail)) (lineSpan (x' ++ c.tail')) := by
  have hfirst : c.place (ahead (x ++ c.tail)).span (ahead (x' ++ c.tail')).span := by
    cases h with
    | nil => exact absurd rfl hne
    | cons ht _ => exact ht.2
  exact c.merge hfirst ((h.takeWhile hrests).last hfirst)

theorem Beside.placed (h : Beside c True s s') : Beside c True s.placed s'.placed where
  rest := h.rest
  builder _ := ⟨(h.builder trivial).func, (h.builder trivial).symbols, (h.builder trivial).labels⟩
  locals := h.locals

theorem Beside.record (h : Beside c True u u') (hspan : c.place u.builder.span u'.builder.span)
    (name : Option String) (line : Line) :
    Beside c True (u.record name line) (u'.record name line) := by
  obtain ⟨hmatched, hresult⟩ := (h.builder trivial).push hspan line.opcode line.operands line.type
    line.predicate name
  refine ⟨h.rest, fun _ => hmatched, fun _ => ?_⟩
  simp only [ReadState.record, hresult, h.locals trivial]

/-- An instruction is read again if its line ends in front of the seam. -/
theorem instruction_beside (h : instruction s = .ok () t) (hne : s.rest ≠ [])
    (hs : Beside c True s s') (hy : t.rest = y ++ c.tail) (hrests : c.Rests y) :
    ∃ t', instruction s' = .ok () t' ∧ Beside c True t t' := by
  obtain ⟨name, line, u, hcontent, hnamed, rfl⟩ := instruction_eq_ok.mp h
  obtain ⟨honto, _, hfollow⟩ := (local_content s.placed).ok hcontent
  obtain ⟨u', hcontent', hu⟩ := hfollow hs.placed hy hrests.shows
  have hspan : c.place u.builder.span u'.builder.span := by
    rw [honto.span, (onto_content hcontent').span]
    obtain ⟨passed, hpassed, _⟩ := honto.rest
    have hx : s.rest = (passed ++ y) ++ c.tail := by
      rw [List.append_assoc, ← show u.rest = y ++ c.tail from hy]
      exact hpassed
    obtain ⟨x', hx', hsame⟩ := hs.split hx
    show c.place (Reader.lineSpan s.rest) (Reader.lineSpan s'.rest)
    rw [hx, hx']
    refine hsame.lineSpan (fun hnil => ?_) (hrests.prepend passed)
    rcases hrests with htail | ⟨t, ht, _⟩
    · exact hne (by rw [hx, hnil, htail]; rfl)
    · exact List.ne_nil_of_mem ht (List.append_eq_nil_iff.mp hnil).2
  exact ⟨u'.record name line, instruction_eq_ok.mpr ⟨name, line, u', hcontent', hnamed, rfl⟩,
    hu.record hspan name line⟩

theorem inert_of_labelOf {t u : Token} {name : String} (h : labelOf t u = some name) :
    inert u = false := by
  cases t <;> cases u <;> first | rfl | cases h

theorem labelAhead_beside (h : c.Same x x') (hx : x ≠ [] ∨ c.tail = [])
    (hlabel : labelAhead (x ++ c.tail) = none) : labelAhead (x' ++ c.tail') = none := by
  unfold labelAhead at hlabel ⊢
  rw [h.ahead_val hx]
  rcases h.afterNext hx with heq | ⟨_, hinert⟩
  · rwa [heq]
  · cases hl : labelOf _ (afterNext (x' ++ c.tail')) with
    | none => rfl
    | some name =>
      rw [inert_of_labelOf hl] at hinert
      cases hinert

theorem closes_or_nil_fromLineEnd (ts : List (Located Token)) :
    fromLineEnd ts = [] ∨ Closes (fromLineEnd ts) := by
  cases hts : fromLineEnd ts with
  | nil => exact .inl rfl
  | cons t us =>
    refine .inr ⟨t, us, rfl, ?_⟩
    have hstop := List.head?_dropWhile_not (fun t : Located Token => !t.val.endsLine) ts
    rw [show ts.dropWhile (fun t => !t.val.endsLine) = t :: us from hts] at hstop
    simpa using hstop

/-- A line ends in front of the seam, unless the seam is at its end. -/
theorem rests_of_fromLineEnd {ts : List (Located Token)} (hy : fromLineEnd ts = y ++ c.tail)
    (hend : y = [] → c.tail = [] ∨ ¬Closes c.tail) : c.Rests y := by
  rcases closes_or_nil_fromLineEnd ts with hnil | ⟨t, us, ht, hline⟩
  · rw [hnil] at hy
    exact .inl (List.append_eq_nil_iff.mp hy.symm).2
  · cases y with
    | nil =>
      refine .inl ((hend rfl).resolve_right fun h => h ⟨t, us, ?_, hline⟩)
      rw [← ht, hy, List.nil_append]
    | cons b y =>
      rw [ht] at hy
      cases hy
      exact .inr ⟨t, List.mem_cons_self, hline⟩

theorem together_fromLineEnd {sure plain : Prop} : Together sure plain fromLineEnd :=
  together_dropWhile (p := fun t => !t.endsLine) fun t ht => by rw [ht]; rfl

/-- The tokens that are left in front of the seam, with those that are passed. -/
theorem Onward.split {ts us : List (Located Token)} (h : Onward ts us) (hy : us = y ++ c.tail) :
    ∃ passed, ts = (passed ++ y) ++ c.tail := by
  obtain ⟨passed, hpassed, _⟩ := h
  exact ⟨passed, by rw [hpassed, hy, List.append_assoc]⟩

/-- What passes a token starts in front of the seam. -/
theorem ne_nil_of_length_lt {ts us : List (Located Token)} (hx : ts = x ++ c.tail)
    (hy : us = y ++ c.tail) (h : us.length < ts.length) : x ≠ [] := by
  rintro rfl
  rw [hx, hy, List.nil_append, List.length_append] at h
  omega

theorem exists_of_labelAhead {ts : List (Located Token)} {name : String}
    (h : labelAhead ts = some name) :
    ∃ a b us, ts = a :: b :: us ∧ labelOf a.val b.val = some name ∧ behind (behind ts) = us := by
  have hend := not_atEnd_of_labelAhead h
  cases ts with
  | nil => cases h
  | cons a ts =>
    have ha : a.val ≠ .eof := hend
    cases ts with
    | nil =>
      have h : labelOf a.val a.val = some name := h
      generalize a.val = t at h
      cases t <;> cases h
    | cons b us =>
      have h : labelOf a.val b.val = some name := h
      have hb : b.val ≠ .eof := fun he => by
        have hinert := inert_of_labelOf h
        rw [he] at hinert
        cases hinert
      refine ⟨a, b, us, rfl, h, ?_⟩
      rw [behind, if_neg ha, behind, if_neg hb]

theorem Passes.beside (h : Passes s t) (hs : Beside c True s s') (hy : t.rest = y ++ c.tail)
    (hend : y = [] → c.tail = [] ∨ ¬Closes c.tail) : ∃ t', Passes s' t' ∧ Beside c True t t' := by
  have hstart := h.not_atEnd
  cases h with
  | @label name h =>
    obtain ⟨a, b, us, hrest, hlabel, hbehind⟩ := exists_of_labelAhead h
    have hy : behind (behind s.rest) = y ++ c.tail := hy
    rw [hbehind] at hy
    have hx : s.rest = (a :: b :: y) ++ c.tail := by rw [hrest, hy]; rfl
    obtain ⟨_, hx', hsame⟩ := hs.split hx
    cases hsame with
    | @cons _ a' _ x' ha hsame =>
      cases hsame with
      | @cons _ b' _ y' hb hsame =>
        have hlabel' : labelAhead s'.rest = some name := by
          rw [hx', ← hlabel, ← ha.1, ← hb.1]
          rfl
        obtain ⟨_, _, us', hrest', _, hbehind'⟩ := exists_of_labelAhead hlabel'
        have hus' : us' = y' ++ c.tail' := by
          rw [hx'] at hrest'
          cases hrest'
          rfl
        refine ⟨_, .label hlabel', ⟨y, y', ?_, ?_, hsame⟩, fun _ => ?_, hs.locals⟩
        · rw [← hy, ← hbehind]
        · rw [← hus', ← hbehind']
        · exact (draws_label name).matched (hs.builder trivial)
  | blank h =>
    obtain ⟨hahead, hbehind⟩ := hs.behind hstart hy
    exact ⟨_, .blank (hahead.trans h), hbehind⟩
  | @line u hlabel hstarts h =>
    have hrests := rests_of_fromLineEnd hy hend
    obtain ⟨passed, hz⟩ := (onward_fromLineEnd u.rest).split hy
    obtain ⟨passed', hx⟩ := (onward_instruction h).1.split hz
    have hne : s.rest ≠ [] := fun he => hstart (by rw [he]; rfl)
    obtain ⟨x', hx', hsame⟩ := hs.split hx
    have hfront : passed' ++ (passed ++ y) ≠ [] ∨ c.tail = [] := by
      rcases (hrests.prepend passed).prepend passed' with htail | ⟨t, ht, _⟩
      · exact .inr htail
      · exact .inl (List.ne_nil_of_mem ht)
    obtain ⟨u', hu', hu⟩ := instruction_beside h hne hs hz (hrests.prepend passed)
    rw [hx] at hlabel hstarts
    refine ⟨_, .line ?_ ?_ hu', hu.pass together_fromLineEnd hy
      (hrests.shows : c.Shows True True y)⟩
    · rw [hx']
      exact labelAhead_beside hsame hfront hlabel
    · rw [hx', hsame.ahead_val hfront]
      exact hstarts

theorem Lines.beside (h : Lines s t) (hs : Beside c True s s') (hy : t.rest = y ++ c.tail) :
    ∃ t', Lines s' t' ∧ Beside c True t t' := by
  induction h generalizing s' with
  | @close s h =>
    have hend : ¬AtEnd s.rest := fun hend => Token.noConfusion (h.symm.trans hend)
    obtain ⟨hahead, hbehind⟩ := hs.behind hend hy
    exact ⟨_, .close (hahead.trans h), hbehind⟩
  | @pass s t u h hrest ih =>
    obtain ⟨passed, hz⟩ := hrest.onward.1.split hy
    have hne := ne_nil_of_length_lt hz hy hrest.length_lt
    obtain ⟨t', ht', ht⟩ := h.beside hs hz fun hnil => absurd hnil hne
    obtain ⟨u', hu', hu⟩ := ih ht hy
    exact ⟨u', .pass ht' hu', hu⟩

/-! ## Functions -/

theorem openBrace_eq_ok : (peek >>= fun t => if t = .lbrace then advance else fail .missingBody) s =
    .ok () t ↔ (ahead s.rest).val = .lbrace ∧ t = { s with rest := behind s.rest } := by
  have hpeek : (peek >>= fun t => if t = .lbrace then advance else fail .missingBody) s =
    (if (ahead s.rest).val = .lbrace then advance else fail .missingBody : Reader Unit) s := rfl
  rw [hpeek]
  split
  next hnext =>
    constructor
    · intro h
      cases h
      exact ⟨hnext, rfl⟩
    · rintro ⟨_, rfl⟩
      rfl
  next hnext =>
    constructor
    · intro h
      cases h
    · exact fun h => absurd h.1 hnext

theorem length_openBody (h : openBody s = .ok () t) : t.rest.length < s.rest.length := by
  obtain ⟨_, u, hskip, h⟩ := bind_eq_ok h
  obtain ⟨hnext, rfl⟩ := openBrace_eq_ok.mp h
  have hend : ¬AtEnd u.rest := fun hend => Token.noConfusion (hnext.symm.trans hend)
  have hless := length_behind hend
  cases hskip
  exact Nat.lt_of_lt_of_le hless (List.dropWhile_sublist _).length_le

/-- The brace that opens a body is the last token that is looked at. -/
theorem openBody_beside (h : openBody s = .ok () t) (hs : Beside c d s s')
    (hy : t.rest = y ++ c.tail) : ∃ t', openBody s' = .ok () t' ∧ Beside c d t t' := by
  obtain ⟨_, u, hskip, h⟩ := bind_eq_ok h
  obtain ⟨hnext, rfl⟩ := openBrace_eq_ok.mp h
  have hend : ¬AtEnd u.rest := fun hend => Token.noConfusion (hnext.symm.trans hend)
  have hz : u.rest = (ahead u.rest :: y) ++ c.tail := by
    rw [List.cons_append, ← show behind u.rest = y ++ c.tail from hy]
    exact cons_behind hend
  have hlocal : LocalAt False True d (skip (·.dropWhile fun t => !endsHeader t.val)) s :=
    local_skip_until (fun t ht => by cases t <;> first | rfl | cases ht) s
  obtain ⟨u', hskip', hu⟩ := (hlocal.ok hskip).2.2 hs hz
    (.inr (.inr (.inl ⟨List.cons_ne_nil _ _, .inl trivial⟩)))
  obtain ⟨hahead, hbehind⟩ := hu.behind hend hy
  refine ⟨_, ?_, hbehind⟩
  show (skip _ >>= _) s' = _
  rw [bind_of_ok hskip']
  exact openBrace_eq_ok.mpr ⟨hahead.trans hnext, rfl⟩

/-- A header is read again from the same tokens. -/
theorem header_beside {a : String × List (Ty × String)} (h : header s = .ok a t)
    (hs : Beside c d s s') (hy : t.rest = y ++ c.tail) :
    ∃ t', header s' = .ok a t' ∧ Beside c d t t' := by
  obtain ⟨_, u, hsignature, h⟩ := bind_eq_ok h
  obtain ⟨_, _, hbody, h⟩ := bind_eq_ok h
  cases h
  obtain ⟨passed, hz⟩ := ((local_openBody u : LocalAt False True d _ u).ok hbody).1.rest.split hy
  have hne := ne_nil_of_length_lt hz hy (length_openBody hbody)
  obtain ⟨u', hsignature', hu⟩ := ((local_signature s : LocalAt False True d _ s).ok hsignature).2.2
    hs hz (.inr (.inr (.inl ⟨hne, .inl trivial⟩)))
  obtain ⟨t', hbody', ht⟩ := openBody_beside hbody hu hy
  refine ⟨t', ?_, ht⟩
  rw [header, bind_of_ok hsignature', bind_of_ok hbody']
  rfl

/-- A body starts from the parameters alone. -/
theorem Beside.entered (h : Beside c d s s') (name : String) (params : List (Ty × String)) :
    Beside c True (s.entered name params) (s'.entered name params) where
  rest := h.rest
  builder _ := ⟨⟨rfl, .nil⟩, rfl, rfl⟩
  locals _ := rfl

theorem Beside.weaken (h : Beside c d s s') : Beside c False s s' :=
  ⟨h.rest, False.elim, False.elim⟩

theorem Defines.beside {f : Func} (h : Defines s f t) (hs : Beside c d s s')
    (hy : t.rest = y ++ c.tail) :
    ∃ f' t', Defines s' f' t' ∧ f.Matches c.place f' ∧ Beside c False t t' := by
  obtain ⟨name, params, u, hheader, hlines, rfl⟩ := h
  obtain ⟨passed, hz⟩ := hlines.onward.1.split hy
  obtain ⟨u', hheader', hu⟩ := header_beside hheader hs hz
  obtain ⟨t', hlines', ht⟩ := hlines.beside (hu.entered name params) hy
  exact ⟨_, t', ⟨name, params, u', hheader', hlines', rfl⟩, (ht.builder trivial).func, ht.weaken⟩

theorem Skips.beside (h : Skips s t) (hs : Beside c d s s') (hy : t.rest = y ++ c.tail)
    (hend : y = [] → c.tail = [] ∨ ¬Closes c.tail ∨ c.Closed) :
    ∃ t', Skips s' t' ∧ Beside c d t t' := by
  have hstart := h.not_atEnd
  cases h with
  | blank h =>
    obtain ⟨hahead, hbehind⟩ := hs.behind hstart hy
    exact ⟨_, .blank (hahead.trans h), hbehind⟩
  | line h =>
    have hy : fromLineEnd s.rest = y ++ c.tail := hy
    obtain ⟨passed, hx⟩ := (onward_fromLineEnd s.rest).split hy
    have hfront := ne_nil_of_length_lt hx hy
      (length_fromLineEnd (endsLine_of_isPassedOver h) (.refl s.rest))
    have hshows : c.Shows True True y := by
      by_cases hne : y = []
      · rcases hend hne with htail | hopen | hclosed
        · exact .inl htail
        · exact (rests_of_fromLineEnd hy fun _ => .inr hopen).shows
        · exact .inr (.inr (.inr ⟨trivial, hclosed⟩))
      · exact .inr (.inr (.inl ⟨hne, .inl trivial⟩))
    obtain ⟨x', hx', hsame⟩ := hs.split hx
    refine ⟨_, .line ?_, hs.pass together_fromLineEnd hy hshows⟩
    rw [hx', hsame.ahead_val (.inl hfront), ← hx]
    exact h

/-- The same tokens, with nothing behind them, yield the same functions. -/
theorem Yields.beside {fs : List Func} (h : Yields s fs) (hs : Beside c False s s')
    (htail : c.tail = []) : ∃ fs', Yields s' fs' ∧ List.Forall₂ (Func.Matches c.place) fs fs' := by
  have hall : ∀ ts : List (Located Token), ts = ts ++ c.tail := fun ts => by
    rw [htail, List.append_nil]
  induction h generalizing s' with
  | @stop s h =>
    obtain ⟨x', hx', hsame⟩ := hs.split (hall s.rest)
    refine ⟨[], .stop ?_, .nil⟩
    show (ahead s'.rest).val = .eof
    rw [hx', hsame.ahead_val (.inr htail), ← hall]
    exact h
  | @skip s t fs h _ ih =>
    obtain ⟨t', ht', ht⟩ := h.beside hs (hall t.rest) fun _ => .inl htail
    obtain ⟨fs', hfs', hsame⟩ := ih ht
    exact ⟨fs', .skip ht' hfs', hsame⟩
  | @define s t f fs hnext h _ ih =>
    obtain ⟨f', t', ht', hf, ht⟩ := h.beside hs (hall t.rest)
    obtain ⟨fs', hfs', hsame⟩ := ih ht
    obtain ⟨x', hx', hsame'⟩ := hs.split (hall s.rest)
    refine ⟨f' :: fs', .define ?_ ht' hfs', .cons hf hsame⟩
    rw [hx', hsame'.ahead_val (.inr htail), ← hall]
    exact hnext

end
end Reader
end SsaGraph
