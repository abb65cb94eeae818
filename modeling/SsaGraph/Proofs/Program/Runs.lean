import SsaGraph.Proofs.Program.Lookahead

/-!
Texts that are read without a fault.
-/

namespace SsaGraph

/-- The state in which the next line is read. -/
def ReadState.placed (s : ReadState) : ReadState :=
  { s with builder := { s.builder with span := Reader.lineSpan s.rest } }

/-- The state with the instruction of a line pushed, and its result named. -/
def ReadState.record (s : ReadState) (name : Option String) (line : Line) : ReadState :=
  let pushed := s.builder.push line.opcode line.operands line.type line.predicate name
  { s with
    builder := pushed.1
    locals := match name, pushed.2 with
      | some name, some v => s.locals.insert name v
      | _, _ => s.locals }

/-- The state in which the body of a function is read. -/
def ReadState.entered (s : ReadState) (name : String) (params : List (Ty × String)) : ReadState :=
  let f := Func.withArgs name params
  { s with
    builder := .start f
    locals := (params.zip f.args).foldl (fun t p => t.insert p.1.2 p.2) Table.empty }

namespace Reader

/-! ## Instructions -/

/-- Pushing the instruction of a line succeeds unless there is a name and nothing to be named. -/
theorem push_eq_ok {name : Option String} {line : Line} {opcode : Located String} {s t : ReadState} :
    (build (·.push line.opcode line.operands line.type line.predicate name) >>= fun result =>
      match name, result with
      | some name, some v => define name v
      | some _, none => throw ⟨.noResult opcode.val, opcode.span⟩
      | none, _ => return ()) s = .ok () t ↔
    (name.isSome = true → line.type ≠ .void) ∧ t = s.record name line := by
  have hresult : (s.builder.push line.opcode line.operands line.type line.predicate name).2 = none ↔
      line.type = .void := by
    unfold Builder.push
    split <;> simp_all
  rw [bind_of_ok (show build _ s = .ok _ { s with builder := _ } from rfl)]
  cases name with
  | none =>
    constructor
    · intro h
      cases h
      exact ⟨Bool.noConfusion, rfl⟩
    · rintro ⟨_, rfl⟩
      rfl
  | some name =>
    cases hr : (s.builder.push line.opcode line.operands line.type line.predicate (some name)).2 with
    | none =>
      constructor
      · intro h
        cases h
      · intro h
        exact absurd (hresult.mp hr) (h.1 rfl)
    | some v =>
      have hvalue : line.type ≠ .void := fun h => Option.some_ne_none v (hr.symm.trans (hresult.mpr h))
      simp only [ReadState.record, hr]
      constructor
      · intro h
        cases h
        exact ⟨fun _ => hvalue, rfl⟩
      · rintro ⟨_, rfl⟩
        rfl

theorem instruction_eq_ok {s t : ReadState} : instruction s = .ok () t ↔
    ∃ name line u, content s.placed = .ok (name, line) u ∧
      (name.isSome = true → line.type ≠ .void) ∧ t = u.record name line := by
  constructor
  · intro h
    have h : (resultName >>= _) s.placed = _ := h
    obtain ⟨name, s₁, hname, h⟩ := bind_eq_ok h
    obtain ⟨opcode, s₂, hopcode, h⟩ := bind_eq_ok h
    obtain ⟨line, u, hline, h⟩ := bind_eq_ok h
    have hcontent : content s.placed = .ok (name, line) u := by
      rw [content, bind_of_ok hname, bind_of_ok hopcode, bind_of_ok hline]
      rfl
    exact ⟨name, line, u, hcontent, push_eq_ok.mp h⟩
  · rintro ⟨name, line, u, hcontent, hpush⟩
    obtain ⟨_, s₁, hname, h⟩ := bind_eq_ok hcontent
    obtain ⟨opcode, s₂, hopcode, h⟩ := bind_eq_ok h
    obtain ⟨_, _, hline, h⟩ := bind_eq_ok h
    cases h
    show (resultName >>= _) s.placed = _
    rw [bind_of_ok hname, bind_of_ok hopcode, bind_of_ok hline]
    exact push_eq_ok.mpr hpush

/-- An instruction that is read stands in the text with everything before it. -/
theorem onward_instruction {s t : ReadState} (h : instruction s = .ok () t) :
    Onward s.rest t.rest ∧ t.faults = s.faults := by
  obtain ⟨name, line, u, hcontent, _, rfl⟩ := instruction_eq_ok.mp h
  have honto := onto_content hcontent
  exact ⟨honto.rest, honto.faults⟩

/-! ## Bodies -/

/-- The label that two tokens make. -/
def labelOf : Token → Token → Option String
  | .word name, .colon => some name
  | .int n, .colon => some (toString n)
  | .str name, .colon => some name
  | _, _ => none

/-- The label that is next. -/
def labelAhead (ts : List (Located Token)) : Option String := labelOf (ahead ts).val (afterNext ts)

theorem peek_eq (s : ReadState) : peek s = .ok (ahead s.rest).val s := rfl

theorem label?_eq (s : ReadState) : label? s = .ok (labelAhead s.rest) s := by
  rw [label?, bind_of_ok (peek_eq s), bind_of_ok (show peekNext s = .ok (afterNext s.rest) s from rfl)]
  unfold labelAhead
  generalize (ahead s.rest).val = t
  generalize afterNext s.rest = u
  -- Three kinds of tokens may be a label; only then is the second one looked at.
  cases t <;> first | rfl | (cases u <;> rfl)

/-- The next token starts an instruction. -/
def startsLine : Token → Bool
  | .newline | .rbrace | .eof => false
  | _ => true

theorem eq_of_startsLine {t : Token} (h : startsLine t = false) :
    t = .newline ∨ t = .rbrace ∨ t = .eof := by
  cases t <;> simp_all [startsLine]

theorem labelAhead_of_startsLine {ts : List (Located Token)} (h : startsLine (ahead ts).val = false) :
    labelAhead ts = none := by
  unfold labelAhead
  rcases eq_of_startsLine h with h | h | h <;> rw [h] <;> rfl

/-- A label, an empty line or an instruction of a body. -/
inductive Passes : ReadState → ReadState → Prop
  | label {s : ReadState} {name : String} (h : labelAhead s.rest = some name) :
    Passes s { s with rest := behind (behind s.rest), builder := (s.builder.label name).1 }
  | blank {s : ReadState} (h : (ahead s.rest).val = .newline) :
    Passes s { s with rest := behind s.rest }
  | line {s t : ReadState} (hlabel : labelAhead s.rest = none)
    (hstarts : startsLine (ahead s.rest).val = true) (h : instruction s = .ok () t) :
    Passes s { t with rest := fromLineEnd t.rest }

section
variable {s t : ReadState}

theorem bodyPart_of_label {name : String} (h : labelAhead s.rest = some name) :
    bodyPart s = .ok (.again ())
      { s with rest := behind (behind s.rest), builder := (s.builder.label name).1 } := by
  rw [bodyPart, bind_of_ok (label?_eq s), h]
  rfl

theorem bodyPart_of_newline (h : (ahead s.rest).val = .newline) :
    bodyPart s = .ok (.again ()) { s with rest := behind s.rest } := by
  rw [bodyPart, bind_of_ok (label?_eq s), labelAhead_of_startsLine (by rw [h]; rfl)]
  show (peek >>= _) s = _
  rw [bind_of_ok (peek_eq s), h]
  rfl

theorem bodyPart_of_rbrace (h : (ahead s.rest).val = .rbrace) :
    bodyPart s = .ok (.done ()) { s with rest := behind s.rest } := by
  rw [bodyPart, bind_of_ok (label?_eq s), labelAhead_of_startsLine (by rw [h]; rfl)]
  show (peek >>= _) s = _
  rw [bind_of_ok (peek_eq s), h]
  rfl

theorem bodyPart_of_eof (h : (ahead s.rest).val = .eof) :
    bodyPart s = .error ⟨.openBody, (ahead s.rest).span⟩ s := by
  rw [bodyPart, bind_of_ok (label?_eq s), labelAhead_of_startsLine (by rw [h]; rfl)]
  show (peek >>= _) s = _
  rw [bind_of_ok (peek_eq s), h]
  rfl

theorem bodyPart_of_startsLine (hlabel : labelAhead s.rest = none)
    (h : startsLine (ahead s.rest).val = true) : bodyPart s =
      (recover instruction >>= fun _ => skip fromLineEnd >>= fun _ => pure (.again ())) s := by
  rw [bodyPart, bind_of_ok (label?_eq s), hlabel]
  show (peek >>= _) s = _
  rw [bind_of_ok (peek_eq s)]
  generalize (ahead s.rest).val = next at h
  cases next <;> first | rfl | cases h

theorem bodyPart_of_passes (h : Passes s t) : bodyPart s = .ok (.again ()) t := by
  cases h with
  | label h => exact bodyPart_of_label h
  | blank h => exact bodyPart_of_newline h
  | @line t hlabel hstarts h =>
    have hrecover : recover instruction s = .ok () t := by rw [recover, h]
    rw [bodyPart_of_startsLine hlabel hstarts, bind_of_ok hrecover]
    rfl

/-- A part of a body is passed, or closes it, if no fault is noted. -/
theorem passes_of_bodyPart {r : Round Unit} (h : bodyPart s = .ok r t) (hfaults : t.faults = []) :
    r = .again () ∧ Passes s t ∨
      r = .done () ∧ (ahead s.rest).val = .rbrace ∧ t = { s with rest := behind s.rest } := by
  have hpasses : ∀ {u}, Passes s u → r = .again () ∧ Passes s t := by
    intro u hu
    rw [bodyPart_of_passes hu] at h
    cases h
    exact ⟨rfl, hu⟩
  cases hlabel : labelAhead s.rest with
  | some name => exact .inl (hpasses (.label hlabel))
  | none =>
    cases hstarts : startsLine (ahead s.rest).val with
    | true =>
      cases hr : instruction s with
      | ok _ u => exact .inl (hpasses (.line hlabel hstarts hr))
      | error e u =>
        have hrecover : recover instruction s = .ok () { u with faults := u.faults ++ [e] } := by
          rw [recover, hr]
        rw [bodyPart_of_startsLine hlabel hstarts, bind_of_ok hrecover] at h
        cases h
        exact absurd hfaults (List.append_ne_nil_of_right_ne_nil _ (List.cons_ne_nil e []))
    | false =>
      rcases eq_of_startsLine hstarts with hnext | hnext | hnext
      · exact .inl (hpasses (.blank hnext))
      · rw [bodyPart_of_rbrace hnext] at h
        cases h
        exact .inr ⟨rfl, hnext, rfl⟩
      · rw [bodyPart_of_eof hnext] at h
        cases h

theorem endsLine_of_startsLine {t : Token} (h : startsLine t = true) : t.endsLine = false := by
  cases t <;> first | rfl | cases h

theorem not_atEnd_of_labelAhead {ts : List (Located Token)} {name : String}
    (h : labelAhead ts = some name) : ¬AtEnd ts := by
  intro hend
  rw [labelAhead_of_startsLine (by rw [hend]; rfl)] at h
  cases h

theorem onward_fromLineEnd (ts : List (Located Token)) : Onward ts (fromLineEnd ts) :=
  onward_dropWhile (fun t ht => by rw [ht]; rfl) ts

/-- A line that is not empty goes on for at least one token. -/
theorem length_fromLineEnd {ts us : List (Located Token)} (hline : (ahead ts).val.endsLine = false)
    (h : Onward ts us) : (fromLineEnd us).length < ts.length := by
  by_cases hless : us.length < ts.length
  · exact Nat.lt_of_le_of_lt (onward_fromLineEnd us).length_le hless
  · rw [h.eq_of_length (Nat.le_of_not_lt hless)]
    cases ts with
    | nil => cases hline
    | cons t ts =>
      have hgoes : (!t.val.endsLine) = true := by
        have ht : t.val.endsLine = false := hline
        rw [ht]
        rfl
      rw [fromLineEnd, List.dropWhile_cons, if_pos hgoes]
      exact Nat.lt_succ_of_le (onward_fromLineEnd ts).length_le

theorem Passes.not_atEnd (h : Passes s t) : ¬AtEnd s.rest := by
  cases h with
  | label h => exact not_atEnd_of_labelAhead h
  | blank h => exact fun hend => Token.noConfusion (h.symm.trans hend)
  | line _ hstarts _ => exact Reader.not_atEnd (endsLine_of_startsLine hstarts)

theorem Passes.onward (h : Passes s t) : Onward s.rest t.rest ∧ t.faults = s.faults := by
  cases h with
  | label h => exact ⟨(onward_behind _).trans (onward_behind _), rfl⟩
  | blank h => exact ⟨onward_behind _, rfl⟩
  | line _ _ h =>
    obtain ⟨hon, hfaults⟩ := onward_instruction h
    exact ⟨hon.trans (onward_fromLineEnd _), hfaults⟩

/-- Some token is passed. -/
theorem Passes.length_lt (h : Passes s t) : t.rest.length < s.rest.length := by
  have hbehind := length_behind h.not_atEnd
  cases h with
  | label h => exact Nat.lt_of_le_of_lt (onward_behind _).length_le hbehind
  | blank h => exact hbehind
  | line _ hstarts h =>
    exact length_fromLineEnd (endsLine_of_startsLine hstarts) (onward_instruction h).1

/-- A body that is read without a fault, up to its closing brace. -/
inductive Lines : ReadState → ReadState → Prop
  | close {s : ReadState} (h : (ahead s.rest).val = .rbrace) : Lines s { s with rest := behind s.rest }
  | pass {s t u : ReadState} (h : Passes s t) (hrest : Lines t u) : Lines s u

theorem lines_of_body (h : body s = .ok () t) (hfaults : t.faults = []) :
    Lines s t ∧ s.faults = [] := by
  suffices hrun : ∀ (a : Unit) (s : ReadState), iterate (fun _ => bodyPart) a s = .ok () t →
      Lines s t ∧ s.faults = [] from hrun () s h
  intro a s
  induction a, s using Reader.iterate.induct (fun _ => bodyPart) with
  | case1 a s b u hr =>
    intro h
    rw [iterate_of_done hr] at h
    cases h
    rcases passes_of_bodyPart hr hfaults with ⟨hround, _⟩ | ⟨_, hclose, rfl⟩
    · cases hround
    · exact ⟨.close hclose, hfaults⟩
  | case2 a s b u hr hless ih =>
    intro h
    rw [iterate_of_again hr hless] at h
    obtain ⟨hlines, hnone⟩ := ih h
    rcases passes_of_bodyPart hr hnone with ⟨_, hpasses⟩ | ⟨hround, _⟩
    · exact ⟨.pass hpasses hlines, hpasses.onward.2.symm.trans hnone⟩
    · cases hround
  | case3 a s b u hr hless =>
    intro h
    rw [iterate_of_idle hr hless] at h
    cases h
    rcases passes_of_bodyPart hr hfaults with ⟨_, hpasses⟩ | ⟨hround, _⟩
    · exact absurd hpasses.length_lt hless
    · cases hround
  | case4 a s e u hr =>
    intro h
    rw [iterate_of_error hr] at h
    cases h

theorem body_of_lines (h : Lines s t) : body s = .ok () t := by
  induction h with
  | close h => exact iterate_of_done (bodyPart_of_rbrace h)
  | pass h _ ih => exact (iterate_of_again (bodyPart_of_passes h) h.length_lt).trans ih

theorem Lines.onward (h : Lines s t) : Onward s.rest t.rest ∧ t.faults = s.faults := by
  induction h with
  | close h => exact ⟨onward_behind _, rfl⟩
  | pass h _ ih => exact ⟨h.onward.1.trans ih.1, ih.2.trans h.onward.2⟩

theorem Lines.length_lt (h : Lines s t) : t.rest.length < s.rest.length := by
  induction h with
  | close h => exact length_behind fun hend => Token.noConfusion (h.symm.trans hend)
  | pass h _ ih => exact Nat.lt_trans ih h.length_lt

theorem Lines.not_atEnd (h : Lines s t) : ¬AtEnd s.rest := by
  cases h with
  | close h => exact fun hend => Token.noConfusion (h.symm.trans hend)
  | pass h _ => exact h.not_atEnd

end

/-! ## Texts -/

section
variable {s t : ReadState} {f : Func} {fs : List Func}

/-- A definition that is read without a fault. -/
def Defines (s : ReadState) (f : Func) (t : ReadState) : Prop :=
  ∃ name params u, header s = .ok (name, params) u ∧ Lines (u.entered name params) t ∧
    f = t.builder.func

theorem function_eq_ok : function s = .ok f t ↔
    ∃ name params u, header s = .ok (name, params) u ∧ body (u.entered name params) = .ok () t ∧
      f = t.builder.func := by
  constructor
  · intro h
    obtain ⟨_, s₁, hadvance, h⟩ := bind_eq_ok h
    obtain ⟨name, s₂, hname, h⟩ := bind_eq_ok h
    obtain ⟨_, s₃, hopen, h⟩ := bind_eq_ok h
    obtain ⟨params, s₄, hparams, h⟩ := bind_eq_ok h
    obtain ⟨_, s₅, hclose, h⟩ := bind_eq_ok h
    obtain ⟨_, u, hbody, h⟩ := bind_eq_ok h
    obtain ⟨_, _, henter, h⟩ := bind_eq_ok h
    cases henter
    obtain ⟨_, _, hlines, h⟩ := bind_eq_ok h
    cases h
    have hsignature : signature s = .ok (name, params) s₅ := by
      rw [signature, bind_of_ok hadvance, bind_of_ok hname, bind_of_ok hopen, bind_of_ok hparams,
        bind_of_ok hclose]
      rfl
    refine ⟨name, params, u, ?_, hlines, rfl⟩
    rw [header, bind_of_ok hsignature, bind_of_ok hbody]
    rfl
  · rintro ⟨name, params, u, hheader, hlines, rfl⟩
    obtain ⟨_, s₅, hsignature, h⟩ := bind_eq_ok hheader
    obtain ⟨_, _, hbody, h⟩ := bind_eq_ok h
    cases h
    obtain ⟨_, s₁, hadvance, h⟩ := bind_eq_ok hsignature
    obtain ⟨_, s₂, hname, h⟩ := bind_eq_ok h
    obtain ⟨_, s₃, hopen, h⟩ := bind_eq_ok h
    obtain ⟨_, s₄, hparams, h⟩ := bind_eq_ok h
    obtain ⟨_, _, hclose, h⟩ := bind_eq_ok h
    cases h
    rw [function, bind_of_ok hadvance, bind_of_ok hname, bind_of_ok hopen, bind_of_ok hparams,
      bind_of_ok hclose, bind_of_ok hbody]
    show (body >>= _) (u.entered name params) = _
    rw [bind_of_ok hlines]
    rfl

theorem Defines.function (h : Defines s f t) : function s = .ok f t := by
  obtain ⟨name, params, u, hheader, hlines, hf⟩ := h
  exact function_eq_ok.mpr ⟨name, params, u, hheader, body_of_lines hlines, hf⟩

theorem defines_of_function (h : function s = .ok f t) (hfaults : t.faults = []) :
    Defines s f t ∧ s.faults = [] := by
  obtain ⟨name, params, u, hheader, hbody, hf⟩ := function_eq_ok.mp h
  obtain ⟨hlines, hnone⟩ := lines_of_body hbody hfaults
  have honto := onto_header hheader
  exact ⟨⟨name, params, u, hheader, hlines, hf⟩, honto.faults.symm.trans hnone⟩

/-- The next token starts a line that is passed over. -/
def isPassedOver : Token → Bool
  | .newline | .eof => false
  | .word w => w != "define"
  | _ => true

/-- A line of a text outside of its functions. -/
inductive Skips : ReadState → ReadState → Prop
  | blank {s : ReadState} (h : (ahead s.rest).val = .newline) : Skips s { s with rest := behind s.rest }
  | line {s : ReadState} (h : isPassedOver (ahead s.rest).val = true) :
    Skips s { s with rest := fromLineEnd s.rest }

theorem textPart_of_eof (h : AtEnd s.rest) : textPart fs s = .ok (.done fs) s := by
  have h : (ahead s.rest).val = .eof := h
  rw [textPart, bind_of_ok (peek_eq s), h]
  rfl

theorem textPart_of_define (h : (ahead s.rest).val = .word "define") :
    textPart fs s = definition fs s := by
  rw [textPart, bind_of_ok (peek_eq s), h]
  rfl

theorem textPart_of_skips (h : Skips s t) : textPart fs s = .ok (.again fs) t := by
  rw [textPart, bind_of_ok (peek_eq s)]
  cases h with
  | blank h =>
    rw [h]
    rfl
  | line h =>
    generalize (ahead s.rest).val = next at h
    cases next with
    | word w => exact congrFun (if_neg (bne_iff_ne.mp h)) s
    | _ => first | rfl | cases h

theorem isPassedOver_of_ne {t : Token} (heof : t ≠ .eof) (hdefine : t ≠ .word "define")
    (hnewline : t ≠ .newline) : isPassedOver t = true := by
  cases t with
  | word w => exact bne_iff_ne.mpr fun hw => hdefine (congrArg Token.word hw)
  | eof => exact absurd rfl heof
  | newline => exact absurd rfl hnewline
  | _ => rfl

theorem endsLine_of_isPassedOver {t : Token} (h : isPassedOver t = true) : t.endsLine = false := by
  cases t <;> first | rfl | cases h

theorem Skips.not_atEnd (h : Skips s t) : ¬AtEnd s.rest := by
  cases h with
  | blank h => exact fun hend => Token.noConfusion (h.symm.trans hend)
  | line h => exact Reader.not_atEnd (endsLine_of_isPassedOver h)

theorem Skips.onward (h : Skips s t) : Onward s.rest t.rest ∧ t.faults = s.faults := by
  cases h with
  | blank h => exact ⟨onward_behind _, rfl⟩
  | line h => exact ⟨onward_fromLineEnd _, rfl⟩

theorem Skips.length_lt (h : Skips s t) : t.rest.length < s.rest.length := by
  have hbehind := length_behind h.not_atEnd
  cases h with
  | blank h => exact hbehind
  | line h => exact length_fromLineEnd (endsLine_of_isPassedOver h) (.refl _)

theorem Defines.onward (h : Defines s f t) : Onward s.rest t.rest ∧ t.faults = s.faults := by
  obtain ⟨name, params, u, hheader, hlines, _⟩ := h
  have honto := onto_header hheader
  exact ⟨honto.rest.trans hlines.onward.1, hlines.onward.2.trans honto.faults⟩

theorem Defines.length_lt (h : Defines s f t) : t.rest.length < s.rest.length := by
  obtain ⟨name, params, u, hheader, hlines, _⟩ := h
  have honto := onto_header hheader
  exact Nat.lt_of_lt_of_le hlines.length_lt honto.rest.length_le

theorem textPart_of_defines (hnext : (ahead s.rest).val = .word "define") (h : Defines s f t) :
    textPart fs s = .ok (.again (fs ++ [f])) t := by
  rw [textPart_of_define hnext, definition, h.function]

/-- What a part of a text is, if no fault is noted. -/
theorem textPart_eq_ok {r : Round (List Func)} (h : textPart fs s = .ok r t)
    (hfaults : t.faults = []) :
    r = .done fs ∧ AtEnd s.rest ∧ t = s ∨ r = .again fs ∧ Skips s t ∨
      ∃ f, r = .again (fs ++ [f]) ∧ (ahead s.rest).val = .word "define" ∧ Defines s f t ∧
        s.faults = [] := by
  have hskips : ∀ {u}, Skips s u → r = .again fs ∧ Skips s t := by
    intro u hu
    rw [textPart_of_skips hu] at h
    cases h
    exact ⟨rfl, hu⟩
  by_cases hend : AtEnd s.rest
  · rw [textPart_of_eof hend] at h
    cases h
    exact .inl ⟨rfl, hend, rfl⟩
  · by_cases hdefine : (ahead s.rest).val = .word "define"
    · rw [textPart_of_define hdefine, definition] at h
      cases hr : function s with
      | ok f u =>
        rw [hr] at h
        cases h
        obtain ⟨hdefines, hnone⟩ := defines_of_function hr hfaults
        exact .inr (.inr ⟨f, rfl, hdefine, hdefines, hnone⟩)
      | error e u =>
        rw [hr] at h
        cases h
        exact absurd hfaults (List.append_ne_nil_of_right_ne_nil _ (List.cons_ne_nil e []))
    · refine .inr (.inl ?_)
      by_cases hnewline : (ahead s.rest).val = .newline
      · exact hskips (.blank hnewline)
      · exact hskips (.line (isPassedOver_of_ne hend hdefine hnewline))

/-- A text that is read without a fault, and its functions. -/
inductive Yields : ReadState → List Func → Prop
  | stop {s : ReadState} (h : AtEnd s.rest) : Yields s []
  | skip {s t : ReadState} {fs : List Func} (h : Skips s t) (hrest : Yields t fs) : Yields s fs
  | define {s t : ReadState} {f : Func} {fs : List Func} (hnext : (ahead s.rest).val = .word "define")
    (h : Defines s f t) (hrest : Yields t fs) : Yields s (f :: fs)

theorem yields_of_functions {gs : List Func} (h : iterate textPart fs s = .ok gs t)
    (hfaults : t.faults = []) : ∃ new, gs = fs ++ new ∧ Yields s new ∧ s.faults = [] := by
  induction fs, s using Reader.iterate.induct textPart with
  | case1 fs s b u hr =>
    rw [iterate_of_done hr] at h
    cases h
    rcases textPart_eq_ok hr hfaults with ⟨hround, hend, rfl⟩ | ⟨hround, _⟩ | ⟨f, hround, _⟩
    · cases hround
      exact ⟨[], (List.append_nil _).symm, .stop hend, hfaults⟩
    · cases hround
    · cases hround
  | case2 fs s b u hr hless ih =>
    rw [iterate_of_again hr hless] at h
    obtain ⟨new, rfl, hyields, hnone⟩ := ih h
    rcases textPart_eq_ok hr hnone with ⟨hround, _⟩ | ⟨hround, hskips⟩ | ⟨f, hround, hnext, hf, hs⟩
    · cases hround
    · cases hround
      exact ⟨new, rfl, .skip hskips hyields, hskips.onward.2.symm.trans hnone⟩
    · cases hround
      exact ⟨f :: new, List.append_assoc .., .define hnext hf hyields, hs⟩
  | case3 fs s b u hr hless =>
    rw [iterate_of_idle hr hless] at h
    cases h
    rcases textPart_eq_ok hr hfaults with ⟨hround, _⟩ | ⟨_, hskips⟩ | ⟨f, _, _, hf, _⟩
    · cases hround
    · exact absurd hskips.length_lt hless
    · exact absurd hf.length_lt hless
  | case4 fs s e u hr =>
    rw [iterate_of_error hr] at h
    cases h

theorem functions_of_yields (h : Yields s fs) (gs : List Func) :
    ∃ t, iterate textPart gs s = .ok (gs ++ fs) t ∧ t.faults = s.faults := by
  induction h generalizing gs with
  | @stop s h => exact ⟨s, by rw [iterate_of_done (textPart_of_eof h), List.append_nil], rfl⟩
  | skip h _ ih =>
    obtain ⟨u, hr, hfaults⟩ := ih gs
    exact ⟨u, (iterate_of_again (textPart_of_skips h) h.length_lt).trans hr,
      hfaults.trans h.onward.2⟩
  | @define _ _ f fs hnext h _ ih =>
    obtain ⟨u, hr, hfaults⟩ := ih (gs ++ [f])
    rw [List.append_assoc] at hr
    exact ⟨u, (iterate_of_again (textPart_of_defines hnext h) h.length_lt).trans hr,
      hfaults.trans h.onward.2⟩

end

end Reader

/-- Tokens are read, without a fault, as the functions that they yield. -/
theorem Program.ofTokens_eq_ok {ts : List (Located Token)} {p : Program} :
    Program.ofTokens ts = .ok p ↔ Reader.Yields ⟨ts, [], default, .empty⟩ p.functions := by
  constructor
  · intro h
    unfold ofTokens at h
    split at h
    next fs t hr =>
      split at h
      next hfaults =>
        cases h
        obtain ⟨new, rfl, hyields, _⟩ := Reader.yields_of_functions hr (List.isEmpty_iff.mp hfaults)
        exact hyields
      · cases h
    · cases h
  · intro hyields
    obtain ⟨t, hr, hfaults⟩ := Reader.functions_of_yields hyields []
    rw [ofTokens, Reader.functions, hr]
    simp only [hfaults, List.isEmpty_nil, if_true]
    rfl

/-- A text is read if its tokens are. -/
theorem Program.read_eq_ok {text : String} {p : Program} : Program.read text = .ok p ↔
    (Token.scan text).faults = [] ∧
      Reader.Yields ⟨(Token.scan text).tokens, [], default, .empty⟩ p.functions := by
  rw [← ofTokens_eq_ok]
  constructor
  · intro h
    unfold read at h
    simp only at h
    split at h
    next hscan => exact ⟨List.isEmpty_iff.mp hscan, h⟩
    · cases h
  · rintro ⟨hscan, h⟩
    unfold read
    simp only [hscan, List.isEmpty_nil, if_true]
    exact h

end SsaGraph
