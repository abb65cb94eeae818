import SsaGraph.Proofs.Program.Runs

/-!
Where the instructions of a text come from.  The instructions of the functions that are read
are written on lines one behind the other (`Yields.laid`), so each is what some line of the
text says (`Program.writtenAt_of_read`), and the opcode of a line is the one its word names
(`returns_operandsOf`).
-/

namespace SsaGraph

theorem Builder.instructions_push (b : Builder) (opcode : Opcode) (operands : List Handle) (type : Ty)
    (predicate : Option Predicate) (name : Option String) :
    ∃ result, (b.push opcode operands type predicate name).1.func.instructions =
      b.func.instructions.push ⟨opcode, operands, result, predicate, b.span⟩ := by
  unfold Builder.push
  split <;> exact ⟨_, rfl⟩

theorem Builder.instructions_label (b : Builder) (name : String) :
    (b.label name).1.func.instructions = b.func.instructions := by
  unfold Builder.label
  split <;> rfl

namespace Reader

/-! ## Lines -/

/-- Instruction `i` is what the line at the front of `ts` says, and has its place. -/
def WrittenAt (ts : List (Located Token)) (i : Instruction) : Prop :=
  ∃ (s u : ReadState) (name : Option String) (line : Line), s.rest = ts ∧
    content s.placed = .ok (name, line) u ∧ i.opcode = line.opcode ∧ i.operands = line.operands ∧
    i.predicate = line.predicate ∧ i.span = lineSpan ts

/-- What an instruction that is read adds. -/
theorem instruction_adds {s t : ReadState} (h : instruction s = .ok () t) :
    ∃ i, WrittenAt s.rest i ∧
      t.builder.func.instructions = s.builder.func.instructions.push i := by
  obtain ⟨name, line, u, hcontent, _, rfl⟩ := instruction_eq_ok.mp h
  have honto := onto_content hcontent
  obtain ⟨result, hpush⟩ := Builder.instructions_push u.builder line.opcode line.operands line.type
    line.predicate name
  refine ⟨⟨line.opcode, line.operands, result, line.predicate, u.builder.span⟩, ?_, ?_⟩
  · exact ⟨s, u, name, line, rfl, hcontent, rfl, rfl, rfl, honto.span⟩
  · rw [← show u.builder.func.instructions = s.builder.func.instructions from honto.instructions]
    exact hpush

/-- Reading goes from `ts` to `us` over the lines of the instructions, one behind the other. -/
inductive Laid : List (Located Token) → List Instruction → List (Located Token) → Prop
  | none {ts us : List (Located Token)} (h : Onward ts us) : Laid ts [] us
  | line {ts us vs : List (Located Token)} {i : Instruction} {is : List Instruction}
    (h : Onward ts us) (hstarts : startsLine (ahead us).val = true) (hwritten : WrittenAt us i)
    (hrest : Laid (fromLineEnd us) is vs) : Laid ts (i :: is) vs

section
variable {ts us vs : List (Located Token)} {is js : List Instruction} {i : Instruction}

theorem Laid.onward (hon : Onward ts us) (h : Laid us is vs) : Laid ts is vs := by
  cases h with
  | none h => exact .none (hon.trans h)
  | line h hstarts hwritten hrest => exact .line (hon.trans h) hstarts hwritten hrest

theorem Laid.append (h : Laid ts is us) (h' : Laid us js vs) : Laid ts (is ++ js) vs := by
  induction h with
  | none hon => exact h'.onward hon
  | line hon hstarts hwritten _ ih => exact .line hon hstarts hwritten (ih h')

theorem Laid.exists_line (h : Laid ts is us) (hi : i ∈ is) :
    ∃ vs, Onward ts vs ∧ startsLine (ahead vs).val = true ∧ WrittenAt vs i := by
  induction h with
  | none _ => cases hi
  | line hon hstarts hwritten _ ih =>
    rcases List.mem_cons.mp hi with rfl | hi
    · exact ⟨_, hon, hstarts, hwritten⟩
    · obtain ⟨ws, hws, hline⟩ := ih hi
      exact ⟨ws, hon.trans ((onward_fromLineEnd _).trans hws), hline⟩

/-- Whoever is further on comes to an end of a line that is further on. -/
theorem Onward.fromLineEnd (h : Onward ts us) : Onward (fromLineEnd ts) (fromLineEnd us) := by
  obtain ⟨passed, rfl, hpassed⟩ := h
  induction passed with
  | nil => exact .refl _
  | cons t passed ih =>
    obtain ⟨ht, hpassed⟩ := List.forall_mem_cons.mp hpassed
    by_cases hends : t.val.endsLine = true
    · have hstays : Reader.fromLineEnd (t :: passed ++ us) = t :: passed ++ us := by
        rw [Reader.fromLineEnd, List.cons_append, List.dropWhile_cons_of_neg (by simp [hends])]
      rw [hstays]
      exact .cons ht (.trans ⟨passed, rfl, hpassed⟩ (onward_fromLineEnd us))
    · have hpasses : Reader.fromLineEnd (t :: passed ++ us) = Reader.fromLineEnd (passed ++ us) := by
        rw [Reader.fromLineEnd, List.cons_append, List.dropWhile_cons_of_pos (by simp [hends])]
        rfl
      rw [hpasses]
      exact ih hpassed

end

section
variable {s t : ReadState} {f : Func} {fs : List Func}

/-- A part of a body adds at most the instruction that it is. -/
theorem Passes.laid (h : Passes s t) : ∃ is, Laid s.rest is t.rest ∧
    t.builder.func.instructions.toList = s.builder.func.instructions.toList ++ is := by
  have hon := h.onward.1
  cases h with
  | @label name _ =>
    refine ⟨[], .none hon, ?_⟩
    rw [List.append_nil, ← Builder.instructions_label s.builder name]
  | blank _ => exact ⟨[], .none hon, (List.append_nil _).symm⟩
  | line _ hstarts h =>
    obtain ⟨i, hwritten, hadds⟩ := instruction_adds h
    refine ⟨[i], .line (.refl _) hstarts hwritten (.none (onward_instruction h).1.fromLineEnd), ?_⟩
    simp only [hadds, Array.toList_push]

theorem Lines.laid (h : Lines s t) : ∃ is, Laid s.rest is t.rest ∧
    t.builder.func.instructions.toList = s.builder.func.instructions.toList ++ is := by
  induction h with
  | close _ => exact ⟨[], .none (onward_behind _), (List.append_nil _).symm⟩
  | pass hpasses _ ih =>
    obtain ⟨is, his, hadds⟩ := hpasses.laid
    obtain ⟨js, hjs, hmore⟩ := ih
    exact ⟨is ++ js, his.append hjs, by rw [hmore, hadds, List.append_assoc]⟩

theorem Defines.laid (h : Defines s f t) : Laid s.rest f.instructions.toList t.rest := by
  obtain ⟨name, params, u, hheader, hlines, rfl⟩ := h
  have honto := onto_header hheader
  obtain ⟨is, his, hadds⟩ := hlines.laid
  -- The body starts without instructions.
  have hnone : (u.entered name params).builder.func.instructions.toList = [] := rfl
  rw [hadds, hnone]
  exact his.onward honto.rest

theorem Yields.laid (h : Yields s fs) :
    ∃ ts, Laid s.rest (fs.flatMap (·.instructions.toList)) ts := by
  induction h with
  | stop _ => exact ⟨_, .none (.refl _)⟩
  | skip hskips _ ih =>
    obtain ⟨ts, hts⟩ := ih
    exact ⟨ts, hts.onward hskips.onward.1⟩
  | define _ hdefines _ ih =>
    obtain ⟨ts, hts⟩ := ih
    exact ⟨ts, hdefines.laid.append hts⟩

end

/-! ## What a reader returns -/

/-- Whenever `m` succeeds, what it returns is as `P` says. -/
def Returns {α : Type} (m : Reader α) (P : α → Prop) : Prop :=
  ∀ s a t, m s = .ok a t → P a

section
variable {α β : Type} {P : α → Prop}

theorem Returns.mono {m : Reader α} {Q : α → Prop} (h : Returns m P) (hPQ : ∀ {a}, P a → Q a) :
    Returns m Q :=
  fun s a t hrun => hPQ (h s a t hrun)

theorem Returns.pure {a : α} (h : P a) : Returns (Pure.pure a) P := by
  intro s b t hrun
  cases hrun
  exact h

theorem Returns.bind {m : Reader β} {k : β → Reader α} (h : ∀ b, Returns (k b) P) :
    Returns (m >>= k) P := by
  intro s a t hrun
  obtain ⟨b, u, _, hk⟩ := bind_eq_ok hrun
  exact h b u a t hk

theorem Returns.ite {c : Prop} [Decidable c] {m n : Reader α} (hm : Returns m P)
    (hn : Returns n P) : Returns (if c then m else n) P := by
  split
  · exact hm
  · exact hn

end

theorem returns_call : Returns call (·.opcode = .call) :=
  .bind fun _ => .bind fun _ => .bind fun _ => .pure rfl

/-- A line has the opcode that its word names, or is a call. -/
theorem returns_operandsOf (word : String) (named : Bool) :
    Returns (operandsOf word named) fun line => line.opcode = .ofName word ∨ line.opcode = .call := by
  unfold operandsOf
  split
  · exact .bind fun _ => .bind fun _ => .pure (.inl rfl)
  · exact .bind fun _ => .bind fun _ => .bind fun _ => .bind fun _ => .pure (.inl rfl)
  · exact .bind fun _ => .bind fun _ => .bind fun _ => .bind fun _ => .pure (.inl rfl)
  · refine .bind fun _ => .bind fun _ => .bind fun _ => ?_
    exact .ite (.bind fun _ => .pure (.inl rfl)) (.pure (.inl rfl))
  · exact .bind fun _ => .bind fun _ => .pure (.inl rfl)
  · exact .bind fun _ => .bind fun _ => .pure (.inl rfl)
  · exact .bind fun _ => .bind fun _ => .pure (.inl rfl)
  · exact .bind fun _ => .bind fun _ => .pure (.inl rfl)
  · exact .bind fun _ => .bind fun _ => .pure (.inl rfl)
  · exact .bind fun _ => .bind fun _ => .bind fun _ => .pure (.inl rfl)
  · exact .bind fun _ => .bind fun _ => .bind fun _ => .pure (.inl rfl)
  · exact .bind fun _ => .bind fun _ => .bind fun _ => .bind fun _ => .pure (.inl rfl)
  · exact .bind fun _ => .bind fun _ => .pure (.inl rfl)
  · exact .bind fun _ => .bind fun _ => .bind fun _ => .bind fun _ => .bind fun _ => .bind fun _ =>
      .pure (.inl rfl)
  · exact returns_call.mono .inr
  · exact .bind fun _ => returns_call.mono .inr
  · exact .bind fun _ => returns_call.mono .inr
  · exact .bind fun _ => returns_call.mono .inr
  · refine .bind fun _ => .ite (.bind fun _ => .pure (.inl rfl)) ?_
    exact .bind fun _ => .bind fun _ => .bind fun _ => .bind fun _ => .bind fun _ => .pure (.inl rfl)
  · exact .bind fun _ => .ite (.pure (.inl rfl)) (.bind fun _ => .pure (.inl rfl))
  · refine .bind fun _ => .pure (.inl ?_)
    have hunknown : Opcode.known.find? (fun op => op.name == word) = none := by
      refine List.find?_eq_none.mpr fun op hop hname => ?_
      obtain rfl := beq_iff_eq.mp hname
      cases op with
      | other name => simp [Opcode.known] at hop
      | _ => simp_all only [Opcode.name]
    rw [Opcode.ofName, hunknown]
    rfl

section
variable {ts : List (Located Token)} {i : Instruction}

theorem WrittenAt.span (h : WrittenAt ts i) : i.span = lineSpan ts := by
  obtain ⟨_, _, _, _, _, _, _, _, _, hspan⟩ := h
  exact hspan

/-- An opcode that is not known has the name of no known one. -/
theorem WrittenAt.opcode (h : WrittenAt ts i) : i.opcode = .ofName i.opcode.name := by
  obtain ⟨_, _, _, line, _, hcontent, hopcode, _, _, _⟩ := h
  obtain ⟨_, _, _, h⟩ := bind_eq_ok hcontent
  obtain ⟨word, _, _, h⟩ := bind_eq_ok h
  obtain ⟨_, _, hline, h⟩ := bind_eq_ok h
  cases h
  rcases returns_operandsOf _ _ _ _ _ hline with he | he
  · rw [hopcode, he, Opcode.name_ofName]
  · rw [hopcode, he]
    rfl

/-- A line that is no call starts, behind the name of its result, with the word of its
opcode. -/
theorem WrittenAt.operands (h : WrittenAt ts i) (hop : i.opcode ≠ .call) :
    ∃ (s s₁ s₂ u : ReadState) (name : Option String) (word : Located String) (line : Line),
      s.rest = ts ∧ resultName s = .ok name s₁ ∧ expectWord s₁ = .ok word s₂ ∧
      word.val = i.opcode.name ∧ operandsOf i.opcode.name name.isSome s₂ = .ok line u ∧
      i.operands = line.operands ∧ i.predicate = line.predicate := by
  obtain ⟨s, u, name, line, hrest, hcontent, hopcode, hoperands, hpredicate, _⟩ := h
  obtain ⟨_, s₁, hname, h⟩ := bind_eq_ok hcontent
  obtain ⟨word, s₂, hword, h⟩ := bind_eq_ok h
  obtain ⟨_, _, hline, h⟩ := bind_eq_ok h
  cases h
  have hwordname : i.opcode.name = word.val := by
    rcases returns_operandsOf _ _ _ _ _ hline with he | he
    · rw [hopcode, he, Opcode.name_ofName]
    · exact absurd (hopcode.trans he) hop
  rw [← hwordname] at hline
  exact ⟨s.placed, s₁, s₂, u, name, word, line, hrest, hname, hword, hwordname.symm, hline, hoperands,
    hpredicate⟩

theorem WrittenAt.intPredicate (h : WrittenAt ts i) (hop : i.opcode = .icmp) :
    ∃ p, i.predicate = some (.int p) := by
  obtain ⟨_, _, s, u, _, _, line, _, _, _, _, hline, _, hpredicate⟩ :=
    h.operands (by rw [hop]; exact Opcode.noConfusion)
  have hreturns : Returns icmp fun line => ∃ p, line.predicate = some (.int p) :=
    .bind fun _ => .bind fun p => .bind fun _ => .pure ⟨p, rfl⟩
  rw [hop] at hline
  exact hpredicate ▸ hreturns s line u hline

end

end Reader

namespace Program

variable {text : String} {p : Program} {f : Func} {i : Instruction}

/-- All instructions of a program, in order. -/
def instructions (p : Program) : List Instruction := p.functions.flatMap (·.instructions.toList)

theorem mem_instructions (hf : f ∈ p.functions) (hi : i ∈ f.instructions) : i ∈ p.instructions :=
  List.mem_flatMap.mpr ⟨f, hf, Array.mem_toList_iff.mpr hi⟩

theorem laid_of_read (h : read text = .ok p) :
    ∃ ts, Reader.Laid (Token.scan text).tokens p.instructions ts :=
  (read_eq_ok.mp h).2.laid

/-- Every instruction of a text is what some line of it says. -/
theorem writtenAt_of_read (h : read text = .ok p) (hf : f ∈ p.functions) (hi : i ∈ f.instructions) :
    ∃ ts, Reader.Onward (Token.scan text).tokens ts ∧ Reader.WrittenAt ts i := by
  obtain ⟨us, hlaid⟩ := laid_of_read h
  obtain ⟨ts, hon, -, hwritten⟩ := hlaid.exists_line (mem_instructions hf hi)
  exact ⟨ts, hon, hwritten⟩

end Program
end SsaGraph
