import SsaGraph.Proofs.Program.Attributes
import SsaGraph.Proofs.Program.Headers

/-!
Decorations of instructions: flags behind an opcode, markers of tail calls, attributes of arguments,
alignments, metadata and references to attributes.  Each of them is passed over where it may stand
(`content_decorated`).  A text with any number of them yields the same functions, with their
instructions at other places (`Program.ofTokens_decorated`).
-/

namespace SsaGraph

/-- The state at the end of the current line. -/
def ReadState.lineEnd (s : ReadState) : ReadState := { s with rest := Reader.fromLineEnd s.rest }

namespace Reader

/-! ## Decorated lines -/

/-- The tokens that name the result of a line. -/
def resultTokens : Option String → List Token
  | none => []
  | some name => [.loc name, .equals]

def tailMarkers : List String := ["tail", "musttail", "notail"]

/-- The opcode of a call, perhaps behind a marker. -/
def callTokens : Option String → List Token
  | none => [.word "call"]
  | some marker => [.word marker, .word "call"]

def fastMathOpcodes : List String := ["fadd", "fsub", "fmul", "fdiv", "fneg", "fcmp", "select"]

/-- The word `w` may stand behind the opcode. -/
inductive Flag : String → String → Prop
  | fastMath {opcode w : String} (h : opcode ∈ fastMathOpcodes)
    (hw : w ∈ ["fast", "nnan", "ninf", "nsz", "arcp", "contract", "afn", "reassoc"]) : Flag opcode w
  | address {w : String} (hw : w ∈ ["inbounds", "nuw", "nusw"]) : Flag "getelementptr" w

/-- The tokens may stand at the end of a line with the given opcode. -/
inductive Trailer (opcode : String) : List Token → Prop
  | align (n : UInt64) (h : opcode ∈ ["alloca", "load", "store"]) :
    Trailer opcode [.comma, .word "align", .int n]
  | metadata (kind node : String) : Trailer opcode [.comma, .metadata kind, .metadata node]
  | attributes (group : String) : Trailer opcode [.attr group]

/-- The tokens from the instruction at `t` on, with one more decoration on its line. -/
inductive Decoration (t : ReadState) : List Token → Prop
  /-- A flag right behind the opcode. -/
  | flag {name : Option String} {opcode w : String} {x : List Token} (h : Flag opcode w)
    (ht : t.tokens = resultTokens name ++ .word opcode :: x) :
    Decoration t (resultTokens name ++ .word opcode :: .word w :: x)
  /-- A marker in front of a call that has none. -/
  | marker {name : Option String} {marker : String} {x : List Token} (h : marker ∈ tailMarkers)
    (ht : t.tokens = resultTokens name ++ (callTokens none ++ x)) :
    Decoration t (resultTokens name ++ (callTokens (some marker) ++ x))
  /-- A word that is no type right behind the opcode of a call. -/
  | call {name marker : Option String} {w : String} {x : List Token}
    (hmarker : ∀ m ∈ marker, m ∈ tailMarkers) (hw : Ty.ofWord? w = none)
    (ht : t.tokens = resultTokens name ++ (callTokens marker ++ x)) :
    Decoration t (resultTokens name ++ (callTokens marker ++ .word w :: x))
  /-- An attribute between the type and the value of an argument. -/
  | argument {name marker : Option String} {front passed : List (Located Token)} {v : ReadState}
    {new : List Token} (hmarker : ∀ m ∈ marker, m ∈ tailMarkers)
    (hrest : t.rest = front ++ (passed ++ v.rest))
    (hfront : front.map (·.val) = resultTokens name ++ callTokens marker)
    (hv : InArgument { t.placed with rest := passed ++ v.rest } v)
    (hnew : Attribute AttributeWord new) :
    Decoration t (front.map (·.val) ++ (passed.map (·.val) ++ (new ++ v.tokens)))
  /-- An alignment, metadata or a reference to attributes at the end of the line. -/
  | trailer {name : Option String} {opcode : String} {x new : List Token}
    {front : List (Located Token)} {u : ReadState} (hopcode : opcode ∈ lineWords)
    (ht : t.tokens = resultTokens name ++ .word opcode :: x) (h : instruction t = .ok () u)
    (hrest : t.rest = front ++ u.lineEnd.rest) (hnew : Trailer opcode new) :
    Decoration t (front.map (·.val) ++ (new ++ u.lineEnd.tokens))

section
variable {s s' t t' u : ReadState} {name marker : Option String} {opcode w : String}
  {x new : List Token} {front front' r r' : List (Located Token)}

/-- The operands are read behind the opcode. -/
theorem content_of_opcode (hrest : s.rest = front ++ r)
    (hfront : front.map (·.val) = resultTokens name ++ [.word w]) :
    content s = (operandsOf w name.isSome >>= fun line => pure (name, line)) { s with rest := r } := by
  obtain ⟨rest, faults, builder, locals⟩ := s
  subst hrest
  cases name with
  | none =>
    obtain ⟨⟨_, p⟩, us, rfl, rfl, hnil⟩ := List.map_eq_cons_iff.mp hfront
    obtain rfl := List.map_eq_nil_iff.mp hnil
    rfl
  | some name =>
    obtain ⟨⟨_, p⟩, us, rfl, rfl, hequals⟩ := List.map_eq_cons_iff.mp hfront
    obtain ⟨⟨_, q⟩, us, rfl, rfl, hword⟩ := List.map_eq_cons_iff.mp hequals
    obtain ⟨⟨_, q'⟩, us, rfl, rfl, hnil⟩ := List.map_eq_cons_iff.mp hword
    obtain rfl := List.map_eq_nil_iff.mp hnil
    rfl

theorem operandsOf_of_marker (h : w ∈ tailMarkers) (named : Bool) :
    operandsOf w named = expectKeyword "call" >>= fun _ => call := by
  simp only [tailMarkers, List.mem_cons, List.not_mem_nil, or_false] at h
  rcases h with rfl | rfl | rfl <;> rfl

/-- A marker in front of a call does not matter. -/
theorem content_of_call (hmarker : ∀ m ∈ marker, m ∈ tailMarkers) (hrest : s.rest = front ++ r)
    (hfront : front.map (·.val) = resultTokens name ++ callTokens marker) :
    content s = (call >>= fun line => pure (name, line)) { s with rest := r } := by
  cases marker with
  | none => exact content_of_opcode hrest hfront
  | some m =>
    rw [callTokens, List.append_cons] at hfront
    obtain ⟨us, vs, rfl, hus, hvs⟩ := List.map_eq_append_iff.mp hfront
    obtain ⟨⟨_, p⟩, vs, rfl, rfl, hnil⟩ := List.map_eq_cons_iff.mp hvs
    obtain rfl := List.map_eq_nil_iff.mp hnil
    rw [List.append_assoc] at hrest
    rw [content_of_opcode hrest hus, operandsOf_of_marker (hmarker m rfl), bind_assoc]
    rfl

/-- The first argument of a call may have one more attribute. -/
theorem Decoration.firstArgument {z z' : List Token} {ty ty' : Ty} {callee : String}
    (hmarker : ∀ m ∈ marker, m ∈ tailMarkers) (hz : Ty.Spelled z ty) (hz' : Ty.Spelled z' ty')
    (hx : x ≠ []) (hstar : x.head? ≠ some .star)
    (hnew : Attribute AttributeWord new)
    (ht : t.tokens = resultTokens name ++ (callTokens marker ++
      (z ++ .glob callee :: .lparen :: (z' ++ x)))) :
    Decoration t (resultTokens name ++ (callTokens marker ++
      (z ++ .glob callee :: .lparen :: (z' ++ (new ++ x))))) := by
  rw [← List.append_assoc] at ht
  obtain ⟨front, r, hrest, hfront, hr⟩ := List.map_eq_append_iff.mp ht
  obtain ⟨v, hv, rfl⟩ := exists_inArgument (s := { t.placed with rest := r }) hz hz' hx hstar hr
  obtain ⟨passed, hpassed, _⟩ := hv.onward
  obtain rfl : r = passed ++ v.rest := hpassed
  have hpassed : passed.map (·.val) = z ++ .glob callee :: .lparen :: z' := by
    rw [List.map_append, ← List.cons_append, ← List.cons_append, ← List.append_assoc] at hr
    exact List.append_cancel_right hr
  have hdecoration := Decoration.argument hmarker hrest hfront hv hnew
  rw [hfront, hpassed] at hdecoration
  simpa only [List.append_assoc, List.cons_append] using hdecoration

/-! ## What is passed over -/

theorem skip_cons {α : Type} {p : Token → Bool} {k : Unit → Reader α} {b : Located Token}
    (hb : p b.val = true) :
    (skip (·.dropWhile fun t => p t.val) >>= k) { s with rest := b :: r } =
      (skip (·.dropWhile fun t => p t.val) >>= k) { s with rest := r } := by
  have hdrop : (b :: r).dropWhile (fun t => p t.val) = r.dropWhile fun t => p t.val :=
    List.dropWhile_cons_of_pos hb
  exact congrArg (fun us => k () { s with rest := us }) hdrop

theorem operandsOf_flag (h : Flag opcode w) {b : Located Token} (hb : b.val = .word w) (named : Bool) :
    operandsOf opcode named { s with rest := b :: r } =
      operandsOf opcode named { s with rest := r } := by
  cases h with
  | fastMath h hw =>
    have hflag : isFastMathFlag b.val = true := by
      rw [hb]
      exact List.contains_iff_mem.mpr hw
    simp only [fastMathOpcodes, List.mem_cons, List.not_mem_nil, or_false] at h
    rcases h with rfl | rfl | rfl | rfl | rfl | rfl | rfl <;> exact skip_cons hflag
  | address hw =>
    have hflag : isAddressFlag b.val = true := by
      rw [hb]
      exact List.contains_iff_mem.mpr hw
    exact skip_cons hflag

theorem call_decoration (hw : Ty.ofWord? w = none) {b : Located Token} (hb : b.val = .word w) :
    call { s with rest := b :: r } = call { s with rest := r } := by
  have hflag : isCallDecoration b.val = true := by
    rw [hb, isCallDecoration, hw]
    rfl
  have hhead : callHead { s with rest := b :: r } = callHead { s with rest := r } := skip_cons hflag
  show EStateM.bind callHead _ _ = EStateM.bind callHead _ _
  rw [EStateM.bind, EStateM.bind, hhead]

theorem Trailer.trails (h : Trailer opcode (r.map (·.val))) :
    Trails (opcode = "getelementptr") (r ++ r') := by
  generalize hr : r.map (·.val) = z at h
  cases h with
  | align n h =>
    obtain ⟨a, us, rfl, ha, _⟩ := List.map_eq_cons_iff.mp hr
    refine .inr ⟨ha, fun hopcode => ?_⟩
    rw [hopcode] at h
    exact absurd h (by decide)
  | metadata kind node =>
    obtain ⟨a, us, rfl, ha, hus⟩ := List.map_eq_cons_iff.mp hr
    obtain ⟨b, us, rfl, hb, _⟩ := List.map_eq_cons_iff.mp hus
    refine .inr ⟨ha, fun _ => ?_⟩
    show isMetadata b.val = true
    rw [hb]
    rfl
  | attributes group =>
    obtain ⟨a, us, rfl, ha, _⟩ := List.map_eq_cons_iff.mp hr
    exact .inl ⟨group, ha⟩

theorem Trails.startsInert {address : Prop} {ts : List (Located Token)} (h : Trails address ts) :
    StartsInert ts := by
  obtain ⟨b, bs, rfl⟩ := List.exists_cons_of_ne_nil h.ne_nil
  refine ⟨b, bs, rfl, ?_⟩
  rcases h with ⟨group, h⟩ | ⟨h, _⟩
  · rw [show b.val = .attr group from h]
    rfl
  · rw [show b.val = .comma from h]
    rfl

theorem Trailer.endsLine (h : Trailer opcode x) : ∀ t ∈ x, t.endsLine = false := by
  cases h <;> simp [Token.endsLine]

theorem Closes.startsInert {ts : List (Located Token)} (h : Closes ts) : StartsInert ts := by
  obtain ⟨t, us, hts, ht⟩ := h
  exact ⟨t, us, hts, inert_of_endsLine ht⟩

theorem Closes.congr (h : Closes r) (hmap : r'.map (·.val) = r.map (·.val)) : Closes r' := by
  obtain ⟨t, us, rfl, ht⟩ := h
  obtain ⟨t', us', rfl, hval, _⟩ := List.map_eq_cons_iff.mp hmap
  exact ⟨t', us', rfl, by rw [hval, ht]⟩

/-- All of a line is passed over, up to its end. -/
theorem fromLineEnd_append (hfront : ∀ a ∈ front.map (·.val), a.endsLine = false) (hr : Closes r) :
    fromLineEnd (front ++ r) = r := by
  obtain ⟨t, us, rfl, ht⟩ := hr
  have hpass : ∀ t ∈ front, (!t.val.endsLine) = true := fun t ht => by
    rw [hfront _ (List.mem_map_of_mem ht)]
    rfl
  rw [fromLineEnd, List.dropWhile_append_of_pos hpass,
    List.dropWhile_cons_of_neg (by rw [ht]; exact Bool.false_ne_true)]

/-! ## One more decoration -/

/-- Behind its last token a line ends alike in both runs. -/
theorem Beside.lineEnd {u' : ReadState} (h : Beside .anywhere True u u') :
    Beside .anywhere True u.lineEnd u'.lineEnd :=
  h.pass (together_fromLineEnd : Together True True fromLineEnd) (List.append_nil _).symm (.inl rfl)

/-- The operands are read again up to a trailer, which is passed over with what stands behind them
on the line. -/
theorem operandsOf_trailer {line : Line} {named : Bool} {passed passed' new back : List (Located Token)}
    (hopcode : opcode ∈ lineWords) (h : operandsOf opcode named s = .ok line u) (halike : Alike s s')
    (hrest : s.rest = passed ++ fromLineEnd u.rest) (hrest' : s'.rest = passed' ++ (new ++ back))
    (hpassed : passed'.map (·.val) = passed.map (·.val)) (hnew : Trailer opcode (new.map (·.val)))
    (hback : back.map (·.val) = (fromLineEnd u.rest).map (·.val)) (hend : fromLineEnd u.rest ≠ []) :
    ∃ u', operandsOf opcode named s' = .ok line u' ∧ Beside .anywhere True u.lineEnd u'.lineEnd := by
  have hcloses := (closes_or_nil_fromLineEnd u.rest).resolve_left hend
  have htrails : Trails (opcode = "getelementptr") (new ++ back) := hnew.trails
  have hs : Beside (.apart hcloses.startsInert htrails.startsInert) True s s' := by
    have hs := halike.apart hcloses.startsInert htrails.startsInert hpassed
    rwa [← hrest, ← hrest'] at hs
  obtain ⟨behind, hbehind, hline⟩ : OnLine u.rest (fromLineEnd u.rest) :=
    onLine_dropWhile (fun t ht => by rw [ht]; rfl) u.rest
  obtain ⟨u', hu', hu⟩ := (moves_operandsOf hopcode id named).follow h hs hbehind htrails
  refine ⟨u', hu', hu.alike_of_apart.anywhere ?_⟩
  obtain ⟨behind', hbehind', hsame⟩ := hu.split hbehind
  have hbehind' : u'.rest = (behind' ++ new) ++ back := hbehind'.trans (List.append_assoc ..).symm
  rw [hbehind', fromLineEnd_append ?_ (hcloses.congr hback), hback]
  rw [List.map_append, Seam.same_anywhere.mp hsame]
  refine List.forall_mem_append.mpr ⟨fun a ha => ?_, hnew.endsLine⟩
  obtain ⟨t, ht, rfl⟩ := List.mem_map.mp ha
  exact hline t ht

theorem content_flag {a : Option String × Line} (hflag : Flag opcode w) (h : content s = .ok a u)
    (halike : Alike s s') (hs : s.tokens = resultTokens name ++ .word opcode :: x)
    (hs' : s'.tokens = resultTokens name ++ .word opcode :: .word w :: x) :
    ∃ u', content s' = .ok a u' ∧ Beside .anywhere True u u' := by
  rw [List.append_cons] at hs hs'
  obtain ⟨front, r, hrest, hfront, hr⟩ := List.map_eq_append_iff.mp hs
  obtain ⟨front', _, hrest', hfront', hword⟩ := List.map_eq_append_iff.mp hs'
  obtain ⟨b, r', rfl, hb, hr'⟩ := List.map_eq_cons_iff.mp hword
  rw [content_of_opcode hrest hfront] at h
  obtain ⟨line, v, hline, h⟩ := bind_eq_ok h
  cases h
  obtain ⟨u', hline', hu⟩ := (local_operandsOf opcode _).anywhere hline
    (halike.anywhere (hr'.trans hr.symm))
  refine ⟨u', ?_, hu⟩
  rw [content_of_opcode hrest' hfront', bind_of_ok ((operandsOf_flag hflag hb _).trans hline')]
  rfl

/-- A call may have a marker, or another one, and another word behind it. -/
theorem content_callWords (words : List (Located Token)) {a : Option String × Line}
    {marker' : Option String} (hmarker : ∀ m ∈ marker, m ∈ tailMarkers)
    (hmarker' : ∀ m ∈ marker', m ∈ tailMarkers) (h : content s = .ok a u) (halike : Alike s s')
    (hs : s.tokens = resultTokens name ++ (callTokens marker ++ x))
    (hs' : s'.rest = front' ++ (words ++ r'))
    (hfront' : front'.map (·.val) = resultTokens name ++ callTokens marker') (hr' : r'.map (·.val) = x)
    (hwords : Reader.call { s' with rest := words ++ r' } = Reader.call { s' with rest := r' }) :
    ∃ u', content s' = .ok a u' ∧ Beside .anywhere True u u' := by
  rw [← List.append_assoc] at hs
  obtain ⟨front, r, hrest, hfront, hr⟩ := List.map_eq_append_iff.mp hs
  rw [content_of_call hmarker hrest hfront] at h
  obtain ⟨line, v, hline, h⟩ := bind_eq_ok h
  cases h
  have hlocal : Local False True True Reader.call := local_call
  obtain ⟨u', hline', hu⟩ := hlocal.anywhere hline (halike.anywhere (hr'.trans hr.symm))
  refine ⟨u', ?_, hu⟩
  rw [content_of_call hmarker' hs' hfront', bind_of_ok (hwords.trans hline')]
  rfl

theorem content_argument {a : Option String × Line} {v : ReadState}
    {passed : List (Located Token)} (hmarker : ∀ m ∈ marker, m ∈ tailMarkers) (h : content s = .ok a u)
    (halike : Alike s s') (hrest : s.rest = front ++ (passed ++ v.rest))
    (hfront : front.map (·.val) = resultTokens name ++ callTokens marker)
    (hv : InArgument { s with rest := passed ++ v.rest } v)
    (hnew : Attribute AttributeWord new)
    (hs' : s'.tokens = front.map (·.val) ++ (passed.map (·.val) ++ (new ++ v.tokens))) :
    ∃ u', content s' = .ok a u' ∧ Beside .anywhere True u u' := by
  obtain ⟨front', _, hrest', hfront', hbehind⟩ := List.map_eq_append_iff.mp hs'
  obtain ⟨passed', _, rfl, hpassed, hbehind'⟩ := List.map_eq_append_iff.mp hbehind
  obtain ⟨new', back, rfl, rfl, hback⟩ := List.map_eq_append_iff.mp hbehind'
  rw [content_of_call hmarker hrest hfront] at h
  obtain ⟨line, z, hline, h⟩ := bind_eq_ok h
  cases h
  have halike' : Alike { s with rest := passed ++ v.rest }
      { s' with rest := passed' ++ (new' ++ back) } := ⟨halike.builder, halike.locals⟩
  obtain ⟨u', hline', hu⟩ := call_attributed hline hv halike' rfl rfl hpassed hnew hback
  refine ⟨u', ?_, hu⟩
  rw [content_of_call hmarker hrest' (hfront'.trans hfront), bind_of_ok hline']
  rfl

/-- The operands of a line stand between its opcode and its end. -/
theorem exists_operands {a : Option String × Line} (hopcode : opcode ∈ lineWords)
    (h : content s = .ok a u) (hs : s.tokens = resultTokens name ++ .word opcode :: x) :
    ∃ lead passed line, s.rest = lead ++ (passed ++ u.lineEnd.rest) ∧
      lead.map (·.val) = resultTokens name ++ [.word opcode] ∧ passed ≠ [] ∧
      operandsOf opcode name.isSome { s with rest := passed ++ u.lineEnd.rest } = .ok line u ∧
      a = (name, line) := by
  rw [List.append_cons] at hs
  obtain ⟨lead, r, hrest, hlead, _⟩ := List.map_eq_append_iff.mp hs
  rw [content_of_opcode hrest hlead] at h
  obtain ⟨line, _, hline, h⟩ := bind_eq_ok h
  cases h
  have hmoves : Moves (opcode = "getelementptr") (operandsOf opcode name.isSome) :=
    moves_operandsOf hopcode id _
  obtain ⟨passed, rfl, _⟩ : Onward r u.lineEnd.rest :=
    (hmoves.onward hline).trans (onward_fromLineEnd u.rest)
  refine ⟨lead, passed, line, hrest, hlead, ?_, hline, rfl⟩
  rintro rfl
  exact absurd (hmoves.less hline) (Nat.not_lt.mpr (onward_fromLineEnd u.rest).length_le)

theorem content_trailer {a : Option String × Line} (hopcode : opcode ∈ lineWords)
    (h : content s = .ok a u) (halike : Alike s s')
    (hs : s.tokens = resultTokens name ++ .word opcode :: x) (hrest : s.rest = front ++ u.lineEnd.rest)
    (hnew : Trailer opcode new) (hend : u.lineEnd.rest ≠ [])
    (hs' : s'.tokens = front.map (·.val) ++ (new ++ u.lineEnd.tokens)) :
    ∃ u', content s' = .ok a u' ∧ Beside .anywhere True u.lineEnd u'.lineEnd := by
  obtain ⟨lead, passed, line, hleadRest, hlead, _, hline, rfl⟩ := exists_operands hopcode h hs
  obtain rfl : front = lead ++ passed := by
    rw [hrest, ← List.append_assoc] at hleadRest
    exact List.append_cancel_right hleadRest
  rw [List.map_append, List.append_assoc] at hs'
  obtain ⟨lead', _, hrest', hlead', hbehind⟩ := List.map_eq_append_iff.mp hs'
  obtain ⟨passed', _, rfl, hpassed', hbehind'⟩ := List.map_eq_append_iff.mp hbehind
  obtain ⟨new', back, rfl, rfl, hback⟩ := List.map_eq_append_iff.mp hbehind'
  have halike' : Alike { s with rest := passed ++ u.lineEnd.rest }
      { s' with rest := passed' ++ (new' ++ back) } := ⟨halike.builder, halike.locals⟩
  obtain ⟨u', hline', hu⟩ := operandsOf_trailer hopcode hline halike' rfl rfl hpassed' hnew hback hend
  refine ⟨u', ?_, hu⟩
  rw [content_of_opcode hrest' (hlead'.trans hlead), bind_of_ok hline']
  rfl

/-- A line with one more decoration says the same. -/
theorem content_decorated {a : Option String × Line} (h : Decoration t new)
    (hcontent : content t.placed = .ok a u) (hend : u.lineEnd.rest ≠ []) (halike : Alike t t')
    (ht' : t'.tokens = new) :
    ∃ u', content t'.placed = .ok a u' ∧ Beside .anywhere True u.lineEnd u'.lineEnd := by
  have halike : Alike t.placed t'.placed :=
    ⟨⟨halike.builder.func, halike.builder.symbols, halike.builder.labels⟩, halike.locals⟩
  have hlineEnd : ∀ {u'}, content t'.placed = .ok a u' ∧ Beside .anywhere True u u' →
      content t'.placed = .ok a u' ∧ Beside .anywhere True u.lineEnd u'.lineEnd :=
    fun h => ⟨h.1, h.2.lineEnd⟩
  cases h with
  | flag h ht => exact (content_flag h hcontent halike ht ht').imp fun _ => hlineEnd
  | marker h ht =>
    rw [← List.append_assoc] at ht'
    obtain ⟨front, r, hrest, hfront, hr⟩ := List.map_eq_append_iff.mp ht'
    have hmarkers : ∀ m ∈ some _, m ∈ tailMarkers := fun m hm => Option.some.inj hm ▸ h
    exact (content_callWords [] (by simp) hmarkers hcontent halike ht hrest hfront hr
      rfl).imp fun _ => hlineEnd
  | call hmarker hw ht =>
    rw [← List.append_assoc] at ht'
    obtain ⟨front, _, hrest, hfront, hword⟩ := List.map_eq_append_iff.mp ht'
    obtain ⟨b, r, rfl, hb, hr⟩ := List.map_eq_cons_iff.mp hword
    exact (content_callWords [b] hmarker hmarker hcontent halike ht hrest hfront hr
      (call_decoration hw hb)).imp fun _ => hlineEnd
  | argument hmarker hrest hfront hv hnew =>
    exact (content_argument hmarker hcontent halike hrest hfront hv hnew ht').imp fun _ => hlineEnd
  | @trailer name opcode x new front v hopcode ht h hrest hnew =>
    obtain ⟨name, line, u₁, hcontent₁, _, rfl⟩ := instruction_eq_ok.mp h
    cases hcontent.symm.trans hcontent₁
    exact content_trailer hopcode hcontent halike ht hrest hnew hend ht'

/-- An instruction with one more decoration is the same. -/
theorem instruction_decorated (h : Decoration t new) (hu : instruction t = .ok () u)
    (hend : u.lineEnd.rest ≠ []) (halike : Alike t t') (ht' : t'.tokens = new) :
    ∃ u', instruction t' = .ok () u' ∧ Beside .anywhere True u.lineEnd u'.lineEnd := by
  obtain ⟨name, line, v, hcontent, hnamed, rfl⟩ := instruction_eq_ok.mp hu
  obtain ⟨v', hcontent', hv⟩ := content_decorated h hcontent hend halike ht'
  exact ⟨v'.record name line, instruction_eq_ok.mpr ⟨name, line, v', hcontent', hnamed, rfl⟩,
    hv.record trivial name line⟩

/-! ## Where a decorated line starts -/

/-- The tokens start with an instruction and not with a label. -/
def StartsInstruction (x : List Token) : Prop :=
  ∃ name w y, x = resultTokens name ++ .word w :: y ∧ (name = none → y.head? ≠ some .colon)

theorem head?_append_eq {x y z : List Token} (h : x ≠ []) : (x ++ y).head? = (x ++ z).head? := by
  rw [List.head?_append_of_ne_nil x h, List.head?_append_of_ne_nil x h]

theorem labelAhead_eq_none_iff (ht : t.tokens = .word w :: x) :
    labelAhead t.rest = none ↔ x.head? ≠ some .colon := by
  obtain ⟨p, ts, hrest, rfl⟩ := exists_rest ht
  rw [hrest]
  cases ts with
  | nil => exact ⟨fun _ => by simp, fun _ => rfl⟩
  | cons b ts =>
    show labelOf (.word w) b.val = none ↔ some b.val ≠ some .colon
    cases b.val <;> simp [labelOf]

namespace StartsInstruction

theorem of_labelAhead (hlabel : labelAhead t.rest = none)
    (ht : t.tokens = resultTokens name ++ .word w :: x) {y : List Token} (hy : y.head? = x.head?) :
    StartsInstruction (resultTokens name ++ .word w :: y) := by
  refine ⟨name, w, y, rfl, ?_⟩
  rintro rfl
  rw [hy]
  exact (labelAhead_eq_none_iff ht).mp hlabel

theorem labelAhead (h : StartsInstruction t.tokens) : labelAhead t.rest = none := by
  obtain ⟨name, w, y, htokens, hcolon⟩ := h
  cases name with
  | none => exact (labelAhead_eq_none_iff htokens).mpr (hcolon rfl)
  | some name =>
    rw [Reader.labelAhead, ahead_of_tokens htokens]
    rfl

theorem exists_ahead (h : StartsInstruction t.tokens) :
    ∃ b ts, t.rest = b :: ts ∧ ((∃ name, b.val = .loc name) ∨ ∃ w, b.val = .word w) := by
  obtain ⟨name, w, y, htokens, _⟩ := h
  cases name with
  | none =>
    obtain ⟨p, ts, hrest, _⟩ := exists_rest htokens
    exact ⟨_, ts, hrest, .inr ⟨w, rfl⟩⟩
  | some name =>
    obtain ⟨p, ts, hrest, _⟩ := exists_rest htokens
    exact ⟨_, ts, hrest, .inl ⟨name, rfl⟩⟩

theorem startsLine (h : StartsInstruction t.tokens) : startsLine (ahead t.rest).val = true := by
  obtain ⟨b, ts, hrest, ⟨name, hb⟩ | ⟨w, hb⟩⟩ := h.exists_ahead
  all_goals
    rw [hrest, show (ahead (b :: ts)).val = _ from hb]
    rfl

theorem startsInert (h : StartsInstruction t.tokens) : StartsInert t.rest := by
  obtain ⟨b, ts, hrest, ⟨name, hb⟩ | ⟨w, hb⟩⟩ := h.exists_ahead
  all_goals exact ⟨b, ts, hrest, by rw [hb]; rfl⟩

theorem not_closes (h : StartsInstruction t.tokens) : ¬Closes t.rest := by
  rintro ⟨b', ts', hrest', hline⟩
  obtain ⟨b, ts, hrest, hb⟩ := h.exists_ahead
  cases hrest.symm.trans hrest'
  rcases hb with ⟨name, hb⟩ | ⟨w, hb⟩
  all_goals
    rw [hb] at hline
    cases hline

end StartsInstruction

/-- A line that can be decorated starts with an instruction. -/
theorem Decoration.exists_tokens (h : Decoration t new) :
    ∃ name w y, t.tokens = resultTokens name ++ .word w :: y := by
  cases h with
  | flag h ht => exact ⟨_, _, _, ht⟩
  | marker h ht => exact ⟨_, _, _, ht⟩
  | @call name marker w x hmarker hw ht =>
    cases marker with
    | none => exact ⟨_, _, _, ht⟩
    | some m => exact ⟨_, _, _, ht⟩
  | @argument name marker front passed v new hmarker hrest hfront hv hnew =>
    rw [ReadState.tokens, hrest, List.map_append, hfront, List.append_assoc]
    cases marker with
    | none => exact ⟨_, _, _, rfl⟩
    | some m => exact ⟨_, _, _, rfl⟩
  | trailer hopcode ht h hrest hnew => exact ⟨_, _, _, ht⟩

/-- It still does when it is decorated. -/
theorem Decoration.startsInstruction (h : Decoration t new) (hlabel : labelAhead t.rest = none) :
    StartsInstruction new := by
  cases h with
  | flag h ht => exact ⟨_, _, _, rfl, fun _ => by simp⟩
  | marker h ht => exact ⟨_, _, _, rfl, fun _ => by simp⟩
  | @call name marker w x hmarker hw ht =>
    cases marker with
    | none => exact ⟨_, _, _, rfl, fun _ => by simp⟩
    | some m => exact ⟨_, _, _, rfl, fun _ => by simp⟩
  | @argument name marker front passed v new hmarker hrest hfront hv hnew =>
    have hne : passed.map (·.val) ≠ [] := fun hnil => by
      rw [List.map_eq_nil_iff.mp hnil] at hv
      exact Nat.lt_irrefl _ hv.length_lt
    have htokens : t.tokens =
        resultTokens name ++ (callTokens marker ++ (passed.map (·.val) ++ v.tokens)) := by
      rw [ReadState.tokens, hrest, List.map_append, List.map_append, hfront, List.append_assoc]
      rfl
    have hhead : (passed.map (·.val) ++ (new ++ v.tokens)).head? =
        (passed.map (·.val) ++ v.tokens).head? := head?_append_eq hne
    rw [hfront, List.append_assoc]
    cases marker with
    | none => exact .of_labelAhead hlabel htokens hhead
    | some m => exact ⟨_, _, _, rfl, fun _ => by simp⟩
  | @trailer name opcode x new front v hopcode ht h hrest hnew =>
    obtain ⟨_, line, z, hcontent, _, rfl⟩ := instruction_eq_ok.mp h
    obtain ⟨lead, passed, _, hrest₁, hlead, hne, _⟩ := exists_operands hopcode hcontent ht
    have hrest₁ : t.rest = lead ++ (passed ++ z.lineEnd.rest) := hrest₁
    obtain rfl : front = lead ++ passed := by
      rw [hrest, ← List.append_assoc] at hrest₁
      exact List.append_cancel_right hrest₁
    have htokens : t.tokens =
        resultTokens name ++ .word opcode :: (passed.map (·.val) ++ z.lineEnd.tokens) := by
      rw [ReadState.tokens, hrest₁, List.map_append, List.map_append, hlead, ← List.append_cons]
      rfl
    rw [List.map_append, hlead, List.append_assoc, ← List.append_cons]
    exact .of_labelAhead hlabel htokens (head?_append_eq (mt List.map_eq_nil_iff.mp hne))

end

/-! ## Decorated texts -/

/-- Reading a text comes to an instruction at `t`, in the body of one of its functions. -/
def ComesToLine (ts : List (Located Token)) (t : ReadState) : Prop :=
  ∃ fs d name params u, ComesTo (.start ts) fs d ∧ header d = .ok (name, params) u ∧
    Relation.ReflTransGen Passes (u.entered name params) t ∧ labelAhead t.rest = none ∧
    startsLine (ahead t.rest).val = true

/-- The tokens `ts'` are `ts` with one more decoration on the line of an instruction. -/
def Decorated (ts ts' : List (Located Token)) : Prop :=
  ∃ before t new, ComesToLine ts t ∧ ts = before ++ t.rest ∧ Decoration t new ∧
    ts'.map (·.val) = before.map (·.val) ++ new

section
variable {s s' t u e : ReadState} {new : List Token} {rest' : List (Located Token)}

/-- The instruction that a body goes on with. -/
theorem Lines.instruction (h : Lines t e) (hlabel : labelAhead t.rest = none)
    (hstarts : startsLine (ahead t.rest).val = true) :
    ∃ u, instruction t = .ok () u ∧ Lines u.lineEnd e := by
  cases h with
  | close h =>
    rw [h] at hstarts
    cases hstarts
  | pass h hrest =>
    cases h with
    | label h => cases hlabel.symm.trans h
    | blank h =>
      rw [h] at hstarts
      cases hstarts
    | line _ _ h => exact ⟨_, h, hrest⟩

/-- A body with a decorated line. -/
theorem lines_decorated {hinert : StartsInert t.rest} {hinert' : StartsInert rest'}
    (hs : Beside (.apart hinert hinert') True s s') (hparts : Relation.ReflTransGen Passes s t)
    (hlines : Lines t e) (hlabel : labelAhead t.rest = none)
    (hstarts : startsLine (ahead t.rest).val = true) (hopen : ¬Closes t.rest)
    (h : Decoration t new) (hrest' : rest'.map (·.val) = new) :
    ∃ e', Lines s' e' ∧ Beside .anywhere True e e' := by
  obtain ⟨u, hu, hrest⟩ := hlines.instruction hlabel hstarts
  obtain ⟨t', hparts', ht⟩ := parts_beside hparts hs (List.nil_append t.rest).symm hopen
  have ht' : t'.tokens = new := by
    obtain ⟨y', hy', hsame⟩ := ht.split (List.nil_append t.rest).symm
    cases hsame
    rw [ReadState.tokens, hy', ← hrest']
    rfl
  have hend : u.lineEnd.rest ≠ [] := fun hnil => hrest.not_atEnd (by rw [hnil]; rfl)
  obtain ⟨u', hu', hbeside⟩ := instruction_decorated h hu hend ht.alike_of_apart ht'
  have hline := h.startsInstruction hlabel
  rw [← ht'] at hline
  obtain ⟨e', hrest', he⟩ := hrest.beside hbeside (List.append_nil _).symm
  exact ⟨e', .of_parts hparts' (.pass (.line hline.labelAhead hline.startsLine hu') hrest'), he⟩

theorem length_header {a : String × List (Ty × String)} (h : header s = .ok a t) :
    t.rest.length < s.rest.length := by
  obtain ⟨_, u, hsignature, h⟩ := bind_eq_ok h
  obtain ⟨_, _, hbody, h⟩ := bind_eq_ok h
  cases h
  have hon := ((local_signature s : LocalAt False True False _ s).ok hsignature).1.rest
  exact Nat.lt_of_lt_of_le (length_openBody hbody) hon.length_le

/-- One more decoration leaves the functions as they are. -/
theorem yields_decorated {ts ts' : List (Located Token)} {fs : List Func} (h : Decorated ts ts')
    (hyields : Yields (.start ts) fs) :
    ∃ fs', Yields (.start ts') fs' ∧ List.Forall₂ (Func.Matches fun _ _ => True) fs fs' := by
  obtain ⟨before, t, new, ⟨gs, d, name, params, u, hcomes, hheader, hparts, hlabel, hstarts⟩, rfl,
    hdecoration, hts'⟩ := h
  obtain ⟨before', rest', rfl, hbefore, rfl⟩ := List.map_eq_append_iff.mp hts'
  obtain ⟨_, e, ks, ⟨_, _, _, hheader₁, hlines, rfl⟩, hks, rfl⟩ := defines_of_comesTo hcomes hyields
  cases hheader.symm.trans hheader₁
  have hline : StartsInstruction t.tokens := by
    obtain ⟨name, w, y, htokens⟩ := hdecoration.exists_tokens
    rw [htokens]
    exact .of_labelAhead hlabel htokens rfl
  have hline' : StartsInstruction (ReadState.tokens { t with rest := rest' }) :=
    hdecoration.startsInstruction hlabel
  have hstart : Beside (.apart hline.startsInert hline'.startsInert) False (.start (before ++ t.rest))
      (.start (before' ++ rest')) :=
    ⟨⟨before, before', rfl, rfl, Seam.same_anywhere.mpr hbefore⟩, False.elim, False.elim⟩
  -- The header is in front of the line.
  obtain ⟨passed, hz⟩ := (onward_of_parts hparts).split
    (c := .apart hline.startsInert hline'.startsInert) (List.nil_append t.rest).symm
  have hz : u.rest = passed ++ [] ++ t.rest := hz
  obtain ⟨passed', hy⟩ := (onto_header hheader).rest.split
    (c := .apart hline.startsInert hline'.startsInert) hz
  have hne := ne_nil_of_length_lt (c := .apart hline.startsInert hline'.startsInert) hy hz
    (length_header hheader)
  obtain ⟨gs', d', hcomes', hgs, hd⟩ := hcomes.beside hstart hy hne hline.not_closes
  obtain ⟨u', hheader', hu⟩ := header_beside hheader hd hz
  obtain ⟨e', hlines', he⟩ := lines_decorated (hu.entered name params) hparts
    (hlines.behind_parts hparts) hlabel hstarts hline.not_closes hdecoration rfl
  obtain ⟨ks', hks', hmatches⟩ := hks.beside he.weaken rfl
  exact ⟨_, yields_of_comesTo hcomes' ⟨name, params, u', hheader', hlines', rfl⟩ hks',
    List.rel_append hgs (.cons (he.builder trivial).func hmatches)⟩

section
variable {ts ts' front : List (Located Token)} {x y : List Token}

/-- Reading comes to the first line of a text that starts with a function. -/
theorem comesToLine_of_header {h : Header} (hbrace : .lbrace ∉ h.result)
    (hplain : ∀ q ∈ h.params, q.Plain) (hts : ts.map (·.val) = h.tokens ++ .newline :: x)
    (hx : StartsInstruction x) :
    ∃ front t, ComesToLine ts t ∧ ts = front ++ t.rest ∧ t.tokens = x := by
  have hcomes : ComesTo (.start ts) [] (.start ts) :=
    .here (ahead_of_tokens (s := .start ts) (hts.trans (h.tokens_append _)))
  obtain ⟨_, hheader, hrest⟩ := (takes_header hbrace (Listed.of_plain hplain)).run (s := .start ts) hts
  obtain ⟨⟨_, p⟩, line, rfl, rfl, hline⟩ := List.map_eq_cons_iff.mp hrest
  obtain ⟨passed, hpassed, _⟩ := (onto_header hheader).rest
  have hpassed : ts = (passed ++ [⟨.newline, p⟩]) ++ line := by
    rw [← List.append_cons]
    exact hpassed
  obtain ⟨t, hparts, hrest, htokens⟩ : ∃ t, Relation.ReflTransGen Passes
      (ReadState.entered { ReadState.start ts with rest := ⟨.newline, p⟩ :: line } h.name
        (h.params.map Parameter.entry)) t ∧ t.rest = line ∧ t.tokens = x :=
    ⟨_, .single (.blank rfl), rfl, hline⟩
  rw [← htokens] at hx
  exact ⟨_, t, ⟨[], _, _, _, _, hcomes, hheader, hparts, hx.labelAhead, hx.startsLine⟩,
    hrest ▸ hpassed, htokens⟩

/-- Behind a line, reading comes to the next one. -/
theorem ComesToLine.next (h : ComesToLine ts t) (hts : ts = front ++ t.rest)
    (hu : Reader.instruction t = .ok () u) (hend : u.lineEnd.tokens = .newline :: x)
    (hx : StartsInstruction x) :
    ∃ front' t', ComesToLine ts t' ∧ ts = front' ++ t'.rest ∧ t'.tokens = x := by
  obtain ⟨fs, d, name, params, v, hcomes, hheader, hparts, hlabel, hstarts⟩ := h
  obtain ⟨p, ts', hrest, rfl⟩ := exists_rest hend
  have hline : Passes t u.lineEnd := .line hlabel hstarts hu
  have hblank : Passes u.lineEnd { u.lineEnd with rest := ts' } := by
    have hblank : Passes u.lineEnd { u.lineEnd with rest := behind u.lineEnd.rest } :=
      .blank (by rw [hrest]; rfl)
    rwa [hrest] at hblank
  obtain ⟨passed, hpassed⟩ := (onward_instruction hu).1.trans (onward_fromLineEnd u.rest)
  have hpassed : t.rest = passed ++ ⟨.newline, p⟩ :: ts' := hpassed.1.trans (congrArg _ hrest)
  have hx : StartsInstruction (ReadState.tokens { u.lineEnd with rest := ts' }) := hx
  refine ⟨front ++ (passed ++ [⟨.newline, p⟩]), _,
    ⟨fs, d, name, params, v, hcomes, hheader, (hparts.tail hline).tail hblank, hx.labelAhead,
      hx.startsLine⟩, ?_, rfl⟩
  rw [hts, hpassed, List.append_assoc, ← List.append_cons]

/-- The line that reading comes to may be decorated. -/
theorem ComesToLine.decorated (h : ComesToLine ts t) (hfront : ts = front ++ t.rest)
    (hts : ts.map (·.val) = x ++ t.tokens) (hnew : Decoration t new)
    (hts' : ts'.map (·.val) = x ++ new) : Decorated ts ts' := by
  refine ⟨front, t, new, h, hfront, hnew, ?_⟩
  rw [hfront, List.map_append] at hts
  rw [hts', List.append_cancel_right hts]

end

/-! ## Sums of literals -/

theorem reads_float {b : Builder} {l : Table String Handle} (v : Binary64) {x : List Token} :
    Reads b l (.float v :: x) x (value .double) fun _ _ _ => True := by
  intro s hb hl hx
  obtain ⟨p, ts, hrest, rfl⟩ := exists_rest hx
  obtain ⟨rest, faults, builder, locals⟩ := s
  obtain rfl : rest = ⟨.float v, p⟩ :: ts := hrest
  exact ⟨(builder.float v).2, ⟨ts, faults, (builder.float v).1, locals⟩, rfl, rfl, rfl, trivial⟩

/-- A sum of two literals is read to its end. -/
theorem reads_sum {b : Builder} {l : Table String Handle} (v w : Binary64) {x : List Token} :
    Reads b l (.word "double" :: .float v :: .comma :: .float w :: x) x (operandsOf "fadd" true)
      fun line _ _ => line.type = .double := by
  have htype : Takes ([.word "double"] ++ .float v :: .comma :: .float w :: x)
      (.float v :: .comma :: .float w :: x) type .double :=
    takes_spelled (.word rfl) (by simp) (by simp)
  refine (takes_skip_none fun _ => rfl).andThen ?_
  have hpair : Reads b l (.word "double" :: .float v :: .comma :: .float w :: x) x operandPair
      fun a _ _ => a.2.2 = .double :=
    htype.andThen ((reads_float v).bind fun _ _ _ _ => (takes_expect Token.noConfusion).andThen
      ((reads_float w).bind fun _ _ _ _ => .pure rfl))
  exact hpair.bind fun _ _ _ h => .pure h

end
end Reader

/-! ## The same functions -/

/-- Decorations on the lines of instructions, as many as there may be, do not change the functions
that are read, except for the places of their instructions. -/
theorem Program.ofTokens_decorated {ts ts' : List (Located Token)} {p : Program}
    (h : Relation.ReflTransGen Reader.Decorated ts ts') (hp : ofTokens ts = .ok p) :
    ∃ p', ofTokens ts' = .ok p' ∧
      p'.functions.map Func.unplaced = p.functions.map Func.unplaced := by
  induction h with
  | refl => exact ⟨p, hp, rfl⟩
  | tail _ hstep ih =>
    obtain ⟨q, hq, hsame⟩ := ih
    obtain ⟨fs, hfs, hmatches⟩ := Reader.yields_decorated hstep (ofTokens_eq_ok.mp hq)
    refine ⟨⟨fs⟩, ofTokens_eq_ok.mpr hfs, ?_⟩
    rw [← hsame, ← List.forall₂_eq_eq_eq, List.forall₂_map_left_iff, List.forall₂_map_right_iff]
    exact (List.Forall₂.flip hmatches).imp fun _ _ h => h.unplaced_eq

/-- `define void @f() {` -/
def Header.empty : Header where
  result := [.word "void"]
  name := "f"
  params := []
  suffix := []
  result_line := by simp
  suffix_line := by simp

namespace Program

/-- A sum with flags and a trailer. -/
def sumLine (flags trailer : List Token) : List Token :=
  .loc "r" :: .equals :: .word "fadd" ::
    (flags ++ (.word "double" :: .float (.ofInt64 1) :: .comma :: .float (.ofInt64 2) :: trailer))

/-- What stands behind the first argument of a call, to the end of the text. -/
def behindArgument : List Token :=
  [.glob "h", .rparen, .newline, .word "ret", .word "void", .newline, .rbrace, .newline, .eof]

/-- A call that starts with the given words, with attributes of its argument, and the rest of the
text. -/
def callLine (words attributes : List Token) : List Token :=
  words ++ (.word "void" :: .glob "g" :: .lparen :: .word "ptr" :: (attributes ++ behindArgument))

/-- The tokens of a function with a sum and a call. -/
def summing (flags trailer words attributes : List Token) : List (Located Token) :=
  (Header.empty.tokens ++ .newline :: (sumLine flags trailer ++ .newline ::
    callLine words attributes)).map (⟨·, default⟩)

section
variable {flags trailer words words' attributes attributes' : List Token}

theorem tokens_summing : (summing flags trailer words attributes).map (·.val) =
    Header.empty.tokens ++ .newline :: (sumLine flags trailer ++ .newline ::
      callLine words attributes) := by
  rw [summing, List.map_map]
  exact List.map_id _

theorem comesToLine_sumLine (flags trailer words attributes : List Token) : ∃ front t,
    Reader.ComesToLine (summing flags trailer words attributes) t ∧
      summing flags trailer words attributes = front ++ t.rest ∧
      t.tokens = sumLine flags trailer ++ .newline :: callLine words attributes :=
  Reader.comesToLine_of_header (h := .empty) (by decide) (by simp [Header.empty]) tokens_summing
    ⟨some "r", "fadd", _, rfl, by simp⟩

/-- The sum is an instruction, and reading it comes to the end of its line. -/
theorem instruction_sumLine {t : ReadState} {x : List Token}
    (ht : t.tokens = sumLine [] [] ++ .newline :: x) :
    ∃ u, Reader.instruction t = .ok () u ∧ u.lineEnd.tokens = .newline :: x := by
  have ht : t.placed.tokens = (Reader.resultTokens (some "r") ++ [.word "fadd"]) ++
    (.word "double" :: .float (.ofInt64 1) :: .comma :: .float (.ofInt64 2) :: .newline :: x) := ht
  obtain ⟨front, r, hrest, hfront, hr⟩ := List.map_eq_append_iff.mp ht
  obtain ⟨line, v, hline, hv, _, htype⟩ :=
    Reader.reads_sum (.ofInt64 1) (.ofInt64 2) { t.placed with rest := r } rfl rfl hr
  have hcontent : Reader.content t.placed = .ok (some "r", line) v := by
    rw [Reader.content_of_opcode hrest hfront]
    exact Reader.bind_of_ok hline
  refine ⟨_, Reader.instruction_eq_ok.mpr ⟨_, _, _, hcontent, fun _ => ?_, rfl⟩, ?_⟩
  · rw [htype]
    nofun
  · obtain ⟨p, us, hrest, rfl⟩ := Reader.exists_rest hv
    show (Reader.fromLineEnd v.rest).map (·.val) = _
    rw [hrest]
    rfl

/-- The call may be decorated. -/
theorem decorated_callLine (hstarts : Reader.StartsInstruction (callLine words attributes))
    (hnew : ∀ t : ReadState, t.tokens = callLine words attributes →
      Reader.Decoration t (callLine words' attributes')) :
    Reader.Decorated (summing [] [] words attributes) (summing [] [] words' attributes') := by
  obtain ⟨_, _, hcomes, hfront, ht⟩ := comesToLine_sumLine [] [] words attributes
  obtain ⟨u, hu, hend⟩ := instruction_sumLine ht
  obtain ⟨_, t, hcomes, hfront, ht⟩ := hcomes.next hfront hu hend hstarts
  refine hcomes.decorated (x := Header.empty.tokens ++ .newline :: (sumLine [] [] ++ [.newline]))
    hfront ?_ (hnew t ht) tokens_summing
  rw [ht]
  exact tokens_summing

/-- The sum may be decorated. -/
theorem decorated_sumLine {flags' trailer' : List Token}
    (hnew : ∀ t : ReadState, t.tokens = sumLine flags trailer ++ .newline :: callLine words attributes →
      Reader.Decoration t (sumLine flags' trailer' ++ .newline :: callLine words attributes)) :
    Reader.Decorated (summing flags trailer words attributes)
      (summing flags' trailer' words attributes) := by
  obtain ⟨_, t, hcomes, hfront, ht⟩ := comesToLine_sumLine flags trailer words attributes
  refine hcomes.decorated (x := Header.empty.tokens ++ [.newline]) hfront ?_ (hnew t ht) tokens_summing
  rw [ht]
  exact tokens_summing

end

/-- `byval(double)` -/
def attributed : List Token := [.word "byval", .lparen, .word "double", .rparen]

/-- `, !dbg !7` -/
def located : List Token := [.comma, .metadata "dbg", .metadata "7"]

theorem ofTokens_decorated_summing :
    ∃ p p', ofTokens (summing [] [] [.word "call"] []) = .ok p ∧
      ofTokens (summing [.word "nnan"] located [.word "tail", .word "call", .word "fastcc"]
        attributed) = .ok p' ∧
      p'.functions.map Func.unplaced = p.functions.map Func.unplaced := by
  obtain ⟨p, hp⟩ : ∃ p, ofTokens (summing [] [] [.word "call"] []) = .ok p := by
    have hread : (ofTokens (summing [] [] [.word "call"] [])).toOption.isSome = true := by
      decide +kernel
    cases hr : ofTokens (summing [] [] [.word "call"] []) with
    | ok p => exact ⟨p, rfl⟩
    | error e =>
      rw [hr] at hread
      cases hread
  have hattribute : Attribute Reader.AttributeWord attributed :=
    .group (x := [.word "double"]) ⟨by decide, by decide⟩
      (.cons (by decide) (by decide) (by decide) .nil)
  have hgrouped : Reader.Decorated (summing [] [] [.word "call"] [])
      (summing [] [] [.word "call"] attributed) :=
    decorated_callLine ⟨none, "call", _, rfl, by simp⟩ fun t ht => by
      have ht : t.tokens = Reader.resultTokens none ++ (Reader.callTokens none ++
        ([.word "void"] ++ .glob "g" :: .lparen :: ([.word "ptr"] ++ behindArgument))) := ht
      exact .firstArgument (by decide) (.word rfl) (.word rfl) (by decide) (by decide) hattribute ht
  have hmarked : Reader.Decorated (summing [] [] [.word "call"] attributed)
      (summing [] [] [.word "tail", .word "call"] attributed) :=
    decorated_callLine ⟨none, "call", _, rfl, by simp⟩ fun t ht => by
      have ht : t.tokens = Reader.resultTokens none ++ (Reader.callTokens none ++ _) := ht
      exact .marker (by decide) ht
  have hworded : Reader.Decorated (summing [] [] [.word "tail", .word "call"] attributed)
      (summing [] [] [.word "tail", .word "call", .word "fastcc"] attributed) :=
    decorated_callLine ⟨none, "tail", _, rfl, by simp⟩ fun t ht => by
      have ht : t.tokens = Reader.resultTokens none ++ (Reader.callTokens (some "tail") ++ _) := ht
      exact .call (by decide) (by decide) ht
  have htrailed : Reader.Decorated
      (summing [] [] [.word "tail", .word "call", .word "fastcc"] attributed)
      (summing [] located [.word "tail", .word "call", .word "fastcc"] attributed) :=
    decorated_sumLine fun t ht => by
      obtain ⟨u, hu, hend⟩ := instruction_sumLine ht
      obtain ⟨front, hfront, _⟩ := (Reader.onward_instruction hu).1.trans
        (Reader.onward_fromLineEnd u.rest)
      have hsum : front.map (·.val) = sumLine [] [] := by
        rw [ReadState.tokens, hfront, List.map_append] at ht
        exact List.append_cancel_right (ht.trans (congrArg _ hend.symm))
      have ht : t.tokens = Reader.resultTokens (some "r") ++ .word "fadd" :: _ := ht
      have hdecoration := Reader.Decoration.trailer (by decide) ht hu hfront (.metadata "dbg" "7")
      rwa [hsum, hend] at hdecoration
  have hflagged : Reader.Decorated
      (summing [] located [.word "tail", .word "call", .word "fastcc"] attributed)
      (summing [.word "nnan"] located [.word "tail", .word "call", .word "fastcc"] attributed) :=
    decorated_sumLine fun t ht => by
      have ht : t.tokens = Reader.resultTokens (some "r") ++ .word "fadd" :: _ := ht
      exact .flag (.fastMath (by decide) (by decide)) ht
  obtain ⟨p', hp', hsame⟩ := ofTokens_decorated
    (((((Relation.ReflTransGen.single hgrouped).tail hmarked).tail hworded).tail htrailed).tail
      hflagged) hp
  exact ⟨p, p', hp, hp', hsame⟩

end Program
end SsaGraph
