import SsaGraph.Proofs.Program.Endings

/-!
Attributes in front of the value of a call argument.  They are passed over one by one, and the
reader looks behind a word only for a group or a number.  So one more attribute between a type
and a value changes nothing (`call_attributed`).
-/

namespace SsaGraph
namespace Reader

/-! ## States that differ in their tokens -/

/-- The tokens start with one that does not matter to a reader that looks two tokens ahead. -/
def StartsInert (ts : List (Located Token)) : Prop := ∃ t us, ts = t :: us ∧ inert t.val = true

/-- Two runs that part between given tokens, wherever these are. -/
def Seam.apart {tail tail' : List (Located Token)} (h : StartsInert tail) (h' : StartsInert tail') :
    Seam where
  place _ _ := True
  merge _ _ := trivial
  tail := tail
  tail' := tail'
  ending := by
    obtain ⟨b, bs, hb, hinert⟩ := h
    obtain ⟨b', bs', hb', hinert'⟩ := h'
    exact .inr ⟨b, bs, b', bs', hb, hb', hinert, hinert'⟩

/-- The same function under construction and the same names. -/
structure Alike (s s' : ReadState) : Prop where
  builder : s.builder.Matches (fun _ _ => True) s'.builder
  locals : s'.locals = s.locals

section
variable {s s' : ReadState} {x x' tail tail' : List (Located Token)}

theorem ahead_val_eq (h : x'.map (·.val) = x.map (·.val)) : (ahead x').val = (ahead x).val := by
  cases x with
  | nil => rw [List.map_eq_nil_iff.mp h]
  | cons t x =>
    obtain ⟨t', x', rfl, ht, _⟩ := List.map_eq_cons_iff.mp h
    exact ht

theorem Alike.anywhere (h : Alike s s') (hrest : x'.map (·.val) = x.map (·.val)) :
    Beside .anywhere True { s with rest := x } { s' with rest := x' } :=
  ⟨(beside_anywhere hrest).rest, fun _ => h.builder, fun _ => h.locals⟩

theorem Alike.apart (h : Alike s s') (hinert : StartsInert tail) (hinert' : StartsInert tail')
    (hrest : x'.map (·.val) = x.map (·.val)) :
    Beside (.apart hinert hinert') True { s with rest := x ++ tail } { s' with rest := x' ++ tail' } :=
  ⟨⟨x, x', rfl, rfl, Seam.same_anywhere.mpr hrest⟩, fun _ => h.builder, fun _ => h.locals⟩

theorem Beside.alike_of_apart {hinert : StartsInert tail} {hinert' : StartsInert tail'}
    (h : Beside (.apart hinert hinert') True s s') : Alike s s' :=
  ⟨h.builder trivial, h.locals trivial⟩

/-- A local reader does the same on the same tokens. -/
theorem Local.anywhere {α : Type} {plain : Prop} {m : Reader α} {a : α} {t : ReadState}
    (hm : Local False plain True m) (h : m s = .ok a t) (hs : Beside .anywhere True s s') :
    ∃ t', m s' = .ok a t' ∧ Beside .anywhere True t t' :=
  ((hm s).ok h).2.2 hs (List.append_nil _).symm (.inl rfl)

end

/-! ## Rounds -/

/-- Rounds of a repetition, each of which reads something. -/
inductive Rounds {α : Type} (step : α → Reader (Round α)) : α → ReadState → α → ReadState → Prop
  | refl (a : α) (s : ReadState) : Rounds step a s a s
  | again {a b c : α} {s t u : ReadState} (h : step a s = .ok (.again b) t)
    (hless : t.rest.length < s.rest.length) (hrest : Rounds step b t c u) : Rounds step a s c u

section
variable {α : Type} {step : α → Reader (Round α)} {a b : α} {s s' t : ReadState} {c : Seam} {d : Prop}
  {y : List (Located Token)}

theorem Rounds.iterate_eq (h : Rounds step a s b t) : iterate step a s = iterate step b t := by
  induction h with
  | refl _ _ => rfl
  | again h hless _ ih => rw [iterate_of_again h hless, ih]

theorem exists_round (h : iterate step a s = .ok b t) : ∃ r u, step a s = .ok r u := by
  cases hround : step a s with
  | ok r u => exact ⟨r, u, rfl⟩
  | error e u =>
    rw [iterate_of_error hround] at h
    cases h

theorem Rounds.onward (hon : ∀ {a b s t}, step a s = .ok (.again b) t → Onward s.rest t.rest)
    (h : Rounds step a s b t) : Onward s.rest t.rest := by
  induction h with
  | refl _ _ => exact .refl _
  | again h _ _ ih => exact (hon h).trans ih

/-- What holds of a round holds of all of them.  The tokens that are left in front of the seam have
a property that more tokens do not spoil. -/
theorem Rounds.beside (h : Rounds step a s b t) (enough : List (Located Token) → Prop)
    (hmore : ∀ {x y}, enough y → enough (x ++ y))
    (hon : ∀ {a b s t}, step a s = .ok (.again b) t → Onward s.rest t.rest)
    (hstep : ∀ {a b s s' t y}, step a s = .ok (.again b) t → Beside c d s s' → t.rest = y ++ c.tail →
      enough y → ∃ t', step a s' = .ok (.again b) t' ∧ Beside c d t t')
    (hs : Beside c d s s') (hy : t.rest = y ++ c.tail) (henough : enough y) :
    ∃ t', Rounds step a s' b t' ∧ Beside c d t t' := by
  induction h generalizing s' with
  | refl a s => exact ⟨s', .refl a s', hs⟩
  | again h hless hrest ih =>
    obtain ⟨passed, hz⟩ := (hrest.onward hon).split hy
    obtain ⟨u', hr', hu⟩ := hstep h hs hz (hmore henough)
    obtain ⟨t', hrest', ht⟩ := ih hu hy
    exact ⟨t', .again hr' ((hs.length_lt_iff hu).mpr hless) hrest', ht⟩

end

/-! ## One attribute -/

/-- Words that may be an attribute of an argument: not the constants, and not `align`, which stands
with a number. -/
def AttributeWord (w : String) : Prop :=
  w ≠ "align" ∧ w ∉ ["true", "false", "null", "undef", "poison", "zeroinitializer"]

theorem AttributeWord.not_constant {w : String} (h : AttributeWord w) : w ∉ constantWords := h.2

/-- Everything behind an attribute that starts with the word `w`, from the token behind this
word on. -/
def behindAttribute (w : String) (ts : List (Located Token)) : List (Located Token) :=
  match (ahead ts).val with
  | .lparen => behindGroup .lparen .rparen 0 ts
  | .int _ => if w = "align" then behind ts else ts
  | _ => ts

section
variable {s s' t : ReadState} {w : String} {c : Seam} {d : Prop} {x x' y : List (Located Token)}

theorem argumentAttribute_of_word (h : (ahead s.rest).val = .word w) (hw : w ∉ constantWords) :
    argumentAttribute s = .ok (.again ()) { s with rest := behindAttribute w (behind s.rest) } := by
  rw [argumentAttribute, bind_of_ok (peek_eq s), h]
  dsimp only
  rw [if_neg hw, bind_of_ok (show advance s = .ok () { s with rest := behind s.rest } from rfl),
    bind_of_ok (peek_eq _), behindAttribute]
  dsimp only
  cases (ahead (behind s.rest)).val with
  | int n =>
    by_cases halign : w = "align"
    · rw [if_pos halign, if_pos halign]
      rfl
    · rw [if_neg halign, if_neg halign]
      rfl
  | _ => rfl

theorem argumentAttribute_of_other (h : ∀ w, (ahead s.rest).val ≠ .word w) :
    argumentAttribute s = .ok (.done ()) s := by
  rw [argumentAttribute, bind_of_ok (peek_eq s)]
  cases hnext : (ahead s.rest).val with
  | word w => exact absurd hnext (h w)
  | _ => rfl

theorem exists_word_of_again (h : argumentAttribute s = .ok (.again ()) t) :
    ∃ w, (ahead s.rest).val = .word w ∧ w ∉ constantWords ∧
      t = { s with rest := behindAttribute w (behind s.rest) } := by
  by_cases hword : ∃ w, (ahead s.rest).val = .word w
  · obtain ⟨w, hw⟩ := hword
    by_cases hconstant : w ∈ constantWords
    · rw [argumentAttribute, bind_of_ok (peek_eq s), hw] at h
      dsimp only at h
      rw [if_pos hconstant] at h
      cases h
    · rw [argumentAttribute_of_word hw hconstant] at h
      cases h
      exact ⟨w, hw, hconstant, rfl⟩
  · rw [argumentAttribute_of_other fun w hw => hword ⟨w, hw⟩] at h
    cases h

theorem onward_behindAttribute (w : String) (ts : List (Located Token)) :
    Onward ts (behindAttribute w ts) := by
  unfold behindAttribute
  split
  · exact onward_behindGroup _ _ _ _
  · split
    · exact onward_behind _
    · exact .refl _
  · exact .refl _

theorem onward_argumentAttribute (h : argumentAttribute s = .ok (.again ()) t) :
    Onward s.rest t.rest := by
  obtain ⟨w, _, _, rfl⟩ := exists_word_of_again h
  exact (onward_behind _).trans (onward_behindAttribute _ _)

theorem length_behindGroup {opening closing : Token} {depth : Nat} {ts : List (Located Token)}
    (h : ¬AtEnd ts) : (behindGroup opening closing depth ts).length < ts.length := by
  cases ts with
  | nil => exact absurd rfl h
  | cons t ts =>
    have ht : t.val ≠ .eof := h
    have hle : ∀ depth, (behindGroup opening closing depth ts).length < (t :: ts).length := fun depth =>
      Nat.lt_succ_of_le (onward_behindGroup opening closing depth ts).length_le
    rw [behindGroup, if_neg ht]
    split
    · exact hle _
    · split
      · split
        · exact Nat.lt_succ_self _
        · exact hle _
      · exact hle _

/-- An attribute that ends at the seam ends there in both runs, if a word follows in the other
one. -/
theorem Seam.Same.behindAttribute (hsame : c.Same x x')
    (hy : behindAttribute w (x ++ c.tail) = y ++ c.tail) (hstart : ¬AtEnd c.tail)
    (hword : ∃ w, (ahead c.tail').val = .word w) :
    ∃ y', Reader.behindAttribute w (x' ++ c.tail') = y' ++ c.tail' ∧ c.Same y y' := by
  cases hsame with
  | nil =>
    obtain rfl := eq_nil_of_suffix (onward_behindAttribute w c.tail).length_le hy
    obtain ⟨w', hw'⟩ := hword
    refine ⟨[], ?_, .nil⟩
    rw [List.nil_append, Reader.behindAttribute, hw']
  | @cons b b' x x' hb hrest =>
    have hahead' : (ahead (b' :: x' ++ c.tail')).val = b.val := hb.1
    have hsame : c.Same (b :: x) (b' :: x') := .cons hb hrest
    rw [Reader.behindAttribute, show (ahead (b :: x ++ c.tail)).val = b.val from rfl] at hy
    rw [Reader.behindAttribute, hahead']
    split at hy
    next hopen =>
      refine hsame.behindGroup 0 hy fun _ depth hstop => ?_
      exact absurd (congrArg List.length hstop) (Nat.ne_of_lt (length_behindGroup hstart))
    next n hint =>
      split at hy
      next halign =>
        have hbehind : ∀ {e : Located Token} {us}, e.val = .int n → behind (e :: us) = us := by
          intro e us he
          rw [behind, if_neg (by rw [he]; exact Token.noConfusion)]
        rw [List.cons_append, hbehind hint] at hy
        rw [if_pos halign, List.cons_append, hbehind (hb.1.trans hint), ← List.append_cancel_right hy]
        exact ⟨x', rfl, hrest⟩
      next halign =>
        rw [if_neg halign, ← List.append_cancel_right hy]
        exact ⟨b' :: x', rfl, hsame⟩
    next hother hother' =>
      rw [← List.append_cancel_right hy]
      exact ⟨b' :: x', rfl, hsame⟩

theorem argumentAttribute_beside (h : argumentAttribute s = .ok (.again ()) t) (hs : Beside c d s s')
    (hy : t.rest = y ++ c.tail) (hstart : ¬AtEnd c.tail) (hword : ∃ w, (ahead c.tail').val = .word w) :
    ∃ t', argumentAttribute s' = .ok (.again ()) t' ∧ Beside c d t t' := by
  obtain ⟨w, hw, hconstant, rfl⟩ := exists_word_of_again h
  have hy : behindAttribute w (behind s.rest) = y ++ c.tail := hy
  obtain ⟨passed, hz⟩ := (onward_behindAttribute w (behind s.rest)).split hy
  obtain ⟨hahead, hbehind⟩ := hs.behind (not_atEnd_of_ahead hw Token.noConfusion) hz
  obtain ⟨x', hx', hsame⟩ := hbehind.split hz
  have hx' : behind s'.rest = x' ++ c.tail' := hx'
  rw [hz] at hy
  obtain ⟨y', hy', hsame'⟩ := hsame.behindAttribute hy hstart hword
  refine ⟨_, argumentAttribute_of_word (hahead.trans hw) hconstant, hs.moveOn ⟨y, y', ?_, ?_, hsame'⟩⟩
  · rw [hz, hy]
  · rw [hx', hy']

/-- A group whose parentheses match is passed over. -/
theorem behindGroup_balanced {z : List Token} (h : Balanced z) {us vs : List (Located Token)}
    (hus : us.map (·.val) = z) (depth : Nat) :
    behindGroup .lparen .rparen (depth + 1) (us ++ vs) =
      behindGroup .lparen .rparen (depth + 1) vs := by
  induction h generalizing us vs depth with
  | nil =>
    rw [List.map_eq_nil_iff.mp hus, List.nil_append]
  | cons hopen hclose hend _ ih =>
    obtain ⟨u, us, rfl, rfl, hrest⟩ := List.map_eq_cons_iff.mp hus
    rw [List.cons_append, behindGroup, if_neg hend, if_neg hopen, if_neg hclose, ih hrest]
  | group _ _ ihx ihy =>
    obtain ⟨⟨_, p⟩, us, rfl, rfl, hinside⟩ := List.map_eq_cons_iff.mp hus
    obtain ⟨xs, zs, rfl, hxs, hclose⟩ := List.map_eq_append_iff.mp hinside
    obtain ⟨⟨_, q⟩, ys, rfl, rfl, hys⟩ := List.map_eq_cons_iff.mp hclose
    rw [List.cons_append, behindGroup, if_neg Token.noConfusion, if_pos rfl, List.append_assoc,
      ihx hxs, List.cons_append, behindGroup, if_neg Token.noConfusion, if_neg Token.noConfusion,
      if_pos rfl, if_neg (by omega), Nat.add_sub_cancel, ihy hys]

/-- An attribute is passed over, whatever stands behind it, if that is no group. -/
theorem argumentAttribute_of_attribute {us vs : List (Located Token)}
    (h : Attribute AttributeWord (us.map (·.val)))
    (hrest : s.rest = us ++ vs) (hvs : (ahead vs).val ≠ .lparen) :
    argumentAttribute s = .ok (.again ()) { s with rest := vs } := by
  generalize hz : us.map (·.val) = z at h
  cases h with
  | @word w hw =>
    obtain ⟨⟨_, p⟩, us, rfl, rfl, hnil⟩ := List.map_eq_cons_iff.mp hz
    obtain rfl := List.map_eq_nil_iff.mp hnil
    have hbehind : behindAttribute w vs = vs := by
      unfold behindAttribute
      split
      next hopen => exact absurd hopen hvs
      · exact if_neg hw.1
      · rfl
    rw [argumentAttribute_of_word (by rw [hrest]; rfl) hw.not_constant, hrest]
    exact congrArg (fun us => EStateM.Result.ok _ { s with rest := us }) hbehind
  | @group w x hw hx =>
    obtain ⟨⟨_, p⟩, us, rfl, rfl, hgroup⟩ := List.map_eq_cons_iff.mp hz
    obtain ⟨⟨_, q⟩, us, rfl, rfl, hinside⟩ := List.map_eq_cons_iff.mp hgroup
    obtain ⟨xs, ys, rfl, hxs, hys⟩ := List.map_eq_append_iff.mp hinside
    obtain ⟨⟨_, r⟩, ys, rfl, rfl, hnil⟩ := List.map_eq_cons_iff.mp hys
    obtain rfl := List.map_eq_nil_iff.mp hnil
    have hbehind :
        behindGroup .lparen .rparen 0 (⟨.lparen, q⟩ :: (xs ++ [⟨.rparen, r⟩]) ++ vs) = vs := by
      rw [List.cons_append, behindGroup, if_neg Token.noConfusion, if_pos rfl, List.append_assoc,
        behindGroup_balanced hx hxs]
      rfl
    rw [argumentAttribute_of_word (by rw [hrest]; rfl) hw.not_constant, hrest]
    exact congrArg (fun us => EStateM.Result.ok _ { s with rest := us }) hbehind
  | align n =>
    obtain ⟨⟨_, p⟩, us, rfl, rfl, hnumber⟩ := List.map_eq_cons_iff.mp hz
    obtain ⟨⟨_, q⟩, us, rfl, rfl, hnil⟩ := List.map_eq_cons_iff.mp hnumber
    obtain rfl := List.map_eq_nil_iff.mp hnil
    have halign : (ahead s.rest).val = .word "align" := by
      rw [hrest]
      rfl
    rw [argumentAttribute_of_word halign (by decide), hrest]
    rfl

end

/-! ## Calls -/

/-- What stands behind the attributes of an argument: its value, and perhaps a comma. -/
def argumentRest (operands : List Handle) (ty : Ty) : Reader (Round (List Handle)) := do
  let operands := operands ++ [← value ty]
  if ← eat .comma then return .again operands
  return .done operands

/-- Reading a call from `s` comes to `v`, between the type and the value of an argument. -/
def InArgument (s v : ReadState) : Prop :=
  ∃ head u operands w ty v₁, callHead s = .ok head u ∧ Rounds callArgument [] u operands w ∧
    (ahead w.rest).val ≠ .rparen ∧ type w = .ok ty v₁ ∧ Rounds (fun _ => argumentAttribute) () v₁ () v

/-- The token may start the value of an argument, or an attribute in front of it. -/
def startsValue : Token → Bool
  | .loc _ | .glob _ | .float _ | .int _ | .word _ => true
  | _ => false

section
variable {s s' t u v w w' : ReadState} {operands : List Handle} {ty : Ty} {r : Round (List Handle)}

theorem local_argumentRest {plain : Prop} : Local False plain True (argumentRest operands ty) :=
  (local_value ty).bind fun _ => (local_eat rfl).bind fun _ => .ite (.pure _) (.pure _)

theorem onward_callArgument {operands' : List Handle}
    (h : callArgument operands s = .ok (.again operands') t) : Onward s.rest t.rest :=
  ((local_callArgument operands s : LocalAt False True True _ s).ok h).1.rest

theorem callArgument_of_type (hnext : (ahead s.rest).val ≠ .rparen) (h : type s = .ok ty t) :
    callArgument operands s = (skipArgumentAttributes >>= fun _ => argumentRest operands ty) t := by
  rw [callArgument, bind_of_ok (peek_eq s), if_neg hnext, bind_of_ok h]
  rfl

/-- Attributes that were passed over do not matter to what is read behind them. -/
theorem Rounds.argument_eq (h : Rounds (fun _ => argumentAttribute) () s () t) :
    (skipArgumentAttributes >>= fun _ => argumentRest operands ty) s =
      (skipArgumentAttributes >>= fun _ => argumentRest operands ty) t := by
  show EStateM.bind _ _ s = EStateM.bind _ _ t
  rw [EStateM.bind, EStateM.bind, skipArgumentAttributes, h.iterate_eq]

theorem startsValue_of_argument
    (h : (skipArgumentAttributes >>= fun _ => argumentRest operands ty) s = .ok r t) :
    startsValue (ahead s.rest).val = true := by
  by_cases hword : ∃ w, (ahead s.rest).val = .word w
  · obtain ⟨w, hw⟩ := hword
    rw [hw]
    rfl
  · have hskip : skipArgumentAttributes s = .ok () s :=
      iterate_of_done (argumentAttribute_of_other fun w hw => hword ⟨w, hw⟩)
    rw [bind_of_ok hskip] at h
    obtain ⟨x, u, hvalue, _⟩ := bind_eq_ok h
    obtain ⟨x, u, hahead, _⟩ := bind_eq_ok hvalue
    rw [valueAhead, bind_of_ok (peek_eq s)] at hahead
    cases hnext : (ahead s.rest).val with
    | loc | glob | float | int | word => rfl
    | _ =>
      rw [hnext] at hahead
      cases hahead

theorem startsInert_of_startsValue {ts : List (Located Token)} (h : startsValue (ahead ts).val = true) :
    StartsInert ts := by
  cases ts with
  | nil => cases h
  | cons t ts =>
    refine ⟨t, ts, rfl, ?_⟩
    have h : startsValue t.val = true := h
    generalize t.val = a at h
    cases a <;> first | rfl | cases h

/-- The argument with one more attribute in front of its value. -/
theorem callArgument_attributed {v₁ z : ReadState} {new back : List (Located Token)}
    {hinert : StartsInert v.rest} {hinert' : StartsInert (new ++ back)}
    (hw : Beside (.apart hinert hinert') True w w') (hnext : (ahead w.rest).val ≠ .rparen)
    (htype : type w = .ok ty v₁) (hrounds : Rounds (fun _ => argumentAttribute) () v₁ () v)
    (h : callArgument operands w = .ok r z)
    (hnew : Attribute AttributeWord (new.map (·.val)))
    (hback : back.map (·.val) = v.tokens) :
    ∃ z', callArgument operands w' = .ok r z' ∧ Beside .anywhere True z z' := by
  rw [callArgument_of_type hnext htype, hrounds.argument_eq] at h
  have hstarts := startsValue_of_argument h
  have hend : ¬AtEnd v.rest := fun hend => by
    rw [show (ahead v.rest).val = .eof from hend] at hstarts
    cases hstarts
  have hgroup : (ahead back).val ≠ .lparen := fun hgroup => by
    rw [← ahead_val_eq hback, hgroup] at hstarts
    cases hstarts
  have hword : ∃ w, (ahead (new ++ back)).val = .word w := by
    obtain ⟨w, y, hcons⟩ := hnew.exists_cons
    obtain ⟨t, us, rfl, ht, _⟩ := List.map_eq_cons_iff.mp hcons
    exact ⟨w, ht⟩
  -- The type and the attributes up to the new one are read as before.
  have hon := hrounds.onward onward_argumentAttribute
  obtain ⟨passed, hz⟩ := hon.split (c := .apart hinert hinert') (List.nil_append v.rest).symm
  obtain ⟨v₁', htype', hv₁⟩ := type_beside htype hw hz fun _ => by
    obtain ⟨w, hw⟩ := hword
    constructor
    · intro hnil
      rw [show new ++ back = [] from hnil] at hw
      cases hw
    · show (ahead (new ++ back)).val ≠ .star
      rw [hw]
      exact Token.noConfusion
  obtain ⟨v', hrounds', hv⟩ := hrounds.beside (fun _ => True) (fun _ => trivial)
    onward_argumentAttribute (fun h hs hy _ => argumentAttribute_beside h hs hy hend hword) hv₁
    (List.nil_append v.rest).symm trivial
  have hrest' : v'.rest = new ++ back := by
    obtain ⟨y', hy', hsame⟩ := hv.split (List.nil_append v.rest).symm
    cases hsame
    exact hy'
  -- The new one is passed over, and what stands behind it is the same in both runs.
  have hone := argumentAttribute_of_attribute hnew hrest' hgroup
  have hless : back.length < v'.rest.length := by
    rw [hrest', List.length_append]
    exact Nat.lt_add_of_pos_left (List.length_pos_iff.mpr fun hnil => by rw [hnil] at hnew; cases hnew)
  have hlocal : Local False True True (skipArgumentAttributes >>= fun _ => argumentRest operands ty) :=
    local_skipArgumentAttributes.bind fun _ => local_argumentRest
  obtain ⟨z', h', hbeside⟩ := hlocal.anywhere h (hv.alike_of_apart.anywhere hback)
  refine ⟨z', ?_, hbeside⟩
  have hnext' : (ahead w'.rest).val ≠ .rparen := by
    have hmoves : Moves True type := moves_type
    obtain ⟨passed', hx⟩ := (hmoves.onward htype).split hz
    obtain ⟨x', hx', hsame⟩ := hw.split hx
    rw [hx', hsame.ahead_val (.inl (ne_nil_of_length_lt hx hz (hmoves.less htype))), ← hx]
    exact hnext
  rw [callArgument_of_type hnext' htype', hrounds'.argument_eq,
    (Rounds.again hone hless (.refl _ _)).argument_eq, h']

/-- The argument that is being read starts further in front. -/
theorem length_lt_of_type (htype : type s = .ok ty t)
    (hrounds : Rounds (fun _ => argumentAttribute) () t () v) : v.rest.length < s.rest.length := by
  have hmoves : Moves True type := moves_type
  exact Nat.lt_of_le_of_lt (hrounds.onward onward_argumentAttribute).length_le (hmoves.less htype)

theorem InArgument.onward (h : InArgument s v) : Onward s.rest v.rest := by
  obtain ⟨head, u, operands, w, ty, v₁, hhead, hrounds, _, htype, hattributes⟩ := h
  have hmoves : Moves True type := moves_type
  have hhead := ((local_callHead s : LocalAt False True True _ s).ok hhead).1.rest
  exact (hhead.trans (hrounds.onward onward_callArgument)).trans
    ((hmoves.onward htype).trans (hattributes.onward onward_argumentAttribute))

theorem InArgument.length_lt (h : InArgument s v) : v.rest.length < s.rest.length := by
  obtain ⟨head, u, operands, w, ty, v₁, hhead, hrounds, _, htype, hattributes⟩ := h
  have hon := hrounds.onward onward_callArgument
  have hhead := ((local_callHead s : LocalAt False True True _ s).ok hhead).1.rest
  exact Nat.lt_of_lt_of_le (length_lt_of_type htype hattributes) (hhead.trans hon).length_le

/-- A round with an argument reads something. -/
theorem length_callArgument (hnext : (ahead s.rest).val ≠ .rparen) (htype : type s = .ok ty t)
    (h : callArgument operands s = .ok r u) : u.rest.length < s.rest.length := by
  rw [callArgument_of_type hnext htype] at h
  have hlocal : Local False True True (skipArgumentAttributes >>= fun _ => argumentRest operands ty) :=
    local_skipArgumentAttributes.bind fun _ => local_argumentRest
  exact Nat.lt_of_le_of_lt ((hlocal t).ok h).1.rest.length_le (length_lt_of_type htype (.refl _ _))

/-- The arguments from the one with the new attribute on. -/
theorem callArguments_attributed {v₁ : ReadState} {args : List Handle} {new back : List (Located Token)}
    {hinert : StartsInert v.rest} {hinert' : StartsInert (new ++ back)}
    (hw : Beside (.apart hinert hinert') True w w') (hnext : (ahead w.rest).val ≠ .rparen)
    (htype : type w = .ok ty v₁) (hrounds : Rounds (fun _ => argumentAttribute) () v₁ () v)
    (h : iterate callArgument operands w = .ok args t)
    (hnew : Attribute AttributeWord (new.map (·.val)))
    (hback : back.map (·.val) = v.tokens) :
    ∃ t', iterate callArgument operands w' = .ok args t' ∧ Beside .anywhere True t t' := by
  obtain ⟨r, z, hround⟩ := exists_round h
  have hless := length_callArgument hnext htype hround
  obtain ⟨z', hround', hz⟩ := callArgument_attributed hw hnext htype hrounds hround hnew hback
  have hless' : z'.rest.length < w'.rest.length := by
    obtain ⟨x, x', hx, hx', hsame⟩ := hw.rest
    obtain ⟨y, y', hy, hy', hsame'⟩ := hz.rest
    have hx : w.rest = x ++ v.rest := hx
    have hx' : w'.rest = x' ++ (new ++ back) := hx'
    have hy : z.rest = y ++ [] := hy
    have hy' : z'.rest = y' ++ [] := hy'
    have hlength : back.length = v.rest.length := by
      simpa [ReadState.tokens] using congrArg List.length hback
    have hsame := hsame.length_eq
    have hsame' := hsame'.length_eq
    rw [hx, hy] at hless
    rw [hx', hy']
    simp only [List.length_append, List.length_nil] at hless ⊢
    omega
  cases r with
  | done b =>
    rw [iterate_of_done hround] at h
    cases h
    exact ⟨z', iterate_of_done hround', hz⟩
  | again b =>
    rw [iterate_of_again hround hless] at h
    have hlocal : Local False True True (iterate callArgument b) := .iterate local_callArgument b
    obtain ⟨t', h', ht⟩ := hlocal.anywhere h hz
    exact ⟨t', by rw [iterate_of_again hround' hless', h'], ht⟩

/-- A call is read alike with one more attribute in front of the value of an argument. -/
theorem call_attributed {line : Line} {passed passed' new back : List (Located Token)}
    (h : call s = .ok line u) (hv : InArgument s v) (halike : Alike s s')
    (hrest : s.rest = passed ++ v.rest) (hrest' : s'.rest = passed' ++ (new ++ back))
    (hpassed : passed'.map (·.val) = passed.map (·.val))
    (hnew : Attribute AttributeWord (new.map (·.val)))
    (hback : back.map (·.val) = v.tokens) :
    ∃ u', call s' = .ok line u' ∧ Beside .anywhere True u u' := by
  obtain ⟨head, s₁, operands, w, ty, v₁, hhead, hrounds, hnext, htype, hattributes⟩ := hv
  obtain ⟨_, _, hhead₁, h⟩ := bind_eq_ok h
  rw [hhead] at hhead₁
  cases hhead₁
  obtain ⟨args, s₂, hargs, hclose⟩ := bind_eq_ok h
  rw [callArguments, hrounds.iterate_eq] at hargs
  have hinert : StartsInert v.rest := by
    obtain ⟨r, z, hround⟩ := exists_round hargs
    rw [callArgument_of_type hnext htype, hattributes.argument_eq] at hround
    exact startsInert_of_startsValue (startsValue_of_argument hround)
  have hinert' : StartsInert (new ++ back) := by
    obtain ⟨word, y, hcons⟩ := hnew.exists_cons
    obtain ⟨t, us, rfl, ht, _⟩ := List.map_eq_cons_iff.mp hcons
    exact ⟨t, us ++ back, rfl, by rw [ht]; rfl⟩
  have hs : Beside (.apart hinert hinert') True s s' := by
    have hs := halike.apart hinert hinert' hpassed
    rwa [← hrest, ← hrest'] at hs
  -- The type of the argument is in front of the seam when the head and the arguments before are read.
  have hmoves : Moves True type := moves_type
  have hon := (hmoves.onward htype).trans (hattributes.onward onward_argumentAttribute)
  obtain ⟨x, hx⟩ := hon.split (c := .apart hinert hinert') (List.nil_append v.rest).symm
  have hne : x ++ [] ≠ [] :=
    ne_nil_of_length_lt hx (List.nil_append v.rest).symm (length_lt_of_type htype hattributes)
  obtain ⟨x', hx'⟩ := (hrounds.onward onward_callArgument).split hx
  obtain ⟨s₁', hhead', hs₁⟩ := ((local_callHead s : LocalAt False True True _ s).ok hhead).2.2 hs hx'
    (.inr (.inr (.inl ⟨List.append_ne_nil_of_right_ne_nil x' hne, .inl trivial⟩)))
  obtain ⟨w', hrounds', hw⟩ := hrounds.beside (· ≠ []) (List.append_ne_nil_of_right_ne_nil _)
    onward_callArgument
    (fun h hs hy hne => ((local_callArgument _ _ : LocalAt False True True _ _).ok h).2.2 hs hy
      (.inr (.inr (.inl ⟨hne, .inl trivial⟩)))) hs₁ hx hne
  obtain ⟨s₂', hargs', hs₂⟩ := callArguments_attributed hw hnext htype hattributes hargs hnew hback
  rw [← hrounds'.iterate_eq] at hargs'
  have hlocal : Local False True True (expect .rparen >>= fun _ =>
      pure (⟨.call, args ++ [head.2], head.1, none⟩ : Line)) := (local_expect rfl).bind fun _ => .pure _
  obtain ⟨u', hclose', hu⟩ := hlocal.anywhere hclose hs₂
  refine ⟨u', ?_, hu⟩
  rw [call, bind_of_ok hhead']
  show (callArguments >>= _) s₁' = _
  rw [bind_of_ok (show callArguments s₁' = .ok args s₂' from hargs')]
  exact hclose'

/-! ## The first argument -/

theorem callHead_of_tokens {z x : List Token} {name : String} (hz : Ty.Spelled z ty)
    (hs : s.tokens = z ++ .glob name :: .lparen :: x) :
    ∃ head u, callHead s = .ok head u ∧ u.tokens = x := by
  have hskip : Takes (z ++ .glob name :: .lparen :: x) (z ++ .glob name :: .lparen :: x)
      (skip (·.dropWhile fun t => isCallDecoration t.val)) () := by
    obtain ⟨b, y, rfl, hb⟩ := hz.exists_cons
    exact takes_skip_none fun _ => isCallDecoration_of_startsType hb
  have hhead : Takes (z ++ .glob name :: .lparen :: x) (.glob name :: .lparen :: x)
      (skip (·.dropWhile fun t => isCallDecoration t.val) >>= fun _ => type) ty :=
    hskip.bind (takes_spelled hz (List.cons_ne_nil _ _) (by simp))
  obtain ⟨r, hr, htokens⟩ := hhead.run hs
  obtain ⟨⟨_, p⟩, us, rfl, rfl, hus⟩ := List.map_eq_cons_iff.mp htokens
  obtain ⟨⟨_, q⟩, vs, rfl, rfl, hvs⟩ := List.map_eq_cons_iff.mp hus
  refine ⟨(ty, (s.builder.symbol name).2),
    { s with rest := vs, builder := (s.builder.symbol name).1 }, ?_, hvs⟩
  rw [callHead, ← bind_assoc, bind_of_ok hr]
  rfl

/-- Behind the type of its first argument a call is in this argument. -/
theorem exists_inArgument {z z' x : List Token} {name : String} {ty' : Ty} (hz : Ty.Spelled z ty)
    (hz' : Ty.Spelled z' ty') (hx : x ≠ []) (hstar : x.head? ≠ some .star)
    (hs : s.tokens = z ++ .glob name :: .lparen :: (z' ++ x)) :
    ∃ v, InArgument s v ∧ v.tokens = x := by
  obtain ⟨head, u, hhead, hu⟩ := callHead_of_tokens hz hs
  obtain ⟨r, htype, hr⟩ := (takes_spelled hz' hx hstar).run hu
  refine ⟨_, ⟨head, u, [], u, ty', _, hhead, .refl _ _, ?_, htype, .refl _ _⟩, hr⟩
  obtain ⟨b, y, rfl, hb⟩ := hz'.exists_cons
  rw [ahead_of_tokens hu]
  exact Token.ne_of_startsType hb rfl

end
end Reader
end SsaGraph
