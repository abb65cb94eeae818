import SsaGraph.Json.Codec
import SsaGraph.Proofs.Codec
import SsaGraph.Proofs.Json.Tokens
import SsaGraph.Proofs.Json.Values

/-!
The JSON codec is faithful.  The text of a scalar, or of a list of scalars, has the same tokens
whatever stands behind it, and these are one value (`Readable`).  So a list or an object is cut
into the tokens of its parts, and read as what these are read as.
-/

namespace SsaGraph
namespace Json

/-! ## Readable texts -/

/-- The tokens of a text are the same whatever stands behind it. -/
def Whole (text : List Char) : Prop := Tokenizes text (tokens? text)

theorem Tokenizes.whole {text : List Char} {r : Option (List Tok)} (h : Tokenizes text r) :
    Whole text := by
  rw [Whole, h.tokens?_eq]
  exact h

/-- The tokens of a text are the same whatever stands behind it, and are one value. -/
structure Readable (text : String) : Prop where
  whole : Whole text.toList
  parses : ∀ {ts}, tokens? text.toList = some ts → ∃ v, Parses ts v

theorem readable_of_scalar? {text : String} {t : Tok} {v : Json}
    (h : Tokenizes text.toList (some [t])) (hv : scalar? t = some v) : Readable text := by
  refine ⟨h.whole, fun {ts} hts => ⟨v, ?_⟩⟩
  rw [h.tokens?_eq] at hts
  cases hts
  exact parses_scalar hv

theorem read?_of_scalar? {text : String} {t : Tok} {v : Json}
    (h : Tokenizes text.toList (some [t])) (hv : scalar? t = some v) : read? text = some v :=
  read?_of_parses h.tokens?_eq (parses_scalar hv)

theorem read?_of_tokens?_eq_none {text : String} (h : tokens? text.toList = none) :
    read? text = none := by
  rw [read?, h]
  rfl

/-- Either some text has no tokens, and is not read, or all have some, and are read as the values
of these. -/
theorem mapM_read? {texts : List String} (h : ∀ text ∈ texts, Readable text) :
    ((texts.mapM fun text => tokens? text.toList) = none ∧ texts.mapM read? = none) ∨
      ∃ parts vs, (texts.mapM fun text => tokens? text.toList) = some parts ∧
        texts.mapM read? = some vs ∧ List.Forall₂ Parses parts vs := by
  cases hparts : texts.mapM fun text => tokens? text.toList with
  | none =>
    obtain ⟨text, htext, hnone⟩ := exists_of_mapM_eq_none hparts
    exact .inl ⟨rfl, mapM_eq_none htext (read?_of_tokens?_eq_none hnone)⟩
  | some parts =>
    refine .inr ⟨parts, ?_⟩
    rw [mapM_eq_some_iff] at hparts
    induction hparts with
    | nil => exact ⟨[], rfl, rfl, .nil⟩
    | @cons text ts texts parts hts _ ih =>
      obtain ⟨htext, htexts⟩ := List.forall_mem_cons.mp h
      obtain ⟨v, hv⟩ := htext.parses hts
      obtain ⟨vs, _, hvs, hall⟩ := ih htexts
      refine ⟨v :: vs, rfl, ?_, .cons hv hall⟩
      rw [List.mapM_cons, read?_of_parses hts hv, hvs]
      rfl

/-! ## Scalars -/

theorem write_of_not_finite {x : Binary64} (h : x.isFinite = false) :
    numberStyle.write x = "null" := by
  unfold NumberStyle.write
  rw [h]
  split
  · rfl
  · show (if x.negative = true then "null" else "null") = "null"
    split <;> rfl

theorem tokenizes_null_text : Tokenizes "null".toList (some [.null]) := by
  rw [show "null".toList = ['n', 'u', 'l', 'l'] by decide]
  exact tokenizes_null

theorem readable_number (x : Binary64) : Readable (numberStyle.write x) := by
  cases hx : x.isFinite with
  | false =>
    rw [write_of_not_finite hx]
    exact readable_of_scalar? tokenizes_null_text rfl
  | true =>
    obtain ⟨cs, hcs, htext⟩ := numberStyle.write_finite hx
    have htokens : Tokenizes (numberStyle.write x).toList
        ((numeral? x.negative cs).map fun r => [.number r.1]) := by
      intro rest hrest
      rw [htext, tokens?_numeric hcs hrest]
      cases numeral? x.negative cs <;> rfl
    refine ⟨htokens.whole, fun {ts} hts => ?_⟩
    rw [htokens.tokens?_eq] at hts
    obtain ⟨r, _, rfl⟩ := Option.map_eq_some_iff.mp hts
    exact ⟨.number r.1, parses_scalar rfl⟩

theorem readable_scalar (s : Scalar) : Readable (writeScalar s) := by
  cases s with
  | text s => exact readable_of_scalar? (tokenizes_quote s) rfl
  | count n => exact readable_of_scalar? (tokenizes_count n) rfl
  | number x => exact readable_number x
  | tag name => exact readable_of_scalar? (tokenizes_quote name) rfl

theorem readable_of_mem {items : List Scalar} : ∀ text ∈ items.map writeScalar, Readable text := by
  intro text htext
  obtain ⟨s, _, rfl⟩ := List.mem_map.mp htext
  exact readable_scalar s

/-! ## Lists -/

/-- A mark and blanks behind it. -/
theorem tokens?_mark {c : Char} {t : Tok} (hspace : isSpace c = false)
    (ht : punctuation? c = some t) {blanks : List Char} (hblanks : blanks.all isSpace = true)
    (cs : List Char) : tokens? (c :: blanks ++ cs) = (tokens? cs).map (t :: ·) := by
  rw [List.cons_append, tokens?_punctuation hspace ht, tokens?_blanks hblanks]

/-- Texts between commas. -/
theorem tokens?_intercalate {blanks closing : List Char} (hblanks : blanks.all isSpace = true)
    (hclosing : Stops continues closing) {texts : List (List Char)} (h : ∀ text ∈ texts, Whole text)
    (hne : texts ≠ []) :
    tokens? (List.intercalate (',' :: blanks) texts ++ closing) =
      (texts.mapM tokens?).bind fun parts => (tokens? closing).map (commaTokens parts ++ ·) := by
  induction texts with
  | nil => exact absurd rfl hne
  | cons text texts ih =>
    obtain ⟨htext, htexts⟩ := List.forall_mem_cons.mp h
    cases texts with
    | nil =>
      rw [List.intercalate_singleton, htext _ hclosing, List.mapM_cons]
      cases tokens? text with
      | none => rfl
      | some ts => simp [commaTokens_singleton]
    | cons later texts =>
      have hcomma : ∀ cs, Stops continues (',' :: blanks ++ cs) := fun _ => .cons (by decide) _
      have hall : (text :: later :: texts).mapM tokens? = (tokens? text).bind fun ts =>
          ((later :: texts).mapM tokens?).bind fun parts => some (ts :: parts) := List.mapM_cons
      rw [List.intercalate_cons_cons, List.append_assoc, List.append_assoc, htext _ (hcomma _),
        tokens?_mark (by decide) rfl hblanks, ih htexts (List.cons_ne_nil _ _), hall]
      cases tokens? text with
      | none => rfl
      | some ts =>
        cases hparts : (later :: texts).mapM tokens? with
        | none => rfl
        | some parts =>
          obtain ⟨part, parts, rfl⟩ : ∃ part more, parts = part :: more := by
            have hlength := (mapM_eq_some_iff.mp hparts).length_eq
            exact List.exists_cons_of_length_eq_add_one hlength.symm
          cases tokens? closing <;> simp [commaTokens_cons_cons]

section
variable {indent : String} (hindent : indent.toList.all isSpace = true) {texts : List String}
include hindent

theorem tokenizes_writeList (h : ∀ text ∈ texts, Readable text) :
    Tokenizes (writeList indent texts).toList
      ((texts.mapM fun text => tokens? text.toList).map arrayTokens) := by
  intro rest _
  cases texts with
  | nil =>
    have htext : (writeList indent []).toList ++ rest = '[' :: ']' :: rest := by
      rw [writeList, List.isEmpty_nil, if_pos rfl, show "[]".toList = ['[', ']'] by decide]
      rfl
    rw [htext, tokens?_punctuation (by decide) rfl, tokens?_punctuation (by decide) rfl]
    cases tokens? rest <;> rfl
  | cons text texts =>
    let blanks := '\n' :: (indent.toList ++ [' ', ' '])
    have htext : (writeList indent (text :: texts)).toList ++ rest =
        '[' :: blanks ++ (List.intercalate (',' :: blanks) ((text :: texts).map String.toList) ++
          ('\n' :: indent.toList ++ ']' :: rest)) := by
      show ("[\n" ++ indent ++ "  " ++ String.intercalate (",\n" ++ indent ++ "  ") (text :: texts) ++
        "\n" ++ indent ++ "]").toList ++ rest = _
      simp only [String.toList_append, String.toList_intercalate, List.append_assoc,
        show "[\n".toList = ['[', '\n'] by decide, show ",\n".toList = [',', '\n'] by decide,
        show "  ".toList = [' ', ' '] by decide, show "\n".toList = ['\n'] by decide,
        show "]".toList = [']'] by decide, List.cons_append, List.nil_append, blanks]
    have hblanks : blanks.all isSpace = true := by
      simp only [blanks, List.all_cons, List.all_append, hindent]
      decide
    have hwhole : ∀ cs ∈ (text :: texts).map String.toList, Whole cs := by
      intro cs hcs
      obtain ⟨t, ht, rfl⟩ := List.mem_map.mp hcs
      exact (h t ht).whole
    have hclosing : Stops continues ('\n' :: indent.toList ++ ']' :: rest) := .cons (by decide) _
    have hend : ('\n' :: indent.toList).all isSpace = true := by
      rw [List.all_cons, hindent]
      decide
    rw [htext, tokens?_mark (by decide) rfl hblanks,
      tokens?_intercalate hblanks hclosing hwhole (List.cons_ne_nil _ _), List.mapM_map,
      tokens?_blanks hend, tokens?_punctuation (by decide) rfl, Function.comp_def]
    cases (text :: texts).mapM fun text => tokens? text.toList with
    | none => rfl
    | some parts => cases tokens? rest <;> simp [arrayTokens]

theorem readable_writeList (h : ∀ text ∈ texts, Readable text) :
    Readable (writeList indent texts) := by
  have htokens := tokenizes_writeList hindent h
  refine ⟨htokens.whole, fun {ts} hts => ?_⟩
  rw [htokens.tokens?_eq] at hts
  rcases mapM_read? h with ⟨hnone, _⟩ | ⟨parts, vs, hparts, _, hall⟩
  · rw [hnone] at hts
    cases hts
  · rw [hparts] at hts
    cases hts
    exact ⟨.array vs, parses_array hall⟩

/-- A list is read as what its items are read as. -/
theorem read?_writeList (h : ∀ text ∈ texts, Readable text) :
    read? (writeList indent texts) = (texts.mapM read?).map .array := by
  have htokens := (tokenizes_writeList hindent h).tokens?_eq
  rcases mapM_read? h with ⟨hnone, hread⟩ | ⟨parts, vs, hparts, hread, hall⟩
  · rw [hnone] at htokens
    rw [hread, read?_of_tokens?_eq_none htokens]
    rfl
  · rw [hparts] at htokens
    rw [hread, read?_of_parses htokens (parses_array hall)]
    rfl

theorem readable_writeValue (v : FieldValue) : Readable (writeValue indent v) := by
  cases v with
  | scalar s => exact readable_scalar s
  | list items => exact readable_writeList hindent readable_of_mem

end

/-- The blanks in front do not matter. -/
theorem read?_writeValue {indent : String} (hindent : indent.toList.all isSpace = true)
    (v : FieldValue) : read? (writeValue indent v) = read? (writeValue "" v) := by
  cases v with
  | scalar s => rfl
  | list items =>
    exact (read?_writeList hindent readable_of_mem).trans
      (read?_writeList (by decide) readable_of_mem).symm

/-! ## Objects -/

theorem tokenizes_writeMember {m : String × String} (h : Readable m.2) :
    Tokenizes (writeMember m).toList
      ((tokens? m.2.toList).map fun ts => memberTokens (m.1, ts)) := by
  intro rest hrest
  have htext : (writeMember m).toList ++ rest =
      [' ', ' '] ++ ((quote m.1).toList ++ (':' :: [' '] ++ (m.2.toList ++ rest))) := by
    show ("  " ++ quote m.1 ++ ": " ++ m.2).toList ++ rest = _
    simp only [String.toList_append, List.append_assoc, show "  ".toList = [' ', ' '] by decide,
      show ": ".toList = ':' :: [' '] by decide]
  rw [htext, tokens?_blanks (by decide), tokens?_quote, tokens?_mark (by decide) rfl (by decide),
    h.whole rest hrest]
  cases tokens? m.2.toList with
  | none => rfl
  | some ts => cases tokens? rest <;> rfl

/-- Parts that may fail, each with its key. -/
theorem mapM_member {α : Type} (f : String → Option α) (members : List (String × String)) :
    (members.mapM fun m => (f m.2).map (m.1, ·)) =
      ((members.map Prod.snd).mapM f).map fun as => (members.map Prod.fst).zip as := by
  induction members with
  | nil => rfl
  | cons m members ih =>
    rw [List.mapM_cons, ih, List.map_cons, List.map_cons, List.mapM_cons]
    cases f m.2 with
    | none => rfl
    | some a => cases (members.map Prod.snd).mapM f <;> rfl

theorem tokens?_writeObject {members : List (String × String)} (h : ∀ m ∈ members, Readable m.2) :
    tokens? (writeObject members).toList =
      ((members.map Prod.snd).mapM fun text => tokens? text.toList).map fun parts =>
        objectTokens ((members.map Prod.fst).zip parts) := by
  cases members with
  | nil =>
    rw [writeObject, List.isEmpty_nil, if_pos rfl, show "\x7b\x7d".toList = ['\x7b', '\x7d'] by decide,
      tokens?_punctuation (by decide) rfl, tokens?_punctuation (by decide) rfl, tokens?_nil]
    rfl
  | cons m members =>
    have htext : (writeObject (m :: members)).toList = '\x7b' :: ['\n'] ++ (List.intercalate
        (',' :: ['\n']) (((m :: members).map writeMember).map String.toList) ++ ['\n', '\x7d']) := by
      show ("\x7b\n" ++ String.intercalate ",\n" ((m :: members).map writeMember) ++
        "\n\x7d").toList = _
      simp only [String.toList_append, String.toList_intercalate, List.append_assoc,
        show "\x7b\n".toList = '\x7b' :: ['\n'] by decide,
        show ",\n".toList = ',' :: ['\n'] by decide, show "\n\x7d".toList = ['\n', '\x7d'] by decide]
    have hwhole : ∀ cs ∈ ((m :: members).map writeMember).map String.toList, Whole cs := by
      intro cs hcs
      rw [List.map_map] at hcs
      obtain ⟨n, hn, rfl⟩ := List.mem_map.mp hcs
      exact (tokenizes_writeMember (h n hn)).whole
    have hparts : ((((m :: members).map writeMember).map String.toList).mapM tokens?) =
        ((m :: members).mapM fun n => (tokens? n.2.toList).map (n.1, ·)).map
          (List.map memberTokens) := by
      rw [List.map_map, List.mapM_map, ← mapM_map_result]
      refine mapM_congr (List.forall₂_same.mpr fun n hn => ?_)
      rw [Option.map_map]
      exact (tokenizes_writeMember (h n hn)).tokens?_eq
    have hclosing : Stops continues ['\n', '\x7d'] := .cons (by decide) _
    rw [htext, tokens?_mark (by decide) rfl (by decide),
      tokens?_intercalate (by decide) hclosing hwhole (List.cons_ne_nil _ _), hparts,
      mapM_member fun text => tokens? text.toList,
      tokens?_blank (by decide), tokens?_punctuation (by decide) rfl, tokens?_nil]
    cases ((m :: members).map Prod.snd).mapM fun text => tokens? text.toList <;> rfl

theorem parses_members {parts : List (List Tok)} {vs : List Json}
    (h : List.Forall₂ Parses parts vs) (names : List String) :
    List.Forall₂ ParsesMember (names.zip parts) ((names.zip vs).map fun m => (some m.1, m.2)) := by
  induction h generalizing names with
  | nil =>
    rw [List.zip_nil_right, List.zip_nil_right]
    exact .nil
  | cons hparses _ ih =>
    cases names with
    | nil => exact .nil
    | cons name names => exact .cons ⟨rfl, hparses⟩ (ih names)

/-- An object is read as what its members are read as. -/
theorem read?_writeObject {members : List (String × String)} (h : ∀ m ∈ members, Readable m.2) :
    read? (writeObject members) = ((members.map Prod.snd).mapM read?).map fun vs =>
      .object (((members.map Prod.fst).zip vs).map fun m => (some m.1, m.2)) := by
  have htokens := tokens?_writeObject h
  have htexts : ∀ text ∈ members.map Prod.snd, Readable text := by
    intro text htext
    obtain ⟨m, hm, rfl⟩ := List.mem_map.mp htext
    exact h m hm
  rcases mapM_read? htexts with ⟨hnone, hread⟩ | ⟨parts, vs, hparts, hread, hall⟩
  · rw [hnone] at htokens
    rw [hread, read?_of_tokens?_eq_none htokens]
    rfl
  · rw [hparts] at htokens
    rw [hread, read?_of_parses htokens (parses_object (parses_members hall _))]
    rfl

/-- Names that differ are found where they stand. -/
theorem onlyMember?_zip {names : List String} {vs : List Json} (hlength : names.length = vs.length)
    (hnodup : names.Nodup) (earlier : List (String × Json))
    (hearlier : ∀ m ∈ earlier, m.1 ∉ names) :
    List.Forall₂ (fun name v => onlyMember? (earlier ++ names.zip vs) name = some v) names vs := by
  induction names generalizing vs earlier with
  | nil =>
    rw [List.length_nil, eq_comm, List.length_eq_zero_iff] at hlength
    subst hlength
    exact .nil
  | cons name names ih =>
    obtain ⟨v, vs, rfl⟩ := List.exists_cons_of_length_eq_add_one hlength.symm
    obtain ⟨hname, hnames⟩ := List.nodup_cons.mp hnodup
    refine .cons ?_ ?_
    · have hbefore : earlier.filter (fun m => m.1 == name) = [] := by
        refine List.filter_eq_nil_iff.mpr fun m hm e => hearlier m hm ?_
        rw [beq_iff_eq.mp e]
        exact List.mem_cons_self
      have hafter : (names.zip vs).filter (fun m => m.1 == name) = [] := by
        refine List.filter_eq_nil_iff.mpr fun m hm e => hname ?_
        rw [← beq_iff_eq.mp e]
        exact (List.of_mem_zip hm).1
      have hall : (earlier ++ (name, v) :: names.zip vs).filter (fun m => m.1 == name) =
          [(name, v)] := by
        rw [List.filter_append, hbefore, List.filter_cons, hafter, beq_self_eq_true]
        rfl
      rw [List.zip_cons_cons, onlyMember?, hall]
    · have hrest := ih (Nat.succ.inj hlength) hnames (earlier ++ [(name, v)]) fun m hm => by
        rcases List.mem_append.mp hm with hm | hm
        · exact fun h => hearlier m hm (List.mem_cons_of_mem name h)
        · rw [List.mem_singleton.mp hm]
          exact hname
      rw [List.append_assoc] at hrest
      exact hrest

theorem record?_object {names : List String} {vs : List Json} (hnames : names.Nodup)
    (h : names.length = vs.length) :
    record? names (.object ((names.zip vs).map fun m => (some m.1, m.2))) = some vs := by
  have hmembers : (((names.zip vs).map fun m => (some m.1, m.2)).mapM fun m =>
      m.1.map fun key => (key, m.2)) = some (names.zip vs) := by
    rw [mapM_eq_some_iff, List.forall₂_map_left_iff, List.forall₂_same]
    exact fun _ _ => rfl
  have hfields := mapM_eq_some_iff.mpr
    (onlyMember?_zip h hnames [] fun m hm => absurd hm List.not_mem_nil)
  rw [List.nil_append] at hfields
  rw [record?, hmembers, Option.bind_eq_bind, Option.bind_some, hfields]

/-! ## All laws -/

theorem list?_reread (items : List Scalar) :
    (read? (write (.value (.list items))) >>= list?) = items.mapM fun s => read? (writeScalar s) := by
  have hread : read? (write (.value (.list items))) = _ :=
    read?_writeList (by decide) readable_of_mem
  rw [hread, List.mapM_map, Function.comp_def]
  cases items.mapM fun s => read? (writeScalar s) <;> rfl

theorem record?_reread {fields : List (String × FieldValue)} (h : (fields.map Prod.fst).Nodup) :
    (read? (write (.record fields)) >>= record? (fields.map Prod.fst)) =
      fields.mapM fun f => read? (write (.value f.2)) := by
  have hmembers : ∀ m ∈ fields.map fun f => (f.1, writeValue "  " f.2), Readable m.2 := by
    intro m hm
    obtain ⟨f, _, rfl⟩ := List.mem_map.mp hm
    exact readable_writeValue (by decide) f.2
  have hread : read? (write (.record fields)) = _ := read?_writeObject hmembers
  have hvalues : (fields.mapM fun f => read? (writeValue "  " f.2)) =
      fields.mapM fun f => read? (write (.value f.2)) :=
    mapM_congr (List.forall₂_same.mpr fun f _ => read?_writeValue (by decide) f.2)
  rw [hread, List.map_map, List.map_map, List.mapM_map, ← hvalues]
  show ((fields.mapM fun f => read? (writeValue "  " f.2)).map fun vs =>
    object (((fields.map Prod.fst).zip vs).map fun m => (some m.1, m.2))).bind _ = _
  cases hvs : fields.mapM fun f => read? (writeValue "  " f.2) with
  | none => rfl
  | some vs =>
    refine record?_object h ?_
    rw [List.length_map]
    exact (mapM_eq_some_iff.mp hvs).length_eq

theorem codec_faithful : codec.Faithful where
  text s := by
    show (read? (quote s)).bind text? = some s
    rw [read?_of_scalar? (tokenizes_quote s) rfl]
    rfl
  count n hn := by
    show (read? (toString n)).bind count? = some n
    rw [read?_of_scalar? (tokenizes_count n) rfl]
    exact count?_countNumeral hn
  tag name := by
    show (read? (quote name)).bind tag? = some name
    rw [read?_of_scalar? (tokenizes_quote name) rfl]
    rfl
  list := list?_reread
  record _ := record?_reread
  notFinite _ := write_of_not_finite
  null := by
    show (read? "null").bind float? = none
    rw [read?_of_scalar? tokenizes_null_text rfl]
    rfl

end Json
end SsaGraph
