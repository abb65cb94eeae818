import SsaGraph.Proofs.Manifest.Entries

/-!
Comments behind the lines of a manifest.  A comment behind a line without quotes
is dropped.  Behind a quote it is read as part of the value, and the file says
the same as without comments only if no such value counts.
-/

namespace SsaGraph
namespace Manifest

/-! ## Where comments are cut off -/

/-- A quote stands in front of the first number sign. -/
def Quoted (line : List Char) : Prop := '"' ∈ line.takeWhile (· != '#')

instance (line : List Char) : Decidable (Quoted line) :=
  inferInstanceAs (Decidable ('"' ∈ line.takeWhile (· != '#')))

section
variable {line : List Char}

theorem withoutComment_of_quoted (h : Quoted line) : withoutComment line = line :=
  if_pos (List.contains_iff_mem.mpr h)

theorem withoutComment_of_not_quoted (h : ¬ Quoted line) :
    withoutComment line = line.takeWhile (· != '#') :=
  if_neg fun hc => h (List.contains_iff_mem.mp hc)

theorem withoutComment_of_not_mem (h : '#' ∉ line) : withoutComment line = line := by
  by_cases hq : Quoted line
  · exact withoutComment_of_quoted hq
  · rw [withoutComment_of_not_quoted hq, Text.takeWhile_ne_of_not_mem h]

theorem lineOf_congr {line' : List Char}
    (h : Text.trim (withoutComment line) = Text.trim (withoutComment line')) :
    lineOf line = lineOf line' := by
  unfold lineOf
  rw [h]

/-- Blanks at the end of a line say nothing, in front of a comment or behind
it. -/
theorem lineOf_append_blanks {bs : List Char} (hb : ∀ b ∈ bs, Text.isBlank b = true) :
    lineOf (line ++ bs) = lineOf line := by
  have hsign : '#' ∉ bs := fun hs => absurd (hb _ hs) (by decide)
  apply lineOf_congr
  by_cases hc : '#' ∈ line
  · obtain ⟨before, rest, rfl, hbefore⟩ := List.eq_append_cons_of_mem hc
    have htake : ((before ++ '#' :: rest) ++ bs).takeWhile (· != '#') =
        (before ++ '#' :: rest).takeWhile (· != '#') := by
      rw [List.append_assoc, List.cons_append, Text.takeWhile_ne_append hbefore,
        Text.takeWhile_ne_append hbefore]
    by_cases hq : Quoted (before ++ '#' :: rest)
    · have hq' : Quoted ((before ++ '#' :: rest) ++ bs) := by
        unfold Quoted
        rw [htake]
        exact hq
      rw [withoutComment_of_quoted hq, withoutComment_of_quoted hq']
      exact Text.trimBy_append_of_all hb _
    · have hq' : ¬ Quoted ((before ++ '#' :: rest) ++ bs) := by
        unfold Quoted
        rw [htake]
        exact hq
      rw [withoutComment_of_not_quoted hq, withoutComment_of_not_quoted hq', htake]
  · rw [withoutComment_of_not_mem hc,
      withoutComment_of_not_mem fun h => (List.mem_append.mp h).elim hc hsign]
    exact Text.trimBy_append_of_all hb _

theorem lineOf_withoutReturn (line : List Char) : lineOf (Text.withoutReturn line) = lineOf line := by
  unfold Text.withoutReturn
  split
  next h =>
    obtain ⟨front, rfl⟩ := List.getLast?_eq_some_iff.mp h
    rw [List.dropLast_concat]
    refine (lineOf_append_blanks fun b hb => ?_).symm
    rw [List.mem_singleton.mp hb]
    decide
  · rfl

/-- A comment is dropped if no quote stands in front of it. -/
theorem lineOf_append_comment (h : ¬ Quoted line) (c : List Char) :
    lineOf (line ++ ' ' :: '#' :: c) = lineOf line := by
  by_cases hc : '#' ∈ line
  · obtain ⟨before, rest, rfl, hbefore⟩ := List.eq_append_cons_of_mem hc
    have hq : ¬ Quoted ((before ++ '#' :: rest) ++ ' ' :: '#' :: c) := by
      unfold Quoted at h ⊢
      rw [Text.takeWhile_ne_append hbefore] at h
      rwa [List.append_assoc, List.cons_append, Text.takeWhile_ne_append hbefore]
    apply lineOf_congr
    rw [withoutComment_of_not_quoted h, withoutComment_of_not_quoted hq, List.append_assoc,
      List.cons_append, Text.takeWhile_ne_append hbefore, Text.takeWhile_ne_append hbefore]
  · have hspace : '#' ∉ line ++ [' '] := fun h =>
      (List.mem_append.mp h).elim hc fun h => absurd (List.mem_singleton.mp h) (by decide)
    have htake : (line ++ ' ' :: '#' :: c).takeWhile (· != '#') = line ++ [' '] := by
      rw [List.append_cons, Text.takeWhile_ne_append hspace]
    have hq : ¬ Quoted (line ++ ' ' :: '#' :: c) := by
      unfold Quoted at h ⊢
      rw [Text.takeWhile_ne_of_not_mem hc] at h
      rw [htake]
      exact fun hm => (List.mem_append.mp hm).elim h fun h =>
        absurd (List.mem_singleton.mp h) (by decide)
    have hblanks : lineOf (line ++ [' ']) = lineOf line :=
      lineOf_append_blanks fun b hb => by
        rw [List.mem_singleton.mp hb]
        decide
    rw [← hblanks]
    apply lineOf_congr
    rw [withoutComment_of_not_quoted hq, htake, withoutComment_of_not_mem hspace]

end

/-! ## Entries -/

section
variable {line key value : List Char}

/-- A line in brackets is a heading, whatever stands between them. -/
def Bracketed (line : List Char) : Prop :=
  (Text.trim (withoutComment line)).head? = some '[' ∧
    (Text.trim (withoutComment line)).getLast? = some ']'

instance (line : List Char) : Decidable (Bracketed line) := instDecidableAnd

theorem lineOf_of_not_bracketed (hline : withoutComment line = key ++ '=' :: value) (hkey : '=' ∉ key)
    (hopen : ¬ Bracketed line) :
    lineOf line = .entry (Text.unquote (Text.trim key)) (Text.unquote (Text.trim value)) := by
  have htrim : Text.trim (withoutComment line) = key.dropWhile Text.isBlank ++
      '=' :: (value.reverse.dropWhile Text.isBlank).reverse := by
    rw [hline]
    exact Text.trimBy_append_cons (by decide) key value
  have hkey' : '=' ∉ key.dropWhile Text.isBlank := fun h =>
    hkey ((List.dropWhile_sublist _).subset h)
  unfold lineOf
  simp only
  refine (if_neg hopen).trans ?_
  rw [htrim, if_pos (List.contains_iff_mem.mpr (List.mem_append_cons_self)),
    Text.takeWhile_ne_append hkey', List.drop_append, List.drop_eq_nil_of_le (Nat.le_succ _),
    Nat.add_sub_cancel_left]
  exact congrArg₂ (fun k v => Line.entry (Text.unquote k) (Text.unquote v))
    (Text.trimBy_dropWhile key) (Text.trimBy_dropWhile_reverse value)

theorem lineOf_entry (hline : withoutComment line = key ++ '=' :: value) (hkey : '=' ∉ key)
    (hhead : (key.dropWhile Text.isBlank).head? ≠ some '[') :
    lineOf line = .entry (Text.unquote (Text.trim key)) (Text.unquote (Text.trim value)) := by
  refine lineOf_of_not_bracketed hline hkey fun hopen => ?_
  have hstart := hopen.1
  rw [hline, Text.trim, Text.trimBy_append_cons (by decide)] at hstart
  cases hk : key.dropWhile Text.isBlank with
  | nil =>
    rw [hk] at hstart
    exact absurd (Option.some.inj hstart) (by decide)
  | cons k ks =>
    rw [hk] at hstart hhead
    exact hhead hstart

/-- The value of an entry is written in its line, in front of the comment. -/
theorem mem_of_lineOf_entry (h : lineOf line = .entry key value) {c : Char} (hc : c ∈ value) :
    c ∈ withoutComment line := by
  unfold lineOf at h
  simp only at h
  split at h
  · cases h
  split at h
  · cases h
    have hvalue := (Text.trimBy_sublist _ _).subset ((Text.trimBy_sublist _ _).subset hc)
    exact (Text.trimBy_sublist _ _).subset ((List.drop_sublist _ _).subset hvalue)
  · cases h

end

/-- A line without a comment.  If there is a quote in it, then it is an entry. -/
structure Plain (line : List Char) : Prop where
  unbroken : '\n' ∉ line
  entry : Quoted line → '#' ∉ line ∧ ∃ key value, line = key ++ '=' :: value ∧ '=' ∉ key ∧
    (key.dropWhile Text.isBlank).head? ≠ some '['

section
variable {line : List Char}

theorem Plain.not_mem_value (hp : Plain line) {key value : List Char}
    (h : lineOf line = .entry key value) : '#' ∉ value := by
  intro hc
  have hmem := mem_of_lineOf_entry h hc
  by_cases hq : Quoted line
  · rw [withoutComment_of_quoted hq] at hmem
    exact (hp.entry hq).1 hmem
  · rw [withoutComment_of_not_quoted hq] at hmem
    exact absurd (List.mem_takeWhile_imp hmem) (by decide)

/-- Behind a quote a comment becomes part of the value. -/
theorem Plain.lineOf_append_comment (hp : Plain line) (hq : Quoted line) (c : List Char) :
    ∃ key value value', lineOf line = .entry key value ∧
      lineOf (line ++ ' ' :: '#' :: c) = .entry key value' ∧ '#' ∈ value' := by
  obtain ⟨hsign, key, value, hline, hkey, hhead⟩ := hp.entry hq
  have hq' : Quoted (line ++ ' ' :: '#' :: c) := by
    unfold Quoted at hq ⊢
    rw [Text.takeWhile_ne_of_not_mem hsign] at hq
    have hspace : '#' ∉ line ++ [' '] := fun h =>
      (List.mem_append.mp h).elim hsign fun h => absurd (List.mem_singleton.mp h) (by decide)
    rw [List.append_cons, Text.takeWhile_ne_append hspace]
    exact List.mem_append_left _ hq
  have hplain : withoutComment line = key ++ '=' :: value := by
    rw [withoutComment_of_quoted hq, hline]
  have hcommented : withoutComment (line ++ ' ' :: '#' :: c) =
      key ++ '=' :: (value ++ ' ' :: '#' :: c) := by
    rw [withoutComment_of_quoted hq', hline, List.append_assoc, List.cons_append]
  refine ⟨_, _, _, lineOf_entry hplain hkey hhead, lineOf_entry hcommented hkey hhead, ?_⟩
  have hmem : '#' ∈ value ++ ' ' :: '#' :: c :=
    List.mem_append_right _ (List.mem_cons_of_mem _ List.mem_cons_self)
  exact Text.mem_trimBy (Text.mem_trimBy hmem (by decide)) (by decide)

end

/-! ## What a garbled value does -/

section
variable {value : List Char}

theorem natBelow?_eq_none {limit : Nat} (h : '#' ∈ value) : Digits.natBelow? limit value = none :=
  if_neg fun hd => absurd (List.all_eq_true.mp hd.2.1 _ h) (by decide)

theorem signedBelow?_eq_none {limit : Nat} (h : '#' ∈ value) :
    Digits.signedBelow? limit value = none := by
  unfold Digits.signedBelow?
  split
  next cs =>
    rcases List.mem_cons.mp h with hc | hc
    · exact absurd hc (by decide)
    · exact natBelow?_eq_none hc
  · exact natBelow?_eq_none h

theorem ofName?_eq_none (h : '#' ∈ value) : OutputFormat.ofName? (String.ofList value) = none := by
  have hword : ∀ {word : String}, String.ofList value = word → '#' ∈ word.toList := by
    rintro _ rfl
    rwa [String.toList_ofList]
  unfold OutputFormat.ofName?
  split
  next htext => exact absurd (hword htext) (by decide)
  next hjson => exact absurd (hword hjson) (by decide)
  next hdot => exact absurd (hword hdot) (by decide)
  · rfl

/-- No setting but the name takes a value with a number sign in it. -/
theorem Setting.update_number_sign {s : Setting} (h : '#' ∈ value) (hs : s ≠ .name) :
    ∃ e, s.update value = .error e := by
  have hcount : ∀ key, count key value = .error (.badCount key (String.ofList value)) := by
    intro key
    unfold count
    rw [signedBelow?_eq_none h]
  have hformat : outputFormat value = .error (.badFormat (String.ofList value)) := by
    unfold outputFormat
    rw [ofName?_eq_none h]
  cases s with
  | name => exact absurd rfl hs
  | dynamic => exact ⟨_, congrArg (Except.map _) (hcount _)⟩
  | independent => exact ⟨_, congrArg (Except.map _) (hcount _)⟩
  | dependent => exact ⟨_, congrArg (Except.map _) (hcount _)⟩
  | format => exact ⟨_, congrArg (Except.map _) hformat⟩

end

/-- What is refused in lines without comments has no number sign in it. -/
theorem not_mem_refused {lines : List (List Char)} (hl : ∀ line ∈ lines, Plain line) {m : Manifest}
    {current : List Char} {e : ConfigError} (h : readLines m current lines = .error e)
    {value : List Char} (hv : value? e = some (String.ofList value)) : '#' ∉ value := by
  induction lines generalizing m current with
  | nil => cases h
  | cons line rest ih =>
    have hrest := fun l hm => hl l (List.mem_cons_of_mem line hm)
    cases hg : (lineOf line).given? current with
    | none =>
      rw [readLines_cons_of_none hg] at h
      exact ih hrest h
    | some a =>
      rw [readLines_cons_of_some hg] at h
      cases hu : a.1.update a.2 with
      | ok u =>
        rw [hu] at h
        exact ih hrest h
      | error e' =>
        rw [hu] at h
        cases h
        have he := Setting.update_eq_error hu
        rw [hv] at he
        have hvalue : value = a.2 := String.ofList_injective (Option.some.inj he)
        rw [hvalue]
        cases hline : lineOf line with
        | nothing => rw [hline] at hg; cases hg
        | heading name => rw [hline] at hg; cases hg
        | entry key value' =>
          rw [hline] at hg
          obtain ⟨s, -, hs⟩ := Option.map_eq_some_iff.mp hg
          rw [← hs]
          exact (hl line List.mem_cons_self).not_mem_value hline

/-! ## Lines with comments -/

/-- A line and the comment behind it. -/
structure CommentedLine where
  line : List Char
  comment : Option (List Char)
  deriving DecidableEq, Repr

def CommentedLine.text (x : CommentedLine) : List Char :=
  x.line ++ x.comment.elim [] fun c => ' ' :: '#' :: ' ' :: c

/-- The comment stands behind a quote. -/
def CommentedLine.Garbled (x : CommentedLine) : Prop := x.comment.isSome ∧ Quoted x.line

/-- It does not matter which name lines find: they are refused, or they give
another one. -/
def Hides (current : List Char) (lines : List (List Char)) : Prop :=
  Refused current lines ∨ .name ∈ (given current lines).map Prod.fst

/-- A garbled value between lines does not count: the line sets nothing, or the
lines before it are refused already, or it is a name that nothing sees. -/
def Spared (current : List Char) (before : List (List Char)) (line : List Char)
    (after : List (List Char)) : Prop :=
  ∀ a, (lineOf line).given? (sectionAfter current before) = some a →
    Refused current before ∨ a.1 = .name ∧ Hides (sectionAfter current before) after

/-- No comment behind a quoted value counts. -/
def Harmless (current : List Char) (xs : List CommentedLine) : Prop :=
  ∀ before x after, xs = before ++ x :: after → x.Garbled →
    Spared current (before.map CommentedLine.line) x.line (after.map CommentedLine.line)

section
variable {m : Manifest} {current : List Char} {x : CommentedLine} {xs : List CommentedLine}

theorem lineOf_text (h : ¬ x.Garbled) : lineOf x.text = lineOf x.line := by
  unfold CommentedLine.text
  cases hc : x.comment with
  | none => exact congrArg lineOf (List.append_nil _)
  | some c => exact lineOf_append_comment (fun hq => h ⟨by rw [hc]; rfl, hq⟩) (' ' :: c)

theorem lineOf_text_of_garbled (hp : Plain x.line) (h : x.Garbled) :
    ∃ key value value', lineOf x.line = .entry key value ∧ lineOf x.text = .entry key value' ∧
      '#' ∉ value ∧ '#' ∈ value' := by
  obtain ⟨c, hc⟩ := Option.isSome_iff_exists.mp h.1
  obtain ⟨key, value, value', hline, htext, hsign⟩ := hp.lineOf_append_comment h.2 (' ' :: c)
  refine ⟨key, value, value', hline, ?_, hp.not_mem_value hline, hsign⟩
  rw [← htext, CommentedLine.text, hc]
  rfl

/-- A comment changes nothing but the value that a line gives. -/
theorem given?_text (hp : Plain x.line) (current : List Char) :
    (lineOf x.text).sectionAfter current = (lineOf x.line).sectionAfter current ∧
      ((lineOf x.line).given? current = none ∧ (lineOf x.text).given? current = none ∨
        ∃ s value value', (lineOf x.line).given? current = some (s, value) ∧
          (lineOf x.text).given? current = some (s, value') ∧
          (¬ x.Garbled ∧ value' = value ∨ x.Garbled ∧ '#' ∉ value ∧ '#' ∈ value')) := by
  by_cases hx : x.Garbled
  · obtain ⟨key, value, value', hline, htext, hv, hv'⟩ := lineOf_text_of_garbled hp hx
    rw [hline, htext]
    refine ⟨rfl, ?_⟩
    cases hs : Setting.of? current key with
    | none => exact .inl ⟨congrArg (Option.map _) hs, congrArg (Option.map _) hs⟩
    | some s =>
      exact .inr ⟨s, value, value', congrArg (Option.map _) hs, congrArg (Option.map _) hs,
        .inr ⟨hx, hv, hv'⟩⟩
  · rw [lineOf_text hx]
    refine ⟨rfl, ?_⟩
    cases hg : (lineOf x.line).given? current with
    | none => exact .inl ⟨rfl, rfl⟩
    | some a => exact .inr ⟨a.1, a.2, a.2, rfl, rfl, .inl ⟨hx, rfl⟩⟩

theorem harmless_cons (hrefused : ∀ lines, Refused current (x.line :: lines) ↔
      Refused ((lineOf x.line).sectionAfter current) lines) :
    Harmless current (x :: xs) ↔
      (x.Garbled → Spared current [] x.line (xs.map CommentedLine.line)) ∧
        Harmless ((lineOf x.line).sectionAfter current) xs := by
  constructor
  · intro h
    refine ⟨h [] x xs rfl, fun before y after hxs hy a ha => ?_⟩
    exact (h (x :: before) y after (by rw [hxs]; rfl) hy a ha).imp (hrefused _).mp id
  · rintro ⟨hx, hxs⟩ before y after he hy
    cases before with
    | nil =>
      cases he
      exact hx hy
    | cons x' before =>
      cases he
      exact fun a ha => (hxs before y after rfl hy a ha).imp (hrefused _).mpr id

theorem harmless_cons_of_refused (hrefused : ∀ lines, Refused current (x.line :: lines))
    (hx : ¬ x.Garbled) : Harmless current (x :: xs) := by
  intro before y after he hy a ha
  cases before with
  | nil =>
    cases he
    exact absurd hy hx
  | cons x' before =>
    cases he
    exact .inl (hrefused _)

/-- Lines with comments, read with another name at the start, say the same as
without them exactly if the comments are harmless and the name is hidden. -/
def Unaffected (current : List Char) (xs : List CommentedLine) : Prop :=
  ∀ (m : Manifest) (f : Option String),
    readLines { m with function := f } current (xs.map CommentedLine.text) =
        readLines m current (xs.map CommentedLine.line) ↔
      Harmless current xs ∧ (f = m.function ∨ Hides current (xs.map CommentedLine.line))

theorem unaffected_nil (current : List Char) : Unaffected current [] := by
  intro m f
  have hnil : Harmless current [] := fun before y after h => by
    cases before <;> cases h
  have hhides : ¬ Hides current [] := by
    rintro (⟨e, he⟩ | hn)
    · cases he
    · cases hn
  rw [List.map_nil, List.map_nil, readLines, readLines]
  constructor
  · intro h
    exact ⟨hnil, .inl (congrArg Manifest.function (Except.ok.inj h))⟩
  · rintro ⟨-, rfl | h⟩
    · rfl
    · exact absurd h hhides

theorem unaffected_cons_of_none (hg : (lineOf x.line).given? current = none)
    (hg' : (lineOf x.text).given? current = none)
    (hsection : (lineOf x.text).sectionAfter current = (lineOf x.line).sectionAfter current)
    (ih : Unaffected ((lineOf x.line).sectionAfter current) xs) : Unaffected current (x :: xs) := by
  intro m f
  have hspared : Spared current [] x.line (xs.map CommentedLine.line) := by
    intro a ha
    cases hg.symm.trans ha
  rw [List.map_cons, List.map_cons, readLines_cons_of_none hg, readLines_cons_of_none hg', hsection,
    ih m f, harmless_cons fun _ => refused_cons_of_none hg]
  unfold Hides
  rw [refused_cons_of_none hg, given, hg]
  exact ⟨fun h => ⟨⟨fun _ => hspared, h.1⟩, h.2⟩, fun h => ⟨h.1.2, h.2⟩⟩

section
variable {s : Setting} {value value' : List Char}

/-- A garbled name counts if nothing behind it hides it. -/
theorem unaffected_cons_of_name (hg : (lineOf x.line).given? current = some (.name, value))
    (hg' : (lineOf x.text).given? current = some (.name, value'))
    (hvalue : value' = value ↔ ¬ x.Garbled) (ih : Unaffected current xs) :
    Unaffected current (x :: xs) := by
  intro m f
  have hcurrent := sectionAfter_of_given? hg
  have hhides : Hides current (x.line :: xs.map CommentedLine.line) :=
    .inr (by rw [given, hg]; exact List.mem_cons_self)
  have hspared : Spared current [] x.line (xs.map CommentedLine.line) ↔
      Hides current (xs.map CommentedLine.line) := by
    constructor
    · intro h
      rcases h _ hg with ⟨e, he⟩ | h
      · cases he
      · exact h.2
    · intro h a ha
      cases hg.symm.trans ha
      exact .inr ⟨rfl, h⟩
  have hname : some (String.ofList value') = some (String.ofList value) ↔ ¬ x.Garbled := by
    rw [Option.some_inj, String.ofList_inj, hvalue]
  have hrest : readLines { m with function := some (String.ofList value') } current
        (xs.map CommentedLine.text) = readLines { m with function := some (String.ofList value) }
        current (xs.map CommentedLine.line) ↔
      Harmless current xs ∧ (¬ x.Garbled ∨ Hides current (xs.map CommentedLine.line)) := by
    rw [← hname]
    exact ih { m with function := some (String.ofList value) } (some (String.ofList value'))
  rw [List.map_cons, List.map_cons, readLines_cons_of_some hg, readLines_cons_of_some hg',
    harmless_cons fun _ => by rw [hcurrent]; exact refused_cons_of_ok hg rfl, hcurrent, hspared]
  refine hrest.trans ⟨fun h => ⟨⟨fun hx => h.2.resolve_left (not_not_intro hx), h.1⟩, .inr hhides⟩,
    fun h => ⟨h.1.2, (Classical.em x.Garbled).elim (fun hx => .inr (h.1.1 hx)) .inl⟩⟩

/-- A setting other than the name, given without a comment behind a quote. -/
theorem unaffected_cons_of_same (hs : s ≠ .name)
    (hg : (lineOf x.line).given? current = some (s, value))
    (hg' : (lineOf x.text).given? current = some (s, value)) (hx : ¬ x.Garbled)
    (ih : Unaffected current xs) : Unaffected current (x :: xs) := by
  intro m f
  have hcurrent := sectionAfter_of_given? hg
  rw [List.map_cons, List.map_cons, readLines_cons_of_some hg, readLines_cons_of_some hg']
  cases hu : s.update value with
  | error e =>
    have hrefused : ∀ lines, Refused current (x.line :: lines) := fun _ =>
      refused_cons_of_error hg hu
    exact iff_of_true rfl ⟨harmless_cons_of_refused hrefused hx, .inr (.inl (hrefused _))⟩
  | ok u =>
    have hkeeps := Setting.update_keeps_name hu hs m
    have hfunction : (u m).function = m.function := by
      have hself := congrArg Manifest.function (hkeeps m.function)
      exact hself
    have hhides : Hides current (x.line :: xs.map CommentedLine.line) ↔
        Hides current (xs.map CommentedLine.line) := by
      unfold Hides
      rw [refused_cons_of_ok hg hu, given, hg, hcurrent]
      refine or_congr_right ⟨fun h => ?_, List.mem_cons_of_mem s⟩
      exact (List.mem_cons.mp h).resolve_left fun h => hs h.symm
    have hrest : readLines (u { m with function := f }) current (xs.map CommentedLine.text) =
          readLines (u m) current (xs.map CommentedLine.line) ↔
        Harmless current xs ∧ (f = m.function ∨ Hides current (xs.map CommentedLine.line)) := by
      rw [hkeeps f, ← hfunction]
      exact ih (u m) f
    rw [harmless_cons fun _ => by rw [hcurrent]; exact refused_cons_of_ok hg hu, hcurrent, hhides]
    exact hrest.trans ⟨fun h => ⟨⟨fun h => absurd h hx, h.1⟩, h.2⟩, fun h => ⟨h.1.2, h.2⟩⟩

/-- A garbled value of a setting other than the name is refused, and without the
comment the lines are read or refused for something else. -/
theorem unaffected_cons_of_garbled (hs : s ≠ .name)
    (hg : (lineOf x.line).given? current = some (s, value))
    (hg' : (lineOf x.text).given? current = some (s, value')) (hx : x.Garbled)
    (hsign : '#' ∈ value')
    (hlines : ∀ line ∈ (x :: xs).map CommentedLine.line, Plain line) :
    Unaffected current (x :: xs) := by
  intro m f
  obtain ⟨e, he⟩ := Setting.update_number_sign hsign hs
  refine iff_of_false (fun h => ?_) fun h => ?_
  · rw [List.map_cons, readLines_cons_of_some hg', he] at h
    exact not_mem_refused hlines h.symm (Setting.update_eq_error he) hsign
  · rcases h.1 [] x xs rfl hx _ hg with ⟨e, he⟩ | hname
    · cases he
    · exact hs hname.1

end

theorem unaffected (hx : ∀ x ∈ xs, Plain x.line) (current : List Char) : Unaffected current xs := by
  induction xs generalizing current with
  | nil => exact unaffected_nil current
  | cons x xs ih =>
    have hrest := fun y hm => hx y (List.mem_cons_of_mem x hm)
    have hlines : ∀ line ∈ (x :: xs).map CommentedLine.line, Plain line := by
      intro line hl
      obtain ⟨y, hy, rfl⟩ := List.mem_map.mp hl
      exact hx y hy
    obtain ⟨hsection, ⟨hg, hg'⟩ | ⟨s, value, value', hg, hg', hvalue⟩⟩ :=
      given?_text (hx x List.mem_cons_self) current
    · exact unaffected_cons_of_none hg hg' hsection (ih hrest _)
    by_cases hs : s = .name
    · subst hs
      refine unaffected_cons_of_name hg hg' ?_ (ih hrest current)
      rcases hvalue with ⟨hx, hv⟩ | ⟨hx, hv, hv'⟩
      · exact iff_of_true hv hx
      · exact iff_of_false (fun he => hv (he ▸ hv')) (fun h => h hx)
    · rcases hvalue with ⟨hx, rfl⟩ | ⟨hx, -, hv'⟩
      · exact unaffected_cons_of_same hs hg hg' hx (ih hrest current)
      · exact unaffected_cons_of_garbled hs hg hg' hx hv' hlines

end

/-! ## Texts -/

/-- The text with the given lines. -/
def textOf (lines : List (List Char)) : String := String.ofList (['\n'].intercalate lines)

theorem readLines_cons_congr {line line' : List Char} {rest rest' : List (List Char)}
    (hline : lineOf line = lineOf line')
    (hrest : ∀ m current, readLines m current rest = readLines m current rest') (m : Manifest)
    (current : List Char) :
    readLines m current (line :: rest) = readLines m current (line' :: rest') := by
  cases hg : (lineOf line').given? current with
  | none =>
    rw [readLines_cons_of_none hg, readLines_cons_of_none (hline ▸ hg), hline, hrest]
  | some a =>
    rw [readLines_cons_of_some hg, readLines_cons_of_some (hline ▸ hg)]
    exact congrArg _ (funext fun u => hrest (u m) current)

theorem readLines_lines {lines : List (List Char)} (h : ∀ line ∈ lines, '\n' ∉ line) (m : Manifest)
    (current : List Char) :
    readLines m current (Text.lines (['\n'].intercalate lines)) = readLines m current lines := by
  induction lines generalizing m current with
  | nil => rfl
  | cons line rest ih =>
    have hline := h line List.mem_cons_self
    have hrest := fun m current => ih (fun l hl => h l (List.mem_cons_of_mem line hl)) m current
    cases rest with
    | nil =>
      rw [List.intercalate_singleton, Text.lines, Text.lines_go_of_not_mem hline, List.nil_append]
      cases line with
      | nil => rfl
      | cons c cs => rfl
    | cons next rest =>
      rw [List.intercalate_cons_cons, List.append_assoc, List.singleton_append, Text.lines,
        Text.lines_go_append hline, List.nil_append]
      exact readLines_cons_congr (lineOf_withoutReturn line) hrest m current

theorem read_textOf {lines : List (List Char)} (h : ∀ line ∈ lines, '\n' ∉ line) :
    read (textOf lines) = readLines {} [] lines := by
  unfold read textOf
  rw [String.toList_ofList]
  exact readLines_lines h {} []

/-- Comments leave what a manifest says, or why it is refused, as it is if and
only if none that stands behind a quoted value counts. -/
theorem read_commented_iff {xs : List CommentedLine}
    (hx : ∀ x ∈ xs, Plain x.line ∧ ∀ c, x.comment = some c → '\n' ∉ c) :
    read (textOf (xs.map CommentedLine.text)) = read (textOf (xs.map CommentedLine.line)) ↔
      Harmless [] xs := by
  have hlines : ∀ line ∈ xs.map CommentedLine.line, '\n' ∉ line := by
    intro line hl
    obtain ⟨x, hm, rfl⟩ := List.mem_map.mp hl
    exact (hx x hm).1.unbroken
  have htexts : ∀ line ∈ xs.map CommentedLine.text, '\n' ∉ line := by
    intro line hl
    obtain ⟨x, hm, rfl⟩ := List.mem_map.mp hl
    unfold CommentedLine.text
    cases hc : x.comment with
    | none => exact fun h => (hx x hm).1.unbroken (List.append_nil x.line ▸ h)
    | some c =>
      intro h
      rcases List.mem_append.mp h with h | h
      · exact (hx x hm).1.unbroken h
      · simp only [Option.elim, List.mem_cons] at h
        rcases h with h | h | h | h
        · exact absurd h (by decide)
        · exact absurd h (by decide)
        · exact absurd h (by decide)
        · exact (hx x hm).2 c hc h
  have hrun := unaffected (fun x hm => (hx x hm).1) [] {} none
  rw [read_textOf hlines, read_textOf htexts]
  exact hrun.trans ⟨fun h => h.1, fun h => ⟨h, .inl rfl⟩⟩

/-- A commented name that a second entry replaces. -/
def replacedName : List CommentedLine := [
  ⟨"[function]".toList, some "what to lower".toList⟩,
  ⟨"name = \"rosen\"".toList, some "two \"valleys\"".toList⟩,
  ⟨"name = dixon".toList, none⟩,
  ⟨"variables = 2".toList, some "# V".toList⟩]

theorem replacedName_plain :
    ∀ x ∈ replacedName, Plain x.line ∧ ∀ c, x.comment = some c → '\n' ∉ c := by
  have hbare : ∀ {line : List Char}, '\n' ∉ line → ¬ Quoted line → Plain line :=
    fun hl hq => ⟨hl, fun h => absurd h hq⟩
  have hname : Plain "name = \"rosen\"".toList :=
    ⟨by decide, fun _ => ⟨by decide, "name ".toList, " \"rosen\"".toList, by decide, by decide,
      by decide⟩⟩
  intro x hx
  simp only [replacedName, List.mem_cons, List.not_mem_nil, or_false] at hx
  rcases hx with rfl | rfl | rfl | rfl
  · exact ⟨hbare (by decide) (by decide), fun c hc => by cases hc; decide⟩
  · exact ⟨hname, fun c hc => by cases hc; decide⟩
  · exact ⟨hbare (by decide) (by decide), fun c hc => by cases hc⟩
  · exact ⟨hbare (by decide) (by decide), fun c hc => by cases hc; decide⟩

theorem read_commented_replacedName :
    (∀ x ∈ replacedName, Plain x.line ∧ ∀ c, x.comment = some c → '\n' ∉ c) ∧
      read (textOf (replacedName.map CommentedLine.text)) =
        .ok { function := some "dixon", independent := some 2 } ∧ Harmless [] replacedName := by
  refine ⟨replacedName_plain, by decide +kernel, (read_commented_iff replacedName_plain).mp ?_⟩
  decide +kernel

/-- A format with its choices listed behind it. -/
def listedFormats : List CommentedLine := [
  ⟨"[output]".toList, none⟩,
  ⟨"format = \"text\"".toList, some "text | json | dot".toList⟩]

theorem read_listedFormats_refused :
    read (textOf (listedFormats.map CommentedLine.line)) = .ok { format := some .text } ∧
      read (textOf (listedFormats.map CommentedLine.text)) =
        .error (.badFormat "text\" # text | json | dot") := by
  decide +kernel

end Manifest
end SsaGraph
