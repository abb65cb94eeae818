import SsaGraph.Proofs.Manifest.Comments
import SsaGraph.Proofs.Text.Digits

/-!
A manifest that is written is read back.  Its settings stand under their headings, in any
order and among lines that set nothing (`Layout`).  A line with a setting adds it to those
read before (`readLines_item`), so the manifest is what has been read at the end
(`read_layout`).
-/

namespace SsaGraph
namespace Manifest

/-! ## Settings as they are written -/

/-- What a manifest gives for a setting. -/
def content? (m : Manifest) : Setting → Option (List Char)
  | .name => m.function.map String.toList
  | .dynamic => m.dynamic.map (Nat.toDigits 10)
  | .independent => m.independent.map (Nat.toDigits 10)
  | .dependent => m.dependent.map (Nat.toDigits 10)
  | .format => m.format.map (·.name.toList)

namespace Setting

/-- Texts are written between quotes, counts as they are. -/
def spelled (cs : List Char) : Setting → List Char
  | name | format => '"' :: (cs ++ ['"'])
  | dynamic | independent | dependent => cs

def line (cs : List Char) (s : Setting) : List Char :=
  s.place.2.toList ++ ' ' :: '=' :: ' ' :: s.spelled cs

/-- What can be told from the quotes around it, or is a count. -/
def Takes (cs : List Char) : Setting → Prop
  | name | format => '\n' ∉ cs ∧ cs.head? ≠ some '"' ∧ cs.getLast? ≠ some '"'
  | dynamic | independent | dependent => ∀ c ∈ cs, c.isDigit = true

section
variable {s : Setting} {cs : List Char}

/-- What is written is read without the quotes. -/
theorem unquote_spelled (h : s.Takes cs) : Text.unquote (Text.trim (' ' :: s.spelled cs)) = cs := by
  cases s with
  | name | format => exact Text.unquote_quoted h.2.1 h.2.2
  | dynamic | independent | dependent => exact Text.unquote_digits h

/-- No part of a setting is cut off: a number sign in a text has a quote before it. -/
theorem withoutComment_line (h : s.Takes cs) : withoutComment (s.line cs) = s.line cs := by
  have hkey : '#' ∉ s.place.2.toList := by cases s <;> decide
  have htext : ∀ ds : List Char,
      withoutComment (s.place.2.toList ++ ' ' :: '=' :: ' ' :: '"' :: ds) =
        s.place.2.toList ++ ' ' :: '=' :: ' ' :: '"' :: ds := by
    intro ds
    refine withoutComment_of_quoted ?_
    show '"' ∈ List.takeWhile _ _
    rw [List.takeWhile_append_of_pos (List.takeWhile_eq_self_iff.mp (Text.takeWhile_ne_of_not_mem hkey))]
    simp
  have hcount : (∀ c ∈ cs, c.isDigit = true) →
      withoutComment (s.place.2.toList ++ ' ' :: '=' :: ' ' :: cs) =
        s.place.2.toList ++ ' ' :: '=' :: ' ' :: cs := by
    intro hdigits
    refine withoutComment_of_not_mem fun hmem => ?_
    simp only [List.mem_append, hkey, List.mem_cons, Char.reduceEq, false_or] at hmem
    exact absurd (hdigits _ hmem) (by decide)
  cases s with
  | name | format => exact htext _
  | dynamic | independent | dependent => exact hcount h

theorem lineOf_line (h : s.Takes cs) : lineOf (s.line cs) = .entry s.place.2.toList cs := by
  have hparts : s.line cs = (s.place.2.toList ++ [' ']) ++ '=' :: ' ' :: s.spelled cs := by
    simp [line]
  have hkey : Text.unquote (Text.trim (s.place.2.toList ++ [' '])) = s.place.2.toList := by
    cases s <;> decide
  rw [lineOf_entry ((withoutComment_line h).trans hparts) (by cases s <;> decide)
    (by cases s <;> decide), hkey, unquote_spelled h]

theorem unbroken_line (h : s.Takes cs) : '\n' ∉ s.line cs := by
  have hkey : '\n' ∉ s.place.2.toList := by cases s <;> decide
  have hvalue : '\n' ∉ s.spelled cs := by
    cases s with
    | name | format => simp [spelled, h.1]
    | dynamic | independent | dependent => exact fun hmem => absurd (h _ hmem) (by decide)
  simp [line, hkey, hvalue]

theorem of?_place (s : Setting) : of? s.place.1.toList s.place.2.toList = some s := by
  cases s <;> decide

end

end Setting

/-! ## Manifests that can be written -/

/-- Counts have 64 bits.  The name is on one line and has no quote at its ends, where it could
not be told from those around it. -/
structure Expressible (m : Manifest) : Prop where
  name : ∀ f ∈ m.function, '\n' ∉ f.toList ∧ f.toList.head? ≠ some '"' ∧ f.toList.getLast? ≠ some '"'
  dynamic : ∀ n ∈ m.dynamic, n < 1 <<< 64
  independent : ∀ n ∈ m.independent, n < 1 <<< 64
  dependent : ∀ n ∈ m.dependent, n < 1 <<< 64

/-- The manifest with nothing but the given settings. -/
def only (m : Manifest) (ss : List Setting) : Manifest where
  function := if .name ∈ ss then m.function else none
  dynamic := if .dynamic ∈ ss then m.dynamic else none
  independent := if .independent ∈ ss then m.independent else none
  dependent := if .dependent ∈ ss then m.dependent else none
  format := if .format ∈ ss then m.format else none

theorem only_nil (m : Manifest) : m.only [] = {} := by
  simp [only]

section
variable {m : Manifest} {s : Setting} {cs : List Char}

/-- Nothing is missing if every setting that the manifest has is given. -/
theorem only_eq_self {ss : List Setting} (h : ∀ s, (m.content? s).isSome = true → s ∈ ss) :
    m.only ss = m := by
  have hfield : ∀ {α : Type} (s : Setting) (x : Option α), (m.content? s).isSome = x.isSome →
      (if s ∈ ss then x else none) = x := by
    intro α s x hx
    cases x with
    | none => exact ite_self none
    | some a => exact if_pos (h s hx)
  unfold only
  rw [hfield .name _ (by simp [content?]), hfield .dynamic _ (by simp [content?]),
    hfield .independent _ (by simp [content?]), hfield .dependent _ (by simp [content?]),
    hfield .format _ (by simp [content?])]

theorem takes_of_content? (hm : m.Expressible) (h : m.content? s = some cs) : s.Takes cs := by
  have hdigits : ∀ {x : Option Nat}, x.map (Nat.toDigits 10) = some cs →
      ∀ c ∈ cs, c.isDigit = true := by
    intro x hx c hc
    obtain ⟨n, -, rfl⟩ := Option.map_eq_some_iff.mp hx
    exact Digits.isDigit_of_mem_toDigits hc
  cases s with
  | name =>
    obtain ⟨f, hf, rfl⟩ := Option.map_eq_some_iff.mp h
    exact hm.name f hf
  | format =>
    obtain ⟨f, -, rfl⟩ := Option.map_eq_some_iff.mp h
    cases f <;> simp only [Setting.Takes] <;> decide
  | dynamic | independent | dependent => exact hdigits h

theorem count_toDigits (key : String) {n : Nat} (h : n < 1 <<< 64) :
    count key (Nat.toDigits 10 n) = .ok n := by
  rw [count, Digits.signedBelow?_toDigits h]

theorem outputFormat_name (f : OutputFormat) : outputFormat f.name.toList = .ok f := by
  cases f <;> rfl

/-- A setting that is read is added to those read before. -/
theorem update_content (hm : m.Expressible) (h : m.content? s = some cs) :
    ∃ u, s.update cs = .ok u ∧ ∀ ss, u (m.only ss) = m.only (s :: ss) := by
  cases s with
  | name =>
    obtain ⟨f, hf, rfl⟩ := Option.map_eq_some_iff.mp h
    exact ⟨_, rfl, fun ss => by simp [only, hf]⟩
  | dynamic =>
    obtain ⟨n, hn, rfl⟩ := Option.map_eq_some_iff.mp h
    refine ⟨_, congrArg (Except.map _) (count_toDigits "dynamic" (hm.dynamic n hn)), fun ss => ?_⟩
    simp [only, hn]
  | independent =>
    obtain ⟨n, hn, rfl⟩ := Option.map_eq_some_iff.mp h
    refine ⟨_, congrArg (Except.map _) (count_toDigits "variables" (hm.independent n hn)), fun ss => ?_⟩
    simp [only, hn]
  | dependent =>
    obtain ⟨n, hn, rfl⟩ := Option.map_eq_some_iff.mp h
    refine ⟨_, congrArg (Except.map _) (count_toDigits "dependent" (hm.dependent n hn)), fun ss => ?_⟩
    simp [only, hn]
  | format =>
    obtain ⟨f, hf, rfl⟩ := Option.map_eq_some_iff.mp h
    refine ⟨_, congrArg (Except.map _) (outputFormat_name f), fun ss => ?_⟩
    simp [only, hf]

end

/-! ## Lines that set nothing -/

/-- A blank line, or an entry with a key that is none of its section. -/
structure Idle (heading : String) (line : List Char) : Prop where
  unbroken : '\n' ∉ line
  form : (∀ c ∈ line, Text.isBlank c = true) ∨ ¬ Bracketed line ∧ ∃ key value,
    line = key ++ '=' :: value ∧ '=' ∉ key ∧
      ∀ s : Setting, s.place ≠ (heading, String.ofList (Text.unquote (Text.trim key)))

section
variable {heading : String} {line : List Char}

theorem lineOf_blank (h : ∀ c ∈ line, Text.isBlank c = true) : lineOf line = .nothing := by
  have hempty : lineOf ([] ++ line) = lineOf [] := lineOf_append_blanks h
  exact hempty

/-- The key of an entry is not changed by cutting off a comment, unless the entry is cut off
with it. -/
theorem withoutComment_entry {key value : List Char} (hline : line = key ++ '=' :: value)
    (hkey : '=' ∉ key) (hmem : '=' ∈ withoutComment line) :
    ∃ value', withoutComment line = key ++ '=' :: value' := by
  have hcut : withoutComment line <+: line := by
    unfold withoutComment
    simp only
    split
    · exact List.prefix_rfl
    · exact List.takeWhile_prefix _
  obtain ⟨before, behind, hbefore, hnone⟩ := List.eq_append_cons_of_mem hmem
  obtain ⟨rest, hrest⟩ := hcut
  rw [hbefore, List.append_assoc, List.cons_append] at hrest
  have hsame : before = key := by
    rw [← Text.takeWhile_ne_append hnone (behind ++ rest), hrest, hline, Text.takeWhile_ne_append hkey]
  exact ⟨behind, by rw [hbefore, hsame]⟩

theorem lineOf_of_not_mem (hopen : ¬ Bracketed line) (h : '=' ∉ withoutComment line) :
    lineOf line = .nothing := by
  have hnone : '=' ∉ Text.trim (withoutComment line) := fun hmem =>
    h ((Text.trimBy_sublist _ _).subset hmem)
  unfold lineOf
  simp only
  refine (if_neg hopen).trans (if_neg ?_)
  rwa [List.contains_iff_mem]

theorem of?_eq_none {key : List Char} (h : ∀ s : Setting, s.place ≠ (heading, String.ofList key)) :
    Setting.of? heading.toList key = none := by
  unfold Setting.of?
  rw [List.find?_eq_none, String.ofList_toList]
  exact fun s _ hs => h s (beq_iff_eq.mp hs)

theorem Idle.readLines (h : Idle heading line) (m : Manifest) (rest : List (List Char)) :
    readLines m heading.toList (line :: rest) = readLines m heading.toList rest := by
  have hgiven : (lineOf line).given? heading.toList = none ∧
      (lineOf line).sectionAfter heading.toList = heading.toList := by
    rcases h.form with hblank | ⟨hopen, key, value, hline, hkey, hother⟩
    · rw [lineOf_blank hblank]
      exact ⟨rfl, rfl⟩
    · by_cases hmem : '=' ∈ withoutComment line
      · obtain ⟨value', hcut⟩ := withoutComment_entry hline hkey hmem
        rw [lineOf_of_not_bracketed hcut hkey hopen]
        exact ⟨congrArg (Option.map _) (of?_eq_none hother), rfl⟩
      · rw [lineOf_of_not_mem hopen hmem]
        exact ⟨rfl, rfl⟩
  rw [readLines_cons_of_none hgiven.1, hgiven.2]

end

/-! ## Layouts -/

/-- A line under a heading. -/
inductive Item where
  | setting (s : Setting)
  | other (line : List Char)
  deriving DecidableEq, Repr

namespace Item

def text (m : Manifest) : Item → List Char
  | setting s => s.line ((m.content? s).getD [])
  | other line => line

def setting? : Item → Option Setting
  | setting s => some s
  | other _ => none

/-- Settings that the manifest has may stand under their own heading, and lines that set
nothing anywhere. -/
def Under (m : Manifest) (heading : String) : Item → Prop
  | setting s => s.place.1 = heading ∧ (m.content? s).isSome = true
  | other line => Idle heading line

end Item

/-- A heading and the lines under it. -/
structure Part where
  heading : String
  items : List Item
  deriving DecidableEq, Repr

namespace Part

def lines (m : Manifest) (p : Part) : List (List Char) :=
  ('[' :: (p.heading.toList ++ [']'])) :: p.items.map (Item.text m)

def settings (p : Part) : List Setting := p.items.filterMap Item.setting?

end Part

/-- A way to write a manifest: lines in front of the first heading, and then the sections, in
any order.  Every setting that the manifest has is in its section. -/
structure Layout (m : Manifest) where
  front : List (List Char)
  parts : List Part
  idle : ∀ line ∈ front, Idle "" line
  headings : ∀ p ∈ parts, p.heading = "function" ∨ p.heading = "output"
  under : ∀ p ∈ parts, ∀ i ∈ p.items, i.Under m p.heading
  complete : ∀ s, (m.content? s).isSome = true → s ∈ parts.flatMap Part.settings

/-- Every manifest can be written, with one section after the other and nothing in between. -/
instance (m : Manifest) : Inhabited (Layout m) where
  default :=
    { front := []
      parts := ["function", "output"].map fun heading => ⟨heading,
        ([.name, .dynamic, .independent, .dependent, .format].filter fun s : Setting =>
          s.place.1 = heading ∧ (m.content? s).isSome).map Item.setting⟩
      idle := by simp
      headings := by simp
      under := by
        intro p hp i hi
        obtain ⟨heading, -, rfl⟩ := List.mem_map.mp hp
        obtain ⟨s, hs, rfl⟩ := List.mem_map.mp hi
        have hplace : s.place.1 = heading ∧ (m.content? s).isSome = true :=
          of_decide_eq_true (List.mem_filter.mp hs).2
        exact hplace
      complete := by
        intro s hs
        cases s <;> simp [Part.settings, Item.setting?, Setting.place, hs] }

def Layout.lines {m : Manifest} (d : Layout m) : List (List Char) :=
  d.front ++ d.parts.flatMap (Part.lines m)

def Layout.text {m : Manifest} (d : Layout m) : String := textOf d.lines

section
variable {m : Manifest} {heading : String}

/-- One line adds at most the setting that it is. -/
theorem readLines_item (hm : m.Expressible) {i : Item} (h : i.Under m heading) (ss : List Setting)
    (rest : List (List Char)) :
    readLines (m.only ss) heading.toList (i.text m :: rest) =
      readLines (m.only (i.setting?.toList ++ ss)) heading.toList rest := by
  cases i with
  | other line => exact Idle.readLines h _ _
  | setting s =>
    obtain ⟨rfl, hsome⟩ := h
    obtain ⟨cs, hcs⟩ := Option.isSome_iff_exists.mp hsome
    obtain ⟨u, hu, hadds⟩ := update_content hm hcs
    have hgiven : (lineOf ((Item.setting s).text m)).given? s.place.1.toList = some (s, cs) := by
      show (lineOf (s.line ((m.content? s).getD []))).given? _ = _
      rw [hcs, Option.getD_some, Setting.lineOf_line (takes_of_content? hm hcs)]
      exact congrArg (Option.map _) (Setting.of?_place s)
    rw [readLines_cons_of_some hgiven, hu]
    show readLines (u (m.only ss)) _ rest = _
    rw [hadds]
    rfl

theorem readLines_items (hm : m.Expressible) {items : List Item}
    (h : ∀ i ∈ items, i.Under m heading) (ss : List Setting) (rest : List (List Char)) :
    readLines (m.only ss) heading.toList (items.map (Item.text m) ++ rest) =
      readLines (m.only ((items.filterMap Item.setting?).reverse ++ ss)) heading.toList rest := by
  induction items generalizing ss with
  | nil => rfl
  | cons i items ih =>
    obtain ⟨hi, hitems⟩ := List.forall_mem_cons.mp h
    have hsettings : ((i :: items).filterMap Item.setting?).reverse ++ ss =
        (items.filterMap Item.setting?).reverse ++ (i.setting?.toList ++ ss) := by
      rw [List.filterMap_cons]
      cases i.setting? <;> simp
    rw [List.map_cons, List.cons_append, readLines_item hm hi, ih hitems, hsettings]

theorem readLines_heading {name : String} (h : name = "function" ∨ name = "output") (acc : Manifest)
    (current : List Char) (rest : List (List Char)) :
    readLines acc current (('[' :: (name.toList ++ [']'])) :: rest) = readLines acc name.toList rest := by
  have hline : lineOf ('[' :: (name.toList ++ [']'])) = .heading name.toList := by
    rcases h with rfl | rfl <;> decide
  rw [readLines, hline]

theorem readLines_parts (hm : m.Expressible) {parts : List Part}
    (hheadings : ∀ p ∈ parts, p.heading = "function" ∨ p.heading = "output")
    (h : ∀ p ∈ parts, ∀ i ∈ p.items, i.Under m p.heading) (ss : List Setting) (current : List Char) :
    readLines (m.only ss) current (parts.flatMap (Part.lines m)) =
      .ok (m.only ((parts.flatMap Part.settings).reverse ++ ss)) := by
  induction parts generalizing ss current with
  | nil => rfl
  | cons p parts ih =>
    obtain ⟨hp, hparts⟩ := List.forall_mem_cons.mp h
    obtain ⟨hname, hnames⟩ := List.forall_mem_cons.mp hheadings
    rw [List.flatMap_cons, Part.lines, List.cons_append, readLines_heading hname,
      readLines_items hm hp, ih hnames hparts, List.flatMap_cons, List.reverse_append,
      List.append_assoc]
    rfl

theorem unbroken_item (hm : m.Expressible) {i : Item} (h : i.Under m heading) : '\n' ∉ i.text m := by
  cases i with
  | other line => exact Idle.unbroken h
  | setting s =>
    obtain ⟨cs, hcs⟩ := Option.isSome_iff_exists.mp h.2
    show '\n' ∉ s.line ((m.content? s).getD [])
    rw [hcs]
    exact Setting.unbroken_line (takes_of_content? hm hcs)

theorem Layout.unbroken (hm : m.Expressible) (d : Layout m) : ∀ line ∈ d.lines, '\n' ∉ line := by
  intro line hline
  rcases List.mem_append.mp hline with hline | hline
  · exact (d.idle line hline).unbroken
  · obtain ⟨p, hp, hline⟩ := List.mem_flatMap.mp hline
    rcases List.mem_cons.mp hline with rfl | hline
    · rcases d.headings p hp with h | h <;> rw [h] <;> decide
    · obtain ⟨i, hi, rfl⟩ := List.mem_map.mp hline
      exact unbroken_item hm (d.under p hp i hi)

end

/-- A manifest is read back however it is laid out. -/
theorem read_layout {m : Manifest} (hm : m.Expressible) (d : Layout m) : read d.text = .ok m := by
  have hfront : ∀ i ∈ d.front.map Item.other, i.Under m "" := by
    intro i hi
    obtain ⟨line, hline, rfl⟩ := List.mem_map.mp hi
    exact d.idle line hline
  have hlines : d.lines = (d.front.map Item.other).map (Item.text m) ++
      d.parts.flatMap (Part.lines m) := by
    rw [List.map_map]
    exact congrArg (· ++ _) (List.map_id _).symm
  have hnone : (d.front.map Item.other).filterMap Item.setting? = [] := by
    simp [List.filterMap_map, Function.comp_def, Item.setting?]
  calc read d.text = readLines {} [] d.lines := read_textOf (d.unbroken hm)
    _ = readLines (m.only []) "".toList d.lines := by rw [only_nil]; rfl
    _ = readLines (m.only []) "".toList (d.parts.flatMap (Part.lines m)) := by
        rw [hlines, readLines_items hm hfront, hnone]
        rfl
    _ = .ok (m.only ((d.parts.flatMap Part.settings).reverse ++ [])) :=
        readLines_parts hm d.headings d.under [] _
    _ = .ok m := by
        rw [only_eq_self fun s hs => ?_]
        simpa using d.complete s hs

/-- A manifest whose name looks like other parts of a line, and which lacks a count. -/
def contorted : Manifest where
  function := some " f = \"g\" # [h] "
  independent := some 18446744073709551615
  dependent := some 0
  format := some .dot

theorem contorted_expressible : contorted.Expressible where
  name := by simp only [contorted, Option.mem_def, Option.some.injEq, forall_eq']; decide
  dynamic := by simp [contorted]
  independent := by simp [contorted]
  dependent := by simp [contorted]

/-- The sections the other way round, with keys that belong to the other one. -/
def contortedLayout : Layout contorted where
  front := ["".toList, "name = \"x\"".toList]
  parts := [
    ⟨"output", [.other "name = [y]".toList, .setting .format]⟩,
    ⟨"function", [.setting .dependent, .other "\t\r".toList, .setting .name,
      .other "\"format\" = # \"dot\"".toList, .setting .independent]⟩]
  idle := by
    have hname : ∀ s : Setting, s.place ≠ ("", "name") := by intro s; cases s <;> decide
    simp only [List.forall_mem_cons, List.not_mem_nil, false_implies, implies_true, and_true]
    exact ⟨⟨by decide, .inl (List.all_eq_true.mp (by decide))⟩, by decide, .inr ⟨by decide,
      "name ".toList, " \"x\"".toList, by decide, by decide, hname⟩⟩
  headings := by decide
  under := by
    have hname : ∀ s : Setting, s.place ≠ ("output", "name") := by intro s; cases s <;> decide
    have hformat : ∀ s : Setting, s.place ≠ ("function", "format") := by intro s; cases s <;> decide
    simp only [List.forall_mem_cons, List.not_mem_nil, false_implies, implies_true, and_true, Item.Under]
    exact ⟨⟨⟨by decide, .inr ⟨by decide, "name ".toList, " [y]".toList, by decide, by decide, hname⟩⟩,
      by decide⟩, by decide, ⟨by decide, .inl (List.all_eq_true.mp (by decide))⟩, by decide,
      ⟨by decide, .inr ⟨by decide, "\"format\" ".toList, " # \"dot\"".toList, by decide, by decide,
      hformat⟩⟩, by decide⟩
  complete := by
    intro s
    cases s <;> decide

theorem read_layout_contorted : contorted.Expressible ∧
    contortedLayout.lines = ["", "name = \"x\"", "[output]", "name = [y]", "format = \"dot\"", "[function]",
      "dependent = 0", "\t\r", "name = \" f = \"g\" # [h] \"", "\"format\" = # \"dot\"",
      "variables = 18446744073709551615"].map String.toList ∧
    read contortedLayout.text = .ok contorted :=
  ⟨contorted_expressible, by decide +kernel, read_layout contorted_expressible contortedLayout⟩

end Manifest
end SsaGraph
