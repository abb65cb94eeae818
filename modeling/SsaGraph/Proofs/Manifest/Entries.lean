import SsaGraph.Manifest
import SsaGraph.Proofs.Text.Lines

/-!
What the lines of a manifest do: which setting an entry sets, in which section
the next line stands, and which lines are refused whatever was set before.
-/

namespace SsaGraph
namespace Manifest

/-- The settings that a manifest has. -/
inductive Setting where
  | name
  | dynamic
  | independent
  | dependent
  | format
  deriving DecidableEq, Repr

namespace Setting

/-- The section and the key of a setting. -/
def place : Setting → String × String
  | name => ("function", "name")
  | dynamic => ("function", "dynamic")
  | independent => ("function", "variables")
  | dependent => ("function", "dependent")
  | format => ("output", "format")

/-- The setting that a key of a section stands for. -/
def of? (heading key : List Char) : Option Setting :=
  [name, dynamic, independent, dependent, format].find? fun s =>
    s.place == (String.ofList heading, String.ofList key)

/-- What a setting does to a manifest when it is given as `value`. -/
def update (value : List Char) : Setting → Except ConfigError (Manifest → Manifest)
  | name => .ok fun m => { m with function := some (String.ofList value) }
  | dynamic => (count "dynamic" value).map fun n m => { m with dynamic := some n }
  | independent => (count "variables" value).map fun n m => { m with independent := some n }
  | dependent => (count "dependent" value).map fun n m => { m with dependent := some n }
  | format => (outputFormat value).map fun f m => { m with format := some f }

end Setting

theorem setEntry_eq (m : Manifest) (heading key value : List Char) :
    m.setEntry heading key value =
      (Setting.of? heading key).elim (.ok m) fun s => (s.update value).map fun u => u m := by
  unfold setEntry Setting.of?
  generalize String.ofList heading = h, String.ofList key = k
  split
  next => rfl
  next =>
    rw [show List.find? _ _ = some Setting.dynamic by decide]
    show _ = Except.map _ (Except.map _ (count "dynamic" value))
    cases count "dynamic" value <;> rfl
  next =>
    rw [show List.find? _ _ = some Setting.independent by decide]
    show _ = Except.map _ (Except.map _ (count "variables" value))
    cases count "variables" value <;> rfl
  next =>
    rw [show List.find? _ _ = some Setting.dependent by decide]
    show _ = Except.map _ (Except.map _ (count "dependent" value))
    cases count "dependent" value <;> rfl
  next =>
    rw [show List.find? _ _ = some Setting.format by decide]
    show _ = Except.map _ (Except.map _ (outputFormat value))
    cases outputFormat value <;> rfl
  next hname hdynamic hindependent hdependent hformat =>
    have hnone : [Setting.name, .dynamic, .independent, .dependent, .format].find?
        (fun s => s.place == (h, k)) = none := by
      simp only [List.find?_eq_none, beq_iff_eq]
      intro s _ hs
      cases s <;> cases hs
      · exact hname rfl rfl
      · exact hdynamic rfl rfl
      · exact hindependent rfl rfl
      · exact hdependent rfl rfl
      · exact hformat rfl rfl
    rw [hnone]
    rfl

/-! ## Values -/

/-- The value that an error is about. -/
def value? : ConfigError → Option String
  | .badCount _ value => some value
  | .badFormat value => some value
  | .noVariables => none
  | .noDependents => none

section
variable {s : Setting} {key : String} {value : List Char} {e : ConfigError}

theorem count_eq_error (h : count key value = .error e) : value? e = some (String.ofList value) := by
  unfold count at h
  split at h
  · cases h
  · cases h
    rfl

theorem outputFormat_eq_error (h : outputFormat value = .error e) :
    value? e = some (String.ofList value) := by
  unfold outputFormat at h
  split at h
  · cases h
  · cases h
    rfl

/-- A refusal names the value refused. -/
theorem Setting.update_eq_error (h : s.update value = .error e) :
    value? e = some (String.ofList value) := by
  have hmap : ∀ {α β : Type} {x : Except ConfigError α} {f : α → β}, x.map f = .error e →
      x = .error e := by
    intro α β x f hx
    cases x with
    | error e' => cases hx; rfl
    | ok a => cases hx
  cases s with
  | name => cases h
  | dynamic => exact count_eq_error (hmap h)
  | independent => exact count_eq_error (hmap h)
  | dependent => exact count_eq_error (hmap h)
  | format => exact outputFormat_eq_error (hmap h)

/-- A setting other than the name leaves the name alone. -/
theorem Setting.update_keeps_name {u : Manifest → Manifest} (h : s.update value = .ok u)
    (hs : s ≠ .name) (m : Manifest) (f : Option String) :
    u { m with function := f } = { u m with function := f } := by
  cases s with
  | name => exact absurd rfl hs
  | dynamic =>
    change Except.map _ (count _ _) = _ at h
    cases hc : count "dynamic" value <;> rw [hc] at h <;> cases h
    rfl
  | independent =>
    change Except.map _ (count _ _) = _ at h
    cases hc : count "variables" value <;> rw [hc] at h <;> cases h
    rfl
  | dependent =>
    change Except.map _ (count _ _) = _ at h
    cases hc : count "dependent" value <;> rw [hc] at h <;> cases h
    rfl
  | format =>
    change Except.map _ (outputFormat _) = _ at h
    cases hf : outputFormat value <;> rw [hf] at h <;> cases h
    rfl

end

/-! ## Lines -/

/-- The section in which the line behind stands. -/
def Line.sectionAfter (current : List Char) : Line → List Char
  | heading name => name
  | _ => current

/-- The setting that a line gives, and its value. -/
def Line.given? (current : List Char) : Line → Option (Setting × List Char)
  | entry key value => (Setting.of? current key).map fun s => (s, value)
  | _ => none

/-- The section in which the line behind some lines stands. -/
def sectionAfter (current : List Char) (lines : List (List Char)) : List Char :=
  lines.foldl (fun current line => (lineOf line).sectionAfter current) current

/-- The settings that lines give, in order. -/
def given (current : List Char) : List (List Char) → List (Setting × List Char)
  | [] => []
  | line :: rest =>
    ((lineOf line).given? current).toList ++ given ((lineOf line).sectionAfter current) rest

/-- The lines hold a value that their setting does not take. -/
def Refused (current : List Char) (lines : List (List Char)) : Prop :=
  ∃ e, readLines {} current lines = .error e

section
variable {m : Manifest} {current line : List Char} {rest : List (List Char)}

/-- A line that gives a setting is no heading. -/
theorem sectionAfter_of_given? {l : Line} {a : Setting × List Char}
    (h : l.given? current = some a) : l.sectionAfter current = current := by
  cases l with
  | nothing => rfl
  | heading name => cases h
  | entry key value => rfl

theorem readLines_cons_of_none (h : (lineOf line).given? current = none) :
    readLines m current (line :: rest) =
      readLines m ((lineOf line).sectionAfter current) rest := by
  rw [readLines]
  cases hl : lineOf line with
  | nothing => rfl
  | heading name => rfl
  | entry key value =>
    rw [hl] at h
    simp only [setEntry_eq, Option.map_eq_none_iff.mp h, Option.elim]
    rfl

theorem readLines_cons_of_some {s : Setting} {value : List Char}
    (h : (lineOf line).given? current = some (s, value)) :
    readLines m current (line :: rest) =
      (s.update value).bind fun u => readLines (u m) current rest := by
  rw [readLines]
  cases hl : lineOf line with
  | nothing => rw [hl] at h; cases h
  | heading name => rw [hl] at h; cases h
  | entry key value' =>
    rw [hl] at h
    obtain ⟨s', hs, he⟩ := Option.map_eq_some_iff.mp h
    cases he
    simp only [setEntry_eq, hs, Option.elim]
    cases s.update value <;> rfl

/-- What is refused does not depend on what was set before. -/
theorem refused_iff (m : Manifest) (current : List Char) (lines : List (List Char)) :
    (∃ e, readLines m current lines = .error e) ↔ Refused current lines := by
  suffices h : ∀ m m' : Manifest, (∃ e, readLines m current lines = .error e) →
      ∃ e, readLines m' current lines = .error e from ⟨h m {}, h {} m⟩
  induction lines generalizing current with
  | nil => rintro m m' ⟨e, he⟩; cases he
  | cons line rest ih =>
    rintro m m' ⟨e, he⟩
    cases hg : (lineOf line).given? current with
    | none =>
      rw [readLines_cons_of_none hg] at he ⊢
      exact ih _ m m' ⟨e, he⟩
    | some a =>
      rw [readLines_cons_of_some hg] at he ⊢
      cases hu : a.1.update a.2 with
      | error e' => exact ⟨e', rfl⟩
      | ok u =>
        rw [hu] at he
        exact ih _ (u m) (u m') ⟨e, he⟩

theorem refused_cons_of_none (h : (lineOf line).given? current = none) :
    Refused current (line :: rest) ↔ Refused ((lineOf line).sectionAfter current) rest := by
  unfold Refused
  rw [readLines_cons_of_none h]

theorem refused_cons_of_error {s : Setting} {value : List Char} {e : ConfigError}
    (h : (lineOf line).given? current = some (s, value)) (hu : s.update value = .error e) :
    Refused current (line :: rest) := by
  refine ⟨e, ?_⟩
  rw [readLines_cons_of_some h, hu]
  rfl

theorem refused_cons_of_ok {s : Setting} {value : List Char} {u : Manifest → Manifest}
    (h : (lineOf line).given? current = some (s, value)) (hu : s.update value = .ok u) :
    Refused current (line :: rest) ↔ Refused current rest := by
  rw [← refused_iff (u {}) _ rest]
  unfold Refused
  rw [readLines_cons_of_some h, hu]
  rfl

end

end Manifest
end SsaGraph
