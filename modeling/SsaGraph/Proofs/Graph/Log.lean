import Mathlib.Data.List.DropRight
import SsaGraph.Proofs.Graph.Changes
import SsaGraph.Proofs.Graph.Storage

/-!
A graph and the log of the changes that filled it.

The operators can be read off the log: each tag behind the last clearing has the
arguments that follow it, up to the next tag (`Change.operators`).  The three arrays
of the graph hold the same list (`operators_replay`), so nothing is lost or mixed up
by storing the operators flat.  An interned name keeps its index until the graph is
cleared (`Interns`).
-/

namespace SsaGraph
namespace Graph

/-! ## Logs -/

namespace Change

def clears : Change → Bool
  | clear => true
  | _ => false

/-- Whether the change starts an operator. -/
def opens : Change → Bool
  | operator _ => true
  | _ => false

/-- The argument that the change appends. -/
def argument? : Change → Option Nat
  | argument a => some a.toNat
  | _ => none

/-- The changes behind the last clearing. -/
def sinceClear (log : List Change) : List Change := log.rtakeWhile fun c => !c.clears

/-- The arguments in front of the next tag. -/
def leading (log : List Change) : List Nat := (log.takeWhile fun c => !c.opens).filterMap argument?

/-- Each tag of a log, with the arguments between it and the next one. -/
def operators : List Change → List Operator
  | [] => []
  | operator op :: log => ⟨op, leading log⟩ :: operators log
  | _ :: log => operators log

/-- Every argument has a tag in front of it, behind the last clearing. -/
def Led (log : List Change) : Prop :=
  ∀ k < log.length, (log[k]?.bind argument?).isSome = true →
    (sinceClear (log.take k)).any opens = true

instance decidableLed (log : List Change) : Decidable (Led log) :=
  inferInstanceAs (Decidable (∀ k < log.length, _ → _))

/-- The graph after a change, unless this is an argument without an operator. -/
def run? (g : Graph) : Change → Option Graph
  | argument a => g.appendArg? a.toNat
  | c => some (c.apply g)

theorem operators_ne_nil {log : List Change} (h : log.any opens = true) : operators log ≠ [] := by
  induction log with
  | nil => cases h
  | cons c log ih =>
    cases c with
    | operator op => exact List.cons_ne_nil _ _
    | _ => exact ih h

theorem Led.front {log : List Change} {c : Change} (h : Led (log ++ [c])) : Led log := by
  intro k hk hargument
  have htake : (log ++ [c]).take k = log.take k := List.take_append_of_le_length (Nat.le_of_lt hk)
  rw [← htake]
  apply h k
  · rw [List.length_append]
    omega
  · rwa [List.getElem?_append_left hk]

theorem Led.last {log : List Change} {a : UInt64} (h : Led (log ++ [argument a])) :
    (sinceClear log).any opens = true := by
  have htag := h log.length (by simp) (by simp [argument?])
  rwa [List.take_left] at htag

end Change

/-! ## Replaying -/

theorem flat_empty : empty.Flat := ⟨rfl, .nil, nofun⟩

theorem flat_apply {g : Graph} (h : g.Flat) (c : Change) : (c.apply g).Flat := by
  cases c with
  | clear => exact flat_empty
  | operator op => exact flat_pushTag h op
  | argument a => exact flat_pushArg h a.toNat
  | _ => exact ⟨h.size, h.sorted, h.bounded⟩

/-- An argument without an operator belongs to none. -/
theorem operators_pushArg_of_nil {g : Graph} (h : g.Flat) (hos : g.operators = []) (arg : Nat) :
    (g.pushArg arg).operators = [] := by
  apply List.eq_nil_of_length_eq_zero
  rw [(flat_pushArg h arg).length_operators]
  show g.tags.size = 0
  rw [← h.length_operators, hos]
  rfl

/-- What follows an operator in a log: first more arguments of it, then other operators. -/
theorem operators_replay_of_concat {g : Graph} (h : g.Flat) {os : List Operator} {op : Op}
    {args : List Nat} (hos : g.operators = os ++ [⟨op, args⟩]) {log : List Change}
    (hlog : ∀ c ∈ log, c.clears = false) :
    (log.foldl Change.apply g).operators =
      os ++ ⟨op, args ++ Change.leading log⟩ :: Change.operators log := by
  induction log generalizing g os op args with
  | nil => rw [List.foldl_nil, hos, Change.leading, List.takeWhile_nil, List.filterMap_nil,
      List.append_nil, Change.operators]
  | cons c log ih =>
    rw [List.forall_mem_cons] at hlog
    rw [List.foldl_cons]
    cases c with
    | clear => cases hlog.1
    | operator next =>
      have hnext : (g.pushTag next).operators = (os ++ [⟨op, args⟩]) ++ [⟨next, []⟩] := by
        rw [operators_pushTag h, hos]
      rw [show (Change.operator next).apply g = g.pushTag next from rfl,
        ih (flat_pushTag h next) hnext hlog.2]
      simp [Change.leading, Change.operators, Change.opens]
    | argument a =>
      rw [show (Change.argument a).apply g = g.pushArg a.toNat from rfl,
        ih (flat_pushArg h a.toNat) (operators_pushArg h hos a.toNat) hlog.2]
      simp [Change.leading, Change.operators, Change.opens, Change.argument?]
    | _ => exact ih (flat_apply h _) hos hlog.2

theorem operators_replay_of_nil {g : Graph} (h : g.Flat) (hos : g.operators = [])
    {log : List Change} (hlog : ∀ c ∈ log, c.clears = false) :
    (log.foldl Change.apply g).operators = Change.operators log := by
  induction log generalizing g with
  | nil => exact hos
  | cons c log ih =>
    rw [List.forall_mem_cons] at hlog
    rw [List.foldl_cons]
    cases c with
    | clear => cases hlog.1
    | operator op =>
      have hfirst : (g.pushTag op).operators = [] ++ [⟨op, []⟩] := by
        rw [operators_pushTag h, hos]
      exact operators_replay_of_concat (flat_pushTag h op) hfirst hlog.2
    | argument a =>
      exact ih (flat_pushArg h a.toNat) (operators_pushArg_of_nil h hos a.toNat) hlog.2
    | _ => exact ih (flat_apply h _) hos hlog.2

theorem replay_sinceClear (g : Graph) (log : List Change) :
    (Change.clear :: log).foldl Change.apply g =
      (Change.sinceClear log).foldl Change.apply empty := by
  induction log using List.reverseRecOn with
  | nil => rfl
  | append_singleton log c ih =>
    rw [← List.cons_append, List.foldl_append, ih, Change.sinceClear, Change.sinceClear]
    by_cases hc : c.clears = true
    · rw [List.rtakeWhile_concat_neg _ _ _ (by simp [hc])]
      cases c with
      | clear => rfl
      | _ => cases hc
    · rw [List.rtakeWhile_concat_pos _ _ _ (by simp [hc]), List.foldl_append]

/-- A graph holds the operators of its log. -/
theorem operators_replay (g : Graph) (log : List Change) :
    ((Change.clear :: log).foldl Change.apply g).Flat ∧
      ((Change.clear :: log).foldl Change.apply g).operators =
        Change.operators (Change.sinceClear log) := by
  rw [replay_sinceClear]
  constructor
  · generalize Change.sinceClear log = kept
    induction kept using List.reverseRecOn with
    | nil => exact flat_empty
    | append_singleton kept c ih =>
      rw [List.foldl_append]
      exact flat_apply ih c
  · apply operators_replay_of_nil flat_empty rfl
    intro c hc
    simpa using List.mem_rtakeWhile_imp hc

/-- A log in which every argument has an operator is taken as a whole. -/
theorem replay?_eq (g : Graph) {log : List Change} (hled : Change.Led log) :
    (Change.clear :: log).foldlM Change.run? g =
      some ((Change.clear :: log).foldl Change.apply g) := by
  induction log using List.reverseRecOn with
  | nil => rfl
  | append_singleton log c ih =>
    rw [← List.cons_append, List.foldlM_append, ih hled.front, List.foldl_append]
    generalize hg : (Change.clear :: log).foldl Change.apply g = g'
    show (c.run? g').bind some = some (c.apply g')
    rw [Option.bind_fun_some]
    cases c with
    | argument a =>
      obtain ⟨hflat, hops⟩ := operators_replay g log
      rw [hg] at hflat hops
      have hsize : g'.tags.isEmpty = false := by
        rw [Bool.eq_false_iff]
        intro hempty
        apply Change.operators_ne_nil hled.last
        rw [← hops]
        apply List.eq_nil_of_length_eq_zero
        rw [hflat.length_operators]
        exact Array.isEmpty_iff_size_eq_zero.mp hempty
      show (if g'.tags.isEmpty then none else some (g'.pushArg a.toNat)) = _
      rw [hsize]
      rfl
    | _ => rfl

/-- A change other than a clearing leaves the operators as they are.  An argument goes to the
last one. -/
theorem operator?_run? {g g' : Graph} (h : g.Flat) {c : Change} (hc : c.clears = false)
    (hrun : c.run? g = some g') {i : Nat} {o : Operator} (ho : g.operator? i = some o) :
    g'.operator? i =
      some ⟨o.op, o.args ++ if i + 1 = g.tags.size then c.argument?.toList else []⟩ := by
  have hlt : i < g.tags.size := by
    rw [← h.getElem?_operators] at ho
    obtain ⟨hlt, _⟩ := List.getElem?_eq_some_iff.mp ho
    rwa [h.length_operators] at hlt
  cases c with
  | clear => cases hc
  | operator op =>
    cases hrun
    have hlength := h.length_operators
    show (g.pushTag op).operator? i = _
    rw [← (flat_pushTag h op).getElem?_operators, operators_pushTag h,
      List.getElem?_append_left (by omega), h.getElem?_operators, ho]
    simp [Change.argument?]
  | argument a =>
    obtain ⟨_, hrun⟩ := Option.ite_none_left_eq_some.mp hrun
    cases hrun
    obtain ⟨os, ⟨op, args⟩, hos⟩ : ∃ os last, g.operators = os ++ [last] := by
      refine (List.eq_nil_or_concat' g.operators).resolve_left fun hnil => ?_
      have hlength := h.length_operators
      rw [hnil, List.length_nil] at hlength
      omega
    have hlength : os.length + 1 = g.tags.size := by
      rw [← h.length_operators, hos]
      simp
    rw [← h.getElem?_operators, hos] at ho
    rw [← (flat_pushArg h a.toNat).getElem?_operators, operators_pushArg h hos]
    by_cases hlast : i + 1 = g.tags.size
    · obtain rfl : i = os.length := by omega
      rw [List.getElem?_concat_length] at ho ⊢
      cases ho
      rw [if_pos hlast]
      rfl
    · rw [List.getElem?_append_left (by omega)] at ho ⊢
      rw [ho, if_neg hlast, List.append_nil]
  | _ =>
    cases hrun
    simp only [Change.argument?, Option.toList_none, ite_self, List.append_nil]
    exact ho

/-! ## Names -/

theorem idxOf?_append_of_some {names : Array String} {name : String} {i : Nat}
    (h : names.idxOf? name = some i) (more : Array String) :
    (names ++ more).idxOf? name = some i := by
  obtain ⟨names⟩ := names
  obtain ⟨more⟩ := more
  rw [List.idxOf?_toArray] at h
  rw [List.append_toArray, List.idxOf?_toArray]
  show List.findIdx? _ _ = _
  rw [List.findIdx?_append]
  show (List.idxOf? name names).or _ = _
  rw [h, Option.some_or]

theorem idxOf?_internName (names : Array String) (name : String) :
    (internName names name).1.idxOf? name = some (internName names name).2 := by
  unfold internName
  cases hi : names.idxOf? name with
  | some i => exact hi
  | none =>
    obtain ⟨names⟩ := names
    rw [List.idxOf?_toArray] at hi
    show (names.toArray.push name).idxOf? name = some names.length
    rw [List.push_toArray, List.idxOf?_toArray]
    show List.findIdx? _ _ = _
    rw [List.findIdx?_append]
    show (List.idxOf? name names).or _ = _
    rw [hi]
    simp

/-- An interned name is found again, whatever names were appended. -/
theorem internName_append (names : Array String) (name : String) (more : Array String) :
    internName ((internName names name).1 ++ more) name =
      ((internName names name).1 ++ more, (internName names name).2) := by
  have hfound := idxOf?_append_of_some (idxOf?_internName names name) more
  generalize (internName names name).1 ++ more = later at hfound ⊢
  rw [internName, hfound]

theorem internName_of_mem {names : Array String} {name : String} (h : name ∈ names) :
    (internName names name).1 = names := by
  unfold internName
  cases hi : names.idxOf? name with
  | some i => rfl
  | none => exact absurd h (Array.idxOf?_eq_none_iff.mp hi)

theorem internName_of_not_mem {names : Array String} {name : String} (h : name ∉ names) :
    internName names name = (names.push name, names.size) := by
  rw [internName, Array.idxOf?_eq_none_iff.mpr h]

/-- Names are only ever appended. -/
theorem names_apply (g : Graph) {c : Change} (hc : c.clears = false) :
    (∃ more, (c.apply g).atomicNames = g.atomicNames ++ more) ∧
      ∃ more, (c.apply g).discreteNames = g.discreteNames ++ more := by
  have hsame : ∀ names : Array String, ∃ more, names = names ++ more :=
    fun names => ⟨#[], Array.append_empty.symm⟩
  have hpush : ∀ (names : Array String) (s : String), ∃ more, names.push s = names ++ more :=
    fun names s => ⟨#[s], Array.push_eq_append⟩
  cases c with
  | clear => cases hc
  | atomicName s => exact ⟨hpush _ s, hsame _⟩
  | discreteName s => exact ⟨hsame _, hpush _ s⟩
  | _ => exact ⟨hsame _, hsame _⟩

theorem names_replay (g : Graph) {log : List Change} (hlog : ∀ c ∈ log, c.clears = false) :
    (∃ more, (log.foldl Change.apply g).atomicNames = g.atomicNames ++ more) ∧
      ∃ more, (log.foldl Change.apply g).discreteNames = g.discreteNames ++ more := by
  induction log generalizing g with
  | nil => exact ⟨⟨#[], Array.append_empty.symm⟩, ⟨#[], Array.append_empty.symm⟩⟩
  | cons c log ih =>
    rw [List.forall_mem_cons] at hlog
    obtain ⟨⟨a, ha⟩, d, hd⟩ := names_apply g hlog.1
    obtain ⟨⟨a', ha'⟩, d', hd'⟩ := ih (c.apply g) hlog.2
    exact ⟨⟨a ++ a', by rw [List.foldl_cons, ha', ha, Array.append_assoc]⟩,
      ⟨d ++ d', by rw [List.foldl_cons, hd', hd, Array.append_assoc]⟩⟩

/-- Interning a name in one of the tables of a graph. -/
structure Interns (table : Graph → Array String) (intern : Graph → String → Graph × Nat)
    (g : Graph) (name : String) : Prop where
  named : (table (intern g name).1)[(intern g name).2]? = some name
  /-- A name that is there is not appended again. -/
  known : name ∈ table g → (intern g name).1 = g
  new : name ∉ table g → table (intern g name).1 = (table g).push name ∧
    (intern g name).2 = (table g).size
  kept : ∀ {i : Nat} {old : String}, (table g)[i]? = some old → (table (intern g name).1)[i]? = some old
  /-- The index stays with the name until the graph is cleared. -/
  again : ∀ log : List Change, (∀ c ∈ log, c.clears = false) →
    intern (log.foldl Change.apply (intern g name).1) name =
      (log.foldl Change.apply (intern g name).1, (intern g name).2)
  operators : ∀ i, (intern g name).1.operator? i = g.operator? i

/-- Both tables are filled in the same way. -/
theorem interns_of_eq {table : Graph → Array String} (set : Graph → Array String → Graph)
    {intern : Graph → String → Graph × Nat}
    (hintern : ∀ g name, intern g name =
      (set g (internName (table g) name).1, (internName (table g) name).2))
    (hget : ∀ g names, table (set g names) = names) (hsame : ∀ g, set g (table g) = g)
    (hops : ∀ g names i, (set g names).operator? i = g.operator? i)
    (hgrow : ∀ (g : Graph) (log : List Change), (∀ c ∈ log, c.clears = false) →
      ∃ more, table (log.foldl Change.apply g) = table g ++ more) (g : Graph) (name : String) :
    Interns table intern g name := by
  refine ⟨?_, fun h => ?_, fun h => ?_, fun {i old} h => ?_, fun log hlog => ?_, fun i => ?_⟩
  · rw [hintern, hget]
    exact internName_getElem? (table g) name
  · rw [hintern, internName_of_mem h, hsame]
  · rw [hintern, hget, internName_of_not_mem h]
    exact ⟨rfl, rfl⟩
  · rw [hintern, hget]
    exact internName_of_getElem? h name
  · rw [hintern g]
    obtain ⟨more, hmore⟩ := hgrow (set g (internName (table g) name).1) log hlog
    rw [hget] at hmore
    rw [hintern, hmore, internName_append, ← hmore, hsame]
  · rw [hintern, hops]

theorem interns_atomic (g : Graph) (name : String) :
    Interns Graph.atomicNames internAtomic g name :=
  interns_of_eq (fun g names => { g with atomicNames := names }) internAtomic_eq
    (fun _ _ => rfl) (fun _ => rfl) (fun _ _ _ => rfl) (fun g _ hlog => (names_replay g hlog).1)
    g name

theorem interns_discrete (g : Graph) (name : String) :
    Interns Graph.discreteNames internDiscrete g name :=
  interns_of_eq (fun g names => { g with discreteNames := names }) internDiscrete_eq
    (fun _ _ => rfl) (fun _ => rfl) (fun _ _ _ => rfl) (fun g _ hlog => (names_replay g hlog).2)
    g name

/-! ## The list behind the arrays -/

/-- A graph that is filled from clear holds exactly the operators of its log, each with its own
arguments; a later change leaves them alone but for an argument of the last one, and interned
names keep their index. -/
theorem operators_of_log (g : Graph) {log : List Change} (hled : Change.Led log) :
    ∃ g', (Change.clear :: log).foldlM Change.run? g = some g' ∧ g'.Flat ∧
      (∀ i, (g'.operator? i).isSome ↔ i < g'.tags.size) ∧
      (∀ i, g'.operator? i = (Change.operators (Change.sinceClear log))[i]?) ∧
      (∀ (c : Change) (g'' : Graph), c.clears = false → c.run? g' = some g'' →
        ∀ i o, g'.operator? i = some o → g''.operator? i =
          some ⟨o.op, o.args ++ if i + 1 = g'.tags.size then c.argument?.toList else []⟩) ∧
      ∀ name, Interns Graph.atomicNames internAtomic g' name ∧
        Interns Graph.discreteNames internDiscrete g' name := by
  obtain ⟨hflat, hops⟩ := operators_replay g log
  refine ⟨_, replay?_eq g hled, hflat, fun i => ?_, fun i => ?_, ?_, ?_⟩
  · rw [← hflat.getElem?_operators, ← hflat.length_operators, isSome_getElem?]
  · rw [← hflat.getElem?_operators, hops]
  · intro c g'' hc hrun i o ho
    exact operator?_run? hflat hc hrun ho
  · exact fun name => ⟨interns_atomic _ name, interns_discrete _ name⟩

/-- A cleared operator, and behind it four of which two take no argument. -/
def Change.cleared : List Change :=
  [.operator .add, .argument 7, .clear, .discreteName "step", .operator .mul, .argument 1,
    .constant ⟨0⟩, .argument 3, .operator .compLt, .dependent 4, .operator .neg, .name "f",
    .operator .atom, .argument 0, .argument 2]

theorem operators_of_log_cleared :
    Change.Led Change.cleared ∧ ∃ g,
      (Change.clear :: Change.cleared).foldlM Change.run? empty = some g ∧ g.Flat ∧
      g.operator? 0 = some ⟨.mul, [1, 3]⟩ ∧ g.operator? 1 = some ⟨.compLt, []⟩ ∧
      g.operator? 2 = some ⟨.neg, []⟩ ∧ g.operator? 3 = some ⟨.atom, [0, 2]⟩ ∧
      g.operator? 4 = none ∧ (g.internDiscrete "step").1 = g := by
  have hled : Change.Led Change.cleared := by decide
  obtain ⟨g, hg, hflat, _, hops, _, hnames⟩ := operators_of_log empty hled
  refine ⟨hled, g, hg, hflat, hops 0, hops 1, hops 2, hops 3, hops 4, (hnames "step").2.known ?_⟩
  rw [replay?_eq empty hled] at hg
  cases hg
  exact List.mem_toArray.mpr (List.mem_singleton_self "step")

end Graph
end SsaGraph
