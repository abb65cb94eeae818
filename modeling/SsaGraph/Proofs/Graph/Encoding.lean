import SsaGraph.Graph.Fingerprint
import SsaGraph.Proofs.Graph.Changes

/-!
What is hashed determines the graph.  Each part of the encoding ends at a place that its
own bytes show, whatever follows it (`Delimits`), and each section ends where no further
entry with its tag starts (`delimits_section`).  So equal encodings are cut at the same
places and hold equal parts.
-/

namespace SsaGraph
namespace Graph

/-- From what starts with the encoding of a value, the value and the rest can be told. -/
def Delimits {α : Type} (p : α → Prop) (encode : α → List UInt8) : Prop :=
  ∀ {a b : α}, p a → p b → ∀ {rest rest' : List UInt8},
    encode a ++ rest = encode b ++ rest' → a = b ∧ rest = rest'

/-- Encodings of one length are told apart if they differ. -/
theorem delimits_of_length {α : Type} {p : α → Prop} {encode : α → List UInt8} {n : Nat}
    (hlength : ∀ a, (encode a).length = n)
    (hinj : ∀ {a b}, p a → p b → encode a = encode b → a = b) : Delimits p encode := by
  intro a b ha hb rest rest' h
  obtain ⟨hencode, hrest⟩ := List.append_inj h ((hlength a).trans (hlength b).symm)
  exact ⟨hinj ha hb hencode, hrest⟩

/-! ## Counts -/

theorem length_littleEndian (width n : Nat) : (littleEndian width n).length = width := by
  induction width generalizing n with
  | zero => rfl
  | succ width ih => rw [littleEndian, List.length_cons, ih]

theorem littleEndian_inj {width n m : Nat} (hn : n < Nat.pow 256 width)
    (hm : m < Nat.pow 256 width) (h : littleEndian width n = littleEndian width m) : n = m := by
  induction width generalizing n m with
  | zero =>
    have hn : n < 1 := hn
    have hm : m < 1 := hm
    omega
  | succ width ih =>
    have hpow : Nat.pow 256 (width + 1) = Nat.pow 256 width * 256 := rfl
    rw [hpow] at hn hm
    obtain ⟨hlow, hhigh⟩ := List.cons.inj h
    have hdiv := ih (Nat.div_lt_of_lt_mul (by omega)) (Nat.div_lt_of_lt_mul (by omega)) hhigh
    have hmod : n % 256 = m % 256 := by
      have hbytes := congrArg UInt8.toNat hlow
      rw [UInt8.toNat_ofNat', UInt8.toNat_ofNat'] at hbytes
      omega
    omega

theorem delimits_count : Delimits (· < 1 <<< 64) encodeCount :=
  delimits_of_length (length_littleEndian 8) littleEndian_inj

/-- Counts without their number.  The number has to be known. -/
theorem delimits_counts {as bs : List Nat} (hlength : as.length = bs.length)
    (has : ∀ a ∈ as, a < 1 <<< 64) (hbs : ∀ b ∈ bs, b < 1 <<< 64) {rest rest' : List UInt8}
    (h : as.flatMap encodeCount ++ rest = bs.flatMap encodeCount ++ rest') :
    as = bs ∧ rest = rest' := by
  induction as generalizing bs with
  | nil =>
    rw [List.length_nil, eq_comm, List.length_eq_zero_iff] at hlength
    subst hlength
    exact ⟨rfl, h⟩
  | cons a as ih =>
    obtain ⟨b, bs, rfl⟩ := List.exists_cons_of_length_eq_add_one hlength.symm
    have hfirst := List.forall_mem_cons.mp has
    have hfirst' := List.forall_mem_cons.mp hbs
    rw [List.flatMap_cons, List.flatMap_cons, List.append_assoc, List.append_assoc] at h
    obtain ⟨rfl, hlater⟩ := delimits_count hfirst.1 hfirst'.1 h
    obtain ⟨rfl, hend⟩ := ih (Nat.succ.inj hlength) hfirst.2 hfirst'.2 hlater
    exact ⟨rfl, hend⟩

/-! ## Texts and operators -/

theorem delimits_text : Delimits (fun s => s.utf8ByteSize < 1 <<< 64) encodeText := by
  intro s t hs ht rest rest' h
  rw [encodeText, encodeText, List.append_assoc, List.append_assoc] at h
  obtain ⟨hsize, h⟩ := delimits_count hs ht h
  obtain ⟨hbytes, h⟩ := List.append_inj h hsize
  refine ⟨String.toByteArray_inj.mp (ByteArray.ext (Array.toList_inj.mp hbytes)), h⟩

theorem code_inj {op op' : Op} (h : UInt8.ofNat op.code = UInt8.ofNat op'.code) : op = op' := by
  have hlt : ∀ op : Op, op.code < 256 := by
    intro op
    have hcode := (List.getElem?_eq_some_iff.mp op.getElem?_code).1
    exact Nat.lt_of_lt_of_le hcode (by decide)
  have hcode : op.code = op'.code := by
    have hbytes := congrArg UInt8.toNat h
    rw [UInt8.toNat_ofNat', UInt8.toNat_ofNat'] at hbytes
    have hop := hlt op
    have hop' := hlt op'
    omega
  have hop := op.getElem?_code
  rw [hcode, op'.getElem?_code] at hop
  exact (Option.some.inj hop).symm

/-- The arguments of an operator are words, and can be counted in one. -/
def WordArgs (o : Operator) : Prop := o.args.length < 1 <<< 64 ∧ ∀ a ∈ o.args, a < 1 <<< 64

/-- An operator behind its tag. -/
def operatorBody (o : Operator) : List UInt8 :=
  UInt8.ofNat o.op.code :: encodeCount o.args.length ++ o.args.flatMap encodeCount

theorem delimits_operatorBody : Delimits WordArgs operatorBody := by
  intro o o' ho ho' rest rest' h
  obtain ⟨hcode, hargs⟩ := List.cons.inj h
  have hargs : encodeCount o.args.length ++ o.args.flatMap encodeCount ++ rest =
      encodeCount o'.args.length ++ o'.args.flatMap encodeCount ++ rest' := hargs
  rw [List.append_assoc, List.append_assoc] at hargs
  obtain ⟨hcount, hargs⟩ := delimits_count ho.1 ho'.1 hargs
  obtain ⟨hargs, hend⟩ := delimits_counts hcount ho.2 ho'.2 hargs
  cases o
  cases o'
  exact ⟨congr (congrArg Operator.mk (code_inj hcode)) hargs, hend⟩

theorem delimits_constant :
    Delimits (fun _ => True) fun x : Binary64 => encodeCount x.bits.toNat := by
  refine @delimits_of_length Binary64 (fun _ => True) (fun x => encodeCount x.bits.toNat) 8
    (fun x => length_littleEndian 8 x.bits.toNat) ?_
  intro x y _ _ h
  have hbits := littleEndian_inj x.bits.toNat_lt y.bits.toNat_lt h
  cases x
  cases y
  exact congrArg Binary64.mk (UInt64.toNat_inj.mp hbits)

/-! ## Sections -/

/-- Nothing follows, or something with a larger tag. -/
def Above (tag : UInt8) (bytes : List UInt8) : Prop := ∀ t later, bytes = t :: later → tag < t

/-- A section ends where no entry with its tag starts. -/
theorem delimits_section {α : Type} {p : α → Prop} {encode : α → List UInt8} {tag : UInt8}
    (hencode : Delimits p encode) {as bs : List α} (has : ∀ a ∈ as, p a) (hbs : ∀ b ∈ bs, p b)
    {rest rest' : List UInt8} (hrest : Above tag rest) (hrest' : Above tag rest')
    (h : as.flatMap (fun a => tag :: encode a) ++ rest =
      bs.flatMap (fun b => tag :: encode b) ++ rest') : as = bs ∧ rest = rest' := by
  induction as generalizing bs with
  | nil =>
    cases bs with
    | nil => exact ⟨rfl, h⟩
    | cons b bs => exact absurd (hrest _ _ h) (UInt8.lt_irrefl tag)
  | cons a as ih =>
    cases bs with
    | nil => exact absurd (hrest' _ _ h.symm) (UInt8.lt_irrefl tag)
    | cons b bs =>
      have hfirst := List.forall_mem_cons.mp has
      have hfirst' := List.forall_mem_cons.mp hbs
      rw [List.flatMap_cons, List.flatMap_cons, List.append_assoc, List.append_assoc] at h
      obtain ⟨rfl, hlater⟩ := hencode hfirst.1 hfirst'.1 (List.cons.inj h).2
      obtain ⟨rfl, hend⟩ := ih hfirst.2 hfirst'.2 hlater
      exact ⟨rfl, hend⟩

theorem above_nil (tag : UInt8) : Above tag [] := by
  intro t later h
  cases h

theorem above_section {α : Type} {encode : α → List UInt8} {tag tag' : UInt8} (hlt : tag < tag')
    (as : List α) {rest : List UInt8} (hrest : Above tag' rest) :
    Above tag (as.flatMap (fun a => tag' :: encode a) ++ rest) := by
  intro t later h
  cases as with
  | nil => exact UInt8.lt_trans hlt (hrest t later h)
  | cons a as =>
    rw [← (List.cons.inj h).1]
    exact hlt

/-! ## Graphs -/

/-- Texts and the list of arguments have lengths that are 64-bit words. -/
structure InMemory (g : Graph) : Prop where
  name : g.name.utf8ByteSize < 1 <<< 64
  args : g.args.size < 1 <<< 64
  atomicNames : ∀ s ∈ g.atomicNames.toList, s.utf8ByteSize < 1 <<< 64
  discreteNames : ∀ s ∈ g.discreteNames.toList, s.utf8ByteSize < 1 <<< 64

/-- The arguments of an operator are among those of the graph. -/
theorem wordArgs_of_mem_operators {g : Graph} (hwords : g.InWords)
    (hsize : g.args.size < 1 <<< 64) :
    ∀ o ∈ g.operators, WordArgs o := by
  intro o ho
  obtain ⟨index, _, hindex⟩ := List.mem_filterMap.mp ho
  rw [operator?, Option.bind_eq_bind, Option.bind_eq_some_iff] at hindex
  obtain ⟨op, _, hindex⟩ := hindex
  obtain ⟨start, _, hindex⟩ := Option.bind_eq_some_iff.mp hindex
  obtain ⟨as, has, ho⟩ := Option.bind_eq_some_iff.mp hindex
  cases ho
  rw [slice?] at has
  split at has
  next =>
    cases has
    constructor
    · simp only [Array.length_toList, Array.size_extract]
      omega
    · intro a ha
      refine hwords.args a ?_
      rw [Array.toList_extract, List.extract_eq_take_drop] at ha
      exact List.mem_of_mem_drop (List.mem_of_mem_take ha)
  · cases has

section
variable (g : Graph)

/-- The section of the dependents. -/
def dependentBytes : List UInt8 := g.dependents.toList.flatMap (fun n => 6 :: encodeCount n) ++ []

/-- The section of the discrete names and what is behind it, and so on. -/
def discreteBytes : List UInt8 :=
  g.discreteNames.toList.flatMap (fun s => 5 :: encodeText s) ++ g.dependentBytes

def atomicBytes : List UInt8 :=
  g.atomicNames.toList.flatMap (fun s => 4 :: encodeText s) ++ g.discreteBytes

def operatorBytes : List UInt8 :=
  g.operators.flatMap (fun o => 3 :: operatorBody o) ++ g.atomicBytes

def constantBytes : List UInt8 :=
  g.constants.toList.flatMap (fun x => 2 :: encodeCount x.bits.toNat) ++ g.operatorBytes

theorem above_dependentBytes : Above 5 g.dependentBytes := above_section (by decide) _ (above_nil 6)

theorem above_discreteBytes : Above 4 g.discreteBytes :=
  above_section (by decide) _ g.above_dependentBytes

theorem above_atomicBytes : Above 3 g.atomicBytes :=
  above_section (by decide) _ g.above_discreteBytes

theorem above_operatorBytes : Above 2 g.operatorBytes :=
  above_section (by decide) _ g.above_atomicBytes

theorem encoding_eq : g.encoding =
    1 :: (encodeText g.name ++ (encodeCount g.dynamics ++
      (encodeCount g.independents ++ g.constantBytes))) := by
  have hoperators : g.operators.flatMap encodeOperator =
      g.operators.flatMap (fun o => 3 :: operatorBody o) := rfl
  simp only [encoding, constantBytes, operatorBytes, atomicBytes, discreteBytes, dependentBytes,
    hoperators, List.cons_append, List.append_assoc, List.append_nil]

end

/-- Graphs with the same encoding, whether filled or read, show the same content: no
two contents are hashed from the same bytes. -/
theorem content_of_encoding_eq {g h : Graph} (hg : Built g) (hh : Built h) (hgsize : g.InMemory)
    (hhsize : h.InMemory) (heq : g.encoding = h.encoding) :
    g.name = h.name ∧ g.dynamics = h.dynamics ∧ g.independents = h.independents ∧
      g.constants = h.constants ∧ g.operators = h.operators ∧ g.atomicNames = h.atomicNames ∧
      g.discreteNames = h.discreteNames ∧ g.dependents = h.dependents := by
  have hgwords := hg.inWords
  have hhwords := hh.inWords
  rw [encoding_eq, encoding_eq] at heq
  obtain ⟨hname, heq⟩ := delimits_text hgsize.name hhsize.name (List.cons.inj heq).2
  obtain ⟨hdynamics, heq⟩ := delimits_count hgwords.dynamics hhwords.dynamics heq
  obtain ⟨hindependents, heq⟩ := delimits_count hgwords.independents hhwords.independents heq
  -- The sections come in the order of their tags, so each ends before the next one.
  obtain ⟨hconstants, heq⟩ := delimits_section delimits_constant (fun _ _ => trivial)
    (fun _ _ => trivial) g.above_operatorBytes h.above_operatorBytes heq
  obtain ⟨hoperators, heq⟩ := delimits_section delimits_operatorBody
    (wordArgs_of_mem_operators hgwords hgsize.args) (wordArgs_of_mem_operators hhwords hhsize.args)
    g.above_atomicBytes h.above_atomicBytes heq
  obtain ⟨hatomicNames, heq⟩ := delimits_section delimits_text hgsize.atomicNames
    hhsize.atomicNames g.above_discreteBytes h.above_discreteBytes heq
  obtain ⟨hdiscreteNames, heq⟩ := delimits_section delimits_text hgsize.discreteNames
    hhsize.discreteNames g.above_dependentBytes h.above_dependentBytes heq
  obtain ⟨hdependents, _⟩ := delimits_section delimits_count hgwords.dependents
    hhwords.dependents (above_nil 6) (above_nil 6) heq
  exact ⟨hname, hdynamics, hindependents, Array.toList_inj.mp hconstants, hoperators,
    Array.toList_inj.mp hatomicNames, Array.toList_inj.mp hdiscreteNames,
    Array.toList_inj.mp hdependents⟩

/-- The changes that make the negation of a variable; the first argument comes before any
operator and belongs to none. -/
def strayArgument : Graph :=
  [Change.argument 9, .name "f", .independents 1, .operator .neg, .argument 1,
    .dependent 2].foldl Change.apply empty

/-- The same graph without the first argument, as a document. -/
def negationDocument : String :=
  "\x7b\"function_name\":\"f\",\"n_dynamic_ind\":0,\"n_variable_ind\":1,\"constants\":[]," ++
    "\"operators\":[\"neg\"],\"arg_start\":[0],\"operator_args\":[1],\"atomic_names\":[]," ++
    "\"discrete_names\":[],\"dependents\":[2]\x7d"

theorem content_of_encoding_eq_strayArgument :
    ∃ g, ofDocument negationDocument = .ok g ∧ g ≠ strayArgument ∧
      strayArgument.operators = g.operators ∧ strayArgument.dependents = g.dependents := by
  let g : Graph := ⟨"f", 0, 1, #[], #[.neg], #[0], #[1], #[], #[], #[2]⟩
  have hread : ofDocument negationDocument = .ok g := by decide +kernel
  have hbuilt : Built strayArgument :=
    (((((Built.empty.change (.argument 9)).change (.name "f")).change (.independents 1)).change
      (.operator .neg)).change (.argument 1)).change (.dependent 2)
  have hcontent := content_of_encoding_eq hbuilt (.read hread)
    ⟨by decide, by decide, by decide, by decide⟩ ⟨by decide, by decide, by decide, by decide⟩
    (by decide)
  exact ⟨g, hread, by decide, hcontent.2.2.2.2.1, hcontent.2.2.2.2.2.2.2⟩

end Graph
end SsaGraph
