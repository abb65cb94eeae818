import SsaGraph.Proofs.Graph.Changes
import SsaGraph.Proofs.Graph.Storage
import SsaGraph.Proofs.Json.Codec
import SsaGraph.Proofs.Lowering.NodeOrder

/-!
Documents of graphs can be read, with any faithful codec.  Everything but the constants is read
back in any case, and a constant is read back exactly when its own text is.
-/

namespace SsaGraph

namespace Codec.Faithful

variable {c : Codec} (hc : c.Faithful)
include hc

theorem op?_tag (op : Op) : (c.rereadScalar? (.tag op.name) >>= c.op?) = some op := by
  obtain ⟨v, hv, hname⟩ := Option.bind_eq_some_iff.mp (hc.tag op.name)
  rw [hv, Option.bind_eq_bind, Option.bind_some, op?, hname]
  exact Op.ofName?_name op

/-- A document is read as what its fields are read as. -/
theorem graph?_document_eq (g : Graph) : c.graph? (c.document g) =
    (g.fieldValues.mapM fun v => c.reread? (.value v)).bind c.ofFields? := by
  have hnames : (Graph.fieldNames.zip g.fieldValues).map Prod.fst = Graph.fieldNames := rfl
  have hvalues : (Graph.fieldNames.zip g.fieldValues).map Prod.snd = g.fieldValues := rfl
  have hrecord := hc.record (Graph.fieldNames.zip g.fieldValues) (by rw [hnames]; decide)
  rw [hnames] at hrecord
  rw [← hvalues, List.mapM_map, Function.comp_def, ← hrecord, Option.bind_eq_bind, Option.bind_assoc]
  rfl

/-- Reading a document reads its constants one by one. -/
theorem graph?_document {g : Graph} (hwords : g.InWords)
    (hstarts : ∀ n ∈ g.starts.toList, n < 1 <<< 64) : c.graph? (c.document g) =
      (g.constants.toList.mapM c.rereadNumber?).map fun xs => { g with constants := xs.toArray } := by
  have htexts : ∀ as : Array String, ∃ v, c.reread? (.value (.list (as.toList.map .text))) = some v ∧
      c.array? c.text? v = some as := fun _ => hc.exists_array fun s _ => hc.text s
  have hcounts : ∀ as : Array Nat, (∀ n ∈ as.toList, n < 1 <<< 64) →
      ∃ v, c.reread? (.value (.list (as.toList.map .count))) = some v ∧
        c.array? c.count? v = some as := fun _ h => hc.exists_array fun n hn => hc.count n (h n hn)
  obtain ⟨name, hname, hname'⟩ := Option.bind_eq_some_iff.mp (hc.text g.name)
  obtain ⟨dynamics, hdynamics, hdynamics'⟩ :=
    Option.bind_eq_some_iff.mp (hc.count g.dynamics hwords.dynamics)
  obtain ⟨independents, hindependents, hindependents'⟩ :=
    Option.bind_eq_some_iff.mp (hc.count g.independents hwords.independents)
  obtain ⟨tags, htags, htags'⟩ : ∃ v,
      c.reread? (.value (.list (g.tags.toList.map fun op => .tag op.name))) = some v ∧
        c.array? c.op? v = some g.tags := hc.exists_array fun op _ => hc.op?_tag op
  obtain ⟨starts, hstarts, hstarts'⟩ := hcounts g.starts hstarts
  obtain ⟨args, hargs, hargs'⟩ := hcounts g.args hwords.args
  obtain ⟨atomicNames, hatomic, hatomic'⟩ := htexts g.atomicNames
  obtain ⟨discreteNames, hdiscrete, hdiscrete'⟩ := htexts g.discreteNames
  obtain ⟨dependents, hdependents, hdependents'⟩ := hcounts g.dependents hwords.dependents
  have hconstants : (c.reread? (.value (.list (g.constants.toList.map .number))) >>=
      c.array? c.number?) = (g.constants.toList.mapM c.rereadNumber?).map List.toArray :=
    hc.array?_list c.number? .number g.constants.toList
  unfold rereadScalar? at hname hdynamics hindependents
  rw [hc.graph?_document_eq]
  simp only [Graph.fieldValues, List.mapM_cons, List.mapM_nil, hname, hdynamics, hindependents, htags,
    hstarts, hargs, hatomic, hdiscrete, hdependents, Option.bind_eq_bind, Option.bind_some,
    Option.pure_def]
  cases hv : c.reread? (.value (.list (g.constants.toList.map .number))) with
  | none =>
    rw [hv] at hconstants
    rw [Option.map_eq_none_iff.mp hconstants.symm]
    rfl
  | some v =>
    rw [hv, Option.bind_eq_bind, Option.bind_some] at hconstants
    simp only [Option.bind_some, ofFields?, hname', hdynamics', hindependents', hconstants, htags',
      hstarts', hargs', hatomic', hdiscrete', hdependents', Option.bind_eq_bind, Option.pure_def]
    cases g.constants.toList.mapM c.rereadNumber? <;> rfl

end Codec.Faithful

namespace Graph

/-! ## Round trips -/

theorem check_of_lower {f : Func} {c : Context} {g : Graph} (h : f.lower c = .ok g) :
    g.check = .ok () := by
  obtain ⟨_, _, _, hp, hs, hg⟩ := Func.lower_eq_ok.mp h
  exact ((Lowering.inOrder_before hp (Nat.le_refl _) hs).finish hg).layout

/-- Offsets are no larger than the number of arguments. -/
theorem starts_lt_of_check {g : Graph} (h : g.check = .ok ()) (hsize : g.args.size < 1 <<< 64) :
    ∀ n ∈ g.starts.toList, n < 1 <<< 64 := by
  intro n hn
  have hle := (check_eq_ok_iff.mp h).1.bounded n hn
  omega

/-- The document of a graph is read back as that graph exactly if the text of each
constant is read back, bit for bit.  A constant that is not finite has no such text, and
then the document is no document of a graph at all. -/
theorem ofDocument_document_iff {codec : Codec} (hcodec : codec.Faithful) {g : Graph}
    (h : g.check = .ok () ∨ ∃ (f : Func) (c : Context), f.lower c = .ok g) (hwords : g.InWords)
    (hsize : g.args.size < 1 <<< 64) :
    (codec.ofDocument (codec.document g) = .ok g ↔
        ∀ x ∈ g.constants.toList, codec.rereadNumber? x = some x) ∧
      ((∃ x ∈ g.constants.toList, x.isFinite = false) →
        codec.ofDocument (codec.document g) = .error .json) := by
  have hcheck : g.check = .ok () := by
    rcases h with h | ⟨f, c, h⟩
    · exact h
    · exact check_of_lower h
  have hread := hcodec.graph?_document hwords (starts_lt_of_check hcheck hsize)
  constructor
  · rw [Codec.ofDocument_eq_ok_iff, hread, Option.map_eq_some_iff]
    constructor
    · rintro ⟨⟨xs, hxs, hg⟩, _⟩
      have hconstants : xs = g.constants.toList := by
        have heq : xs.toArray = g.constants := congrArg Graph.constants hg
        rw [← heq]
      rw [hconstants, mapM_eq_some_iff, List.forall₂_same] at hxs
      exact hxs
    · intro hall
      refine ⟨⟨g.constants.toList, ?_, rfl⟩, hcheck⟩
      rw [mapM_eq_some_iff, List.forall₂_same]
      exact hall
  · rintro ⟨x, hx, hfinite⟩
    rw [mapM_eq_none hx (hcodec.rereadNumber?_of_not_finite hfinite)] at hread
    rw [Codec.ofDocument, hread]
    rfl

/-- A call and a product with a constant.  The names need escapes. -/
def escapedNames : Graph where
  name := "a\"b\\\n\x01😀"
  dynamics := 1
  independents := 2
  constants := #[⟨0x3FE0000000000000⟩]
  tags := #[.atom, .mul]
  starts := #[0, 4]
  args := #[0, 1, 1, 3, 5, 4]
  atomicNames := #["é\t"]
  discreteNames := #[]
  dependents := #[6]

theorem ofDocument_document_escapedNames :
    ofDocument escapedNames.document = .ok escapedNames ∧
      ofDocument (escapedNames.pushConstant ⟨0x7FF0000000000000⟩).document = .error .json := by
  have hwords : ∀ x, (escapedNames.pushConstant x).InWords := by
    intro x
    constructor <;> simp [escapedNames, pushConstant]
  have hhalf : ∀ x ∈ escapedNames.constants.toList, Json.codec.rereadNumber? x = some x := by
    decide +kernel
  refine ⟨(ofDocument_document_iff Json.codec_faithful (.inl (by decide +kernel)) ?_
    (by decide)).1.mpr hhalf, ?_⟩
  · constructor <;> decide +kernel
  · exact (ofDocument_document_iff Json.codec_faithful (.inl (by decide +kernel)) (hwords _)
      (by decide)).2 ⟨⟨0x7FF0000000000000⟩, by simp [pushConstant], by decide⟩

end Graph
end SsaGraph
