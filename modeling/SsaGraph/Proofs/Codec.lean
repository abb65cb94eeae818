import SsaGraph.Codec
import SsaGraph.Proofs.Lists

/-!
What is relied on about a library that writes and reads documents (`Codec.Faithful`).  Texts,
words and tags are read back.  A list or a record is read back part by part, and each part is
read as if it stood alone.  About numbers nothing is known but that those which are not finite
are `null`, which is no number.
-/

namespace SsaGraph
namespace Codec

/-- What a document is read as. -/
def reread? (c : Codec) (d : Document) : Option c.Value := c.read? (c.write d)

def rereadScalar? (c : Codec) (s : Scalar) : Option c.Value := c.reread? (.value (.scalar s))

/-- What the text of a number is read as, as a number. -/
def rereadNumber? (c : Codec) (x : Binary64) : Option Binary64 :=
  c.rereadScalar? (.number x) >>= c.number?

/-- The documented behaviour of a library. -/
structure Faithful (c : Codec) : Prop where
  text : ∀ s, (c.rereadScalar? (.text s) >>= c.text?) = some s
  count : ∀ n < 1 <<< 64, (c.rereadScalar? (.count n) >>= c.count?) = some n
  tag : ∀ name, (c.rereadScalar? (.tag name) >>= c.tag?) = some name
  /-- A list is not read if one of its items is not. -/
  list : ∀ items, (c.reread? (.value (.list items)) >>= c.list?) = items.mapM c.rereadScalar?
  /-- Fields are found by their names. -/
  record : ∀ fields : List (String × FieldValue), (fields.map Prod.fst).Nodup →
    (c.reread? (.record fields) >>= c.record? (fields.map Prod.fst)) =
      fields.mapM fun f => c.reread? (.value f.2)
  notFinite : ∀ x : Binary64, x.isFinite = false → c.write (.value (.scalar (.number x))) = "null"
  null : (c.read? "null" >>= c.number?) = none

namespace Faithful

variable {c : Codec} (hc : c.Faithful)
include hc

theorem rereadNumber?_of_not_finite {x : Binary64} (h : x.isFinite = false) :
    c.rereadNumber? x = none := by
  rw [rereadNumber?, rereadScalar?, reread?, hc.notFinite x h]
  exact hc.null

/-- A list is read as what its items are read as. -/
theorem array?_list {α : Type} (read : c.Value → Option α) (item : α → Scalar) (as : List α) :
    (c.reread? (.value (.list (as.map item))) >>= c.array? read) =
      (as.mapM fun a => c.rereadScalar? (item a) >>= read).map List.toArray := by
  have hlist := hc.list (as.map item)
  rw [List.mapM_map] at hlist
  rw [← mapM_bind, ← Option.bind_eq_bind, ← Function.comp_def, ← hlist]
  cases c.reread? (.value (.list (as.map item))) with
  | none => rfl
  | some v =>
    show (c.list? v).bind _ = ((c.list? v).bind _).map _
    cases c.list? v <;> rfl

/-- A list whose items are read back is read back. -/
theorem exists_array {α : Type} {read : c.Value → Option α} {item : α → Scalar} {as : Array α}
    (h : ∀ a ∈ as.toList, (c.rereadScalar? (item a) >>= read) = some a) :
    ∃ v, c.reread? (.value (.list (as.toList.map item))) = some v ∧
      c.array? read v = some as := by
  have hall : (as.toList.mapM fun a => c.rereadScalar? (item a) >>= read) = some as.toList := by
    rw [mapM_eq_some_iff, List.forall₂_same]
    exact h
  have hlist := hc.array?_list read item as.toList
  rw [hall] at hlist
  exact Option.bind_eq_some_iff.mp hlist

end Faithful
end Codec
end SsaGraph
