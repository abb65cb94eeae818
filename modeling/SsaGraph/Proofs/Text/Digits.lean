import SsaGraph.Proofs.Lists
import SsaGraph.Text.Digits

/-!
Numerals that are written can be read.  A count in decimal has no leading zero, and
a number padded to a fixed width in hexadecimal keeps its value.
-/

namespace SsaGraph
namespace Digits

/-! ## Decimal -/

theorem isDigit_of_mem_toDigits {n : Nat} {c : Char} (h : c ∈ Nat.toDigits 10 n) :
    c.isDigit = true :=
  Nat.isDigit_of_mem_toDigits (by decide) (by decide) h

theorem digit_digitChar {d : Nat} (h : d < 10) : digit d.digitChar = d := by
  have hall : ∀ d : Fin 10, digit (Nat.digitChar d) = d := by decide
  exact hall ⟨d, h⟩

theorem value_toDigits (n : Nat) : value 10 (Nat.toDigits 10 n) = n := by
  induction n using Nat.strongRecOn with
  | ind n ih =>
    by_cases h : n < 10
    · rw [Nat.toDigits_of_lt_base h]
      simp [value, digit_digitChar h]
    · have hlt : n % 10 < 10 := Nat.mod_lt n (by decide)
      rw [Nat.toDigits_of_base_le (by decide) (Nat.le_of_not_lt h), value_append,
        ih (n / 10) (by omega), digit_digitChar hlt]
      omega

theorem natBelow?_toDigits {n limit : Nat} (h : n < limit) :
    natBelow? limit (Nat.toDigits 10 n) = some n := by
  have hall : (Nat.toDigits 10 n).all Char.isDigit = true :=
    List.all_eq_true.mpr fun c hc => isDigit_of_mem_toDigits hc
  rw [natBelow?, value_toDigits, if_pos ⟨Nat.toDigits_ne_nil, hall, h⟩]

theorem signedBelow?_toDigits {n limit : Nat} (h : n < limit) :
    signedBelow? limit (Nat.toDigits 10 n) = some n := by
  unfold signedBelow?
  split
  next cs hcs =>
    have hsign : '+'.isDigit = true := isDigit_of_mem_toDigits (hcs ▸ List.mem_cons_self)
    exact absurd hsign (by decide)
  · exact natBelow?_toDigits h

theorem head?_toDigits_ne_zero {n : Nat} (h : 0 < n) :
    (Nat.toDigits 10 n).head? ≠ some '0' := by
  induction n using Nat.strongRecOn with
  | ind n ih =>
    by_cases hlt : n < 10
    · have hall : ∀ d : Fin 10, 0 < d.val → Nat.digitChar d ≠ '0' := by decide
      rw [Nat.toDigits_of_lt_base hlt, List.head?_cons]
      exact fun e => hall ⟨n, hlt⟩ h (Option.some.inj e)
    · have hrest := ih (n / 10) (by omega) (by omega)
      rw [Nat.toDigits_of_base_le (by decide) (Nat.le_of_not_lt hlt)]
      rwa [List.head?_append_of_ne_nil _ Nat.toDigits_ne_nil]

/-- Only the numeral of zero starts with a zero. -/
theorem length_of_head?_toDigits {n : Nat} (h : (Nat.toDigits 10 n).head? = some '0') :
    (Nat.toDigits 10 n).length = 1 := by
  rcases Nat.eq_zero_or_pos n with rfl | hpos
  · rfl
  · exact absurd h (head?_toDigits_ne_zero hpos)

/-! ## Hexadecimal -/

theorem digit_hexDigit {d : Nat} (h : d < 16) : digit (hexDigit d) = d := by
  have hall : ∀ d : Fin 16, digit (hexDigit d) = d := by decide
  exact hall ⟨d, h⟩

theorem isHex_hexDigit {d : Nat} (h : d < 16) : isHex (hexDigit d) = true := by
  have hall : ∀ d : Fin 16, isHex (hexDigit d) = true := by decide
  exact hall ⟨d, h⟩

theorem length_hex (width n : Nat) : (hex width n).length = width := by
  induction width generalizing n with
  | zero => rfl
  | succ width ih => rw [hex, List.length_append, ih, List.length_singleton]

theorem isHex_of_mem_hex {width n : Nat} {c : Char} (h : c ∈ hex width n) : isHex c = true := by
  induction width generalizing n with
  | zero => cases h
  | succ width ih =>
    rw [hex, List.mem_append, List.mem_singleton] at h
    rcases h with h | rfl
    · exact ih h
    · exact isHex_hexDigit (Nat.mod_lt n (by decide))

theorem value_hex {width n : Nat} (h : n < Nat.pow 16 width) : value 16 (hex width n) = n := by
  induction width generalizing n with
  | zero =>
    have h : n < 1 := h
    rw [Nat.lt_one_iff.mp h]
    rfl
  | succ width ih =>
    have h : n < Nat.pow 16 width * 16 := h
    rw [hex, value_append, ih (by omega), digit_hexDigit (Nat.mod_lt n (by decide))]
    omega

theorem hexBelow?_hex {width n limit : Nat} (hwidth : 0 < width) (hn : n < Nat.pow 16 width)
    (hlimit : n < limit) : hexBelow? limit (hex width n) = some n := by
  have hne : hex width n ≠ [] := by
    intro h
    have hlength := length_hex width n
    rw [h, List.length_nil] at hlength
    omega
  have hall : (hex width n).all isHex = true :=
    List.all_eq_true.mpr fun c hc => isHex_of_mem_hex hc
  rw [hexBelow?, value_hex hn, if_pos ⟨hne, hall, hlimit⟩]

end Digits
end SsaGraph
