import SsaGraph.Proofs.Token.Joining
import SsaGraph.Proofs.Token.Written

/-!
Tokens printed with a blank between any two.  There is more than one way to print most of
them (`Prints`): a name with or without quotes, an integer or what is missing from it to
the next power of two, hexadecimal digits in either case.  Each of them is one piece in front
of a blank (`piece_prints`), so the tokens are scanned as they were (`scan_printed`).
-/

namespace SsaGraph
namespace Token

/-- The characters are a way to print the token. -/
inductive Prints : Token → List Char → Prop
  | text (t : Token) : Prints t t.text
  /-- A name of name characters needs no quotes. -/
  | bare {t : Token} {sigil : Char} {name : String} (h : t.sigil? = some (sigil, name))
    (hname : ∀ c ∈ name.toList, isNameChar c = true) : Prints t (sigil :: name.toList)
  | negative {n : UInt64} {m : Nat} (hm : m < 1 <<< 64) (hn : n.toNat = ((1 <<< 64) - m) % (1 <<< 64)) :
    Prints (.int n) ('-' :: Nat.toDigits 10 m)
  | hexadecimal {x : Binary64} {ds : List Char} (hlength : ds.length = 16)
    (hds : ∀ d ∈ ds, Digits.isHex d = true) (hx : Digits.value 16 ds = x.bits.toNat) :
    Prints (.float x) ('0' :: 'x' :: ds)

section
variable {rest : List Char} (h : Stops (· != ' ') rest)
include h

/-- A blank ends everything that is made of other characters. -/
theorem stops_of_blank {p : Char → Bool} (hp : p ' ' = false) : Stops p rest := by
  intro c hc
  have hblank : c = ' ' := by simpa using h c hc
  rw [hblank, hp]

theorem name_bare {s : String} (hs : ∀ c ∈ s.toList, isNameChar c = true) :
    name (s.toList ++ rest) = (s, s.toList.length) := by
  have hquote : (s.toList ++ rest).head? ≠ some '"' := by
    intro hhead
    cases hs' : s.toList with
    | nil =>
      rw [hs', List.nil_append] at hhead
      exact absurd (h '"' hhead) (by decide)
    | cons c cs =>
      rw [hs', List.cons_append, List.head?_cons] at hhead
      have hc := hs c (by simp [hs'])
      rw [Option.some.inj hhead] at hc
      exact absurd hc (by decide)
  rw [name_of_ne hquote, takeWhile_append_of_stops (stops_of_blank h (by decide)), takeWhile_of_all hs,
    String.ofList_toList]

end

theorem sub_ofNat {n : UInt64} {m : Nat} (hm : m < 1 <<< 64)
    (hn : n.toNat = ((1 <<< 64) - m) % (1 <<< 64)) : 0 - UInt64.ofNat m = n := by
  have hvalue : (UInt64.ofNat m).toNat = m := UInt64.toNat_ofNat_of_lt hm
  apply UInt64.toNat_inj.mp
  rw [hn, UInt64.toNat_sub, hvalue]
  rfl

/-- However a token is printed, it is one piece in front of a blank. -/
theorem piece_prints {t : Token} (ht : t.Writable) {cs : List Char} (h : Prints t cs) :
    ∃ c ds, cs = c :: ds ∧ ∀ rest, Stops (· != ' ') rest → piece c (ds ++ rest) = .token t ds.length := by
  have hstops : ∀ {rest : List Char}, Stops (· != ' ') rest → Stops isNameChar rest :=
    fun hrest => stops_of_blank hrest (by decide)
  cases h with
  | text =>
    obtain ⟨c, ds, htext, hpiece⟩ := piece_text ht
    exact ⟨c, ds, htext, fun rest hrest => hpiece rest fun _ => hstops hrest⟩
  | bare hsigil hname =>
    exact ⟨_, _, rfl, fun rest hrest => piece_sigil hsigil ht (name_bare hrest hname)⟩
  | @negative n m hm hn =>
    refine ⟨'-', Nat.toDigits 10 m, rfl, fun rest hrest => ?_⟩
    rw [piece_negative (hstops hrest) hm, sub_ofNat hm hn]
  | @hexadecimal x ds hlength hds hx =>
    have hne : ds ≠ [] := by
      intro hnil
      rw [hnil] at hlength
      cases hlength
    exact ⟨'0', 'x' :: ds, rfl, fun rest hrest => piece_hexadecimal (hstops hrest) hne hds hx⟩

theorem scanned_printed {ts : List Token} {texts : List (List Char)} (hts : ∀ t ∈ ts, t.Writable)
    (h : List.Forall₂ Prints ts texts) (start : Nat) :
    scanned start ([' '].intercalate texts) = (ts ++ [eof], []) := by
  induction h generalizing start with
  | nil => exact scanned_nil start
  | @cons t text ts texts ht hrest ih =>
    obtain ⟨hwritable, hlater⟩ := List.forall_mem_cons.mp hts
    obtain ⟨c, ds, rfl, hpiece⟩ := piece_prints hwritable ht
    cases hrest with
    | nil =>
      obtain ⟨later, hscan⟩ := scanned_token (hpiece [] (.nil _)) start
      rw [List.append_nil, scanned_nil] at hscan
      rw [List.intercalate_singleton, hscan]
      rfl
    | cons hnext hrest =>
      obtain ⟨later, hscan⟩ := scanned_token (hpiece (' ' :: _) (.cons (by decide) _)) start
      obtain ⟨later', hblank⟩ := scanned_blank later _
      rw [List.intercalate_cons_cons, List.append_assoc, List.singleton_append, hscan, hblank,
        ih hlater]
      rfl

/-- Scanning undoes printing. -/
theorem scan_printed {ts : List Token} {texts : List (List Char)} (hts : ∀ t ∈ ts, t.Writable)
    (h : List.Forall₂ Prints ts texts) :
    (scan (String.ofList ([' '].intercalate texts))).tokens.map (·.val) = ts ++ [eof] ∧
      (scan (String.ofList ([' '].intercalate texts))).faults = [] := by
  have hscan := scanned_printed hts h 0
  unfold scan
  rw [String.toList_ofList]
  exact ⟨congrArg Prod.fst hscan, List.map_eq_nil_iff.mp (congrArg Prod.snd hscan)⟩

/-- A name without characters, one with a blank, the largest integer, a number that is none
with lower and upper case digits, and marks that start with the same character. -/
def assorted : List Token :=
  [attr "", loc "a b", int 18446744073709551615, newline, float ⟨0xFFF800000000BEEF⟩, word "..-", ellipsis,
    str ";%"]

def assortedTexts : List (List Char) :=
  ["#".toList, "%\"a b\"".toList, "-1".toList, "\n".toList, "0xfff800000000BEEF".toList, "..-".toList,
    "...".toList, "\";%\"".toList]

theorem assorted_writable : ∀ t ∈ assorted, t.Writable := by
  have hempty : Quotable "" := List.all_eq_true.mp (by decide)
  have hblank : Quotable "a b" := List.all_eq_true.mp (by decide)
  have hmarks : Quotable ";%" := List.all_eq_true.mp (by decide)
  have hword : IsWord "..-".toList := ⟨by decide, List.all_eq_true.mp (by decide), by decide⟩
  simp only [assorted, List.forall_mem_cons, List.not_mem_nil, false_implies, implies_true, and_true]
  exact ⟨hempty, ⟨by decide, hblank⟩, trivial, trivial, trivial, hword, trivial, hmarks⟩

theorem assorted_prints : List.Forall₂ Prints assorted assortedTexts := by
  have hbare : Prints (attr "") ('#' :: "".toList) := .bare rfl (List.all_eq_true.mp (by decide))
  have hnegative : Prints (int 18446744073709551615) "-1".toList :=
    .negative (m := 1) (by decide) (by decide)
  have hdigits : Prints (float ⟨0xFFF800000000BEEF⟩) "0xfff800000000BEEF".toList :=
    .hexadecimal rfl (List.all_eq_true.mp (by decide)) (by decide)
  exact .cons hbare <| .cons (.text _) <| .cons hnegative <| .cons (.text _) <| .cons hdigits <|
    .cons (.text _) <| .cons (.text _) <| .cons (.text _) .nil

theorem scan_printed_assorted : (∀ t ∈ assorted, t.Writable) ∧
    List.Forall₂ Prints assorted assortedTexts ∧
    String.ofList ([' '].intercalate assortedTexts) =
      "# %\"a b\" -1 \n 0xfff800000000BEEF ..- ... \";%\"" ∧
    (scan (String.ofList ([' '].intercalate assortedTexts))).tokens.map (·.val) = assorted ++ [eof] ∧
    (scan (String.ofList ([' '].intercalate assortedTexts))).faults = [] :=
  ⟨assorted_writable, assorted_prints, by decide, scan_printed assorted_writable assorted_prints⟩

end Token
end SsaGraph
