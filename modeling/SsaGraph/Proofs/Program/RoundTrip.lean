import SsaGraph.Proofs.Program.Bodies

/-!
Functions are read back from their text.
-/

namespace SsaGraph

/-- Nothing that could go on stands side by side with what prolongs it. -/
theorem Func.separates_tight : Token.Separates Func.tight := by
  intro t u htight hgoes
  unfold Func.tight at htight
  split at htight
  · cases hgoes
  · cases hgoes
  · cases hgoes
  · exact ⟨',', [], rfl, by decide⟩
  · exact ⟨')', [], rfl, by decide⟩
  · exact ⟨']', [], rfl, by decide⟩
  · exact ⟨'\n', [], rfl, by decide⟩
  · cases hgoes
  · cases htight

namespace Program

/-- The tokens of a function give a program with this function only. -/
theorem ofTokens_tokens {f : Func} (hf : f.Writable) (returns : Ty) {elements : Nat → Ty}
    (helements : ∀ i, (elements i).Valid) {ts : List (Located Token)}
    (hts : ts.map (·.val) = f.tokens returns elements ++ [.eof]) :
    ∃ g, ofTokens ts = .ok ⟨[g]⟩ ∧ f.SameAs g := by
  obtain ⟨_, t, hr, _, hfaults, g, rfl, hsame⟩ :=
    Reader.reads_functions hf returns helements ⟨ts, [], default, .empty⟩ rfl rfl hts
  refine ⟨g, ?_, hsame⟩
  rw [ofTokens, hr]
  show (if t.faults.isEmpty then _ else _) = _
  rw [hfaults]
  rfl

theorem read_text {f : Func} (hf : f.Writable) (returns : Ty) {elements : Nat → Ty}
    (helements : ∀ i, (elements i).Valid) :
    ∃ g, read (f.text returns elements) = .ok ⟨[g]⟩ ∧ f.SameAs g := by
  have hwritable : ∀ t ∈ f.tokens returns elements, t.Writable :=
    fun t ht => (Func.plain_tokens hf returns elements t ht).1
  have hscanned := Token.scanned_written Func.separates_tight hwritable 0
  rw [Token.scanned, Prod.mk.injEq, List.map_eq_nil_iff] at hscanned
  obtain ⟨htokens, hfaults⟩ := hscanned
  have hscan : Token.scan (f.text returns elements) =
      Token.scanFrom 0 (Token.written Func.tight (f.tokens returns elements)) := by
    rw [Token.scan, Func.text, String.toList_ofList]
  obtain ⟨g, hg, hsame⟩ := ofTokens_tokens hf returns helements htokens
  refine ⟨g, ?_, hsame⟩
  rw [read, hscan]
  show (if (Token.scanFrom 0 _).faults.isEmpty then _ else _) = _
  rw [hfaults, hg]
  rfl

/-- A function is read back from its text. -/
theorem readSingle_text {f : Func} (hf : f.Writable) (returns : Ty) {elements : Nat → Ty}
    (helements : ∀ i, (elements i).Valid) :
    ∃ g, readSingle (f.text returns elements) = .ok g ∧ g.Arena ∧ f.SameAs g := by
  obtain ⟨g, hread, hsame⟩ := read_text hf returns helements
  refine ⟨g, ?_, arena_of_read hread g List.mem_cons_self, hsame⟩
  rw [readSingle, hread]
  rfl

example : Func.text (.withArgs "f" [(.ptr, "in")]) .void (fun _ => .double) =
    "define void @\"f\"(ptr %\"in\") \x7b\n\x7d\n" := by decide

/-! A function with names that only quotes can hold, and with operands of all kinds. -/

def limitSteps : List Builder.Step :=
  [.push .load [0] .double none (some "v"), .float ⟨0x3ff0000000000000⟩,
   .push .fadd [2, 3] .double none (some "v + 1"), .symbol "llvm.fabs.f64",
   .push .call [4, 5] .double none (some "|v + 1|"),
   .push .fcmp [6, 1] (.int 1) (some (.float .ult)) (some "less?"),
   .branch 7 "then" "else", .retOk]

def limit : Func :=
  (((Builder.start (.withArgs "limit it" [(.ptr, "in"), (.double, "by x")])).run limitSteps).2.map
    (·.func)).getD default

theorem writable_limit : limit.Writable := by
  have hrun : ((Builder.start (.withArgs "limit it" [(.ptr, "in"), (.double, "by x")])).run
      limitSteps).2.map (·.func) = some limit := by decide
  obtain ⟨b, hb, hfunc⟩ := Option.map_eq_some_iff.mp hrun
  have hsound := Builder.run_sound (Builder.sound_start _ _) (by decide) hb
  refine ⟨hfunc ▸ hsound.func, by decide, by decide, by decide, by decide, ?_⟩
  refine List.forall_mem_cons.mpr ⟨.load trivial, List.forall_mem_cons.mpr
    ⟨.arithmetic (by decide) rfl, List.forall_mem_cons.mpr ⟨?_, List.forall_mem_cons.mpr
      ⟨.fcmp .ult rfl, List.forall_mem_cons.mpr ⟨.branch rfl, List.forall_mem_cons.mpr
        ⟨.ret, by simp⟩⟩⟩⟩⟩⟩
  show Opcode.Typed .call none ([_] ++ [_]) .double
  exact .call rfl trivial

theorem readSingle_text_limit : limit.Writable ∧
    ∃ g, readSingle (limit.text (.int 32) fun _ => .double) = .ok g ∧ g.Arena ∧ limit.SameAs g :=
  ⟨writable_limit, readSingle_text writable_limit _ fun _ => trivial⟩

end Program
end SsaGraph
