import SchemaGuards.Proofs.Scaling.Deep
import SchemaGuards.Proofs.Scaling.Wide

/-!
# Generating from documents of any size

Runs over wide and deep documents succeed at every size but one: namespaces without models, whose operations
refer to a first model that is not there.
-/
namespace SchemaGuards
open Emission

/-- A valid configuration generates from a wide document exactly when it has no namespaces or these have models,
and from a deep document always. With types, the file of a deep document declares the outermost type, in which as
many object types stand inside one another as the document is deep, and the innermost names the outermost. -/
theorem generate_wide_iff_deep_nests {config : Config} (hconfig : config.validate = .ok ()) (namespaces models depth : Nat) :
    ((∃ output, generate (Sample.wide namespaces models) config = .ok output) ↔ (namespaces = 0 ∨ 0 < models)) ∧
    ∃ output, generate (Sample.deep depth) config = .ok output ∧
      (config.emitTypes = true → ∃ guards,
        output.file? "Deep.ts" = some
          ⟨"Deep.ts", header ++ "\nexport type Root = " ++ Sample.deepType 0 depth ++ ";\n" ++ guards⟩ ∧
        (config.emitGuards = false → guards = "")) := by
  refine ⟨Sample.generate_wide_isOk_iff hconfig, ?_⟩
  obtain ⟨output, houtput⟩ := Sample.exists_generate_deep hconfig depth
  exact ⟨output, houtput, fun htypes => Sample.file_deep htypes houtput⟩

/-- Three namespaces of four models, and two models inside the outermost one. -/
theorem generate_wide_iff_deep_nests_small :
    (∃ output, generate (Sample.wide 3 4) { emitGuards := true, emitRoutes := true } = .ok output) ∧
    ∃ output, generate (Sample.deep 2) {} = .ok output ∧ output.file? "Deep.ts" = some ⟨"Deep.ts", header ++
      "\nexport type Root = \x7b\n  l0?: \x7b\n    l1?: \x7b\n      back: Root\n    \x7d\n  \x7d\n\x7d;\n"⟩ := by
  have hguards : ({ emitGuards := true, emitRoutes := true } : Config).validate = .ok () := rfl
  obtain ⟨output, houtput, hfile⟩ := (generate_wide_iff_deep_nests (rfl : ({} : Config).validate = .ok ()) 0 0 2).2
  obtain ⟨guards, hfile, hnone⟩ := hfile rfl
  have htype : Sample.deepType 0 2 = "\x7b\n  l0?: \x7b\n    l1?: \x7b\n      back: Root\n    \x7d\n  \x7d\n\x7d" := by
    decide
  rw [hnone rfl, htype] at hfile
  refine ⟨(generate_wide_iff_deep_nests hguards 3 4 0).1.2 (.inr (by decide)), output, houtput, ?_⟩
  rw [hfile]
  rfl

/-- A namespace without models: its operation responds with a type that is not there. -/
theorem generate_modelless : ({} : Config).validate = .ok () ∧
    generate (Sample.wide 1 0) {} = .error (.reading (.unknownType "M0" "Bench.N0.get0")) := by
  have hlink : (Sample.wideDraft 1 0).link = .error (.unknownType "M0" "Bench.N0.get0") := by decide +kernel
  refine ⟨rfl, ?_⟩
  rw [generate, Workspace.ofText, Graph.ofText_eq_link (Sample.ofText_wide 1 0), hlink]
  rfl

end SchemaGuards
