import SchemaGuards.Proofs.Linkage
import SchemaGuards.Proofs.Linking.Segments
import SchemaGuards.Proofs.Linking.Valid

/-!
# The drafts that are generated from

Where nothing lies outside the configured roots and nothing lacks a written form, a run stops only before its
first expansion: when the draft is not linked, when its graph is not valid, or when the configuration is not.
All of this is decided by the draft and the configuration.
-/
namespace SchemaGuards
open Draft

/-- A draft in which no expansion stops. -/
structure Draft.IsWritable (draft : Draft) : Prop where
  supported : draft.contents.unsupportedKinds = []
  rooted : ∀ declaration ∈ draft.contents.declarations, isRooted draft.roots declaration.scope

variable {text : String} {draft : Draft} {graph : Graph} {config : Config}

theorem Graph.ofText_eq_link (htext : Draft.ofText text = .ok draft) : Graph.ofText text = draft.link := by
  rw [Graph.ofText, htext, except_ok_bind]

/-- No run over the graph of a writable draft stops. -/
theorem Draft.IsWritable.not_refuses (h : draft.IsWritable) (hgraph : draft.link = .ok graph)
    (error : GenerationError) : ¬ graph.Refuses error := by
  obtain ⟨hlinked, hroots⟩ := Draft.link_isLinked hgraph
  have hinto := Draft.linkedInto hgraph
  intro hrefuses
  cases hrefuses with
  | unsupported id kind hnode =>
    have hkind := (hlinked.fits id _ hnode).supported
    rw [h.supported] at hkind
    cases hkind
  | cycle name id node first hid hnode hfirst hnonempty hnot =>
    obtain ⟨linker, rfl, hfaithful⟩ := hinto.faithful
    rw [hfaithful.declarations_eq, List.mem_range] at hid
    obtain ⟨found, hfound, hreads⟩ := hinto.declared id _ (List.getElem?_eq_getElem hid)
    cases hnode.symm.trans hfound
    have hrooted := h.rooted _ (List.getElem_mem hid)
    rw [← hreads.scope_eq, ← hroots] at hrooted
    simp only [isRooted, hfirst, Option.any_some, Bool.or_eq_true, List.isEmpty_iff, decide_eq_true_eq] at hrooted
    exact hrooted.elim hnonempty hnot

/-- A text that reads as a writable draft is generated from exactly when the draft can be linked into a valid
graph and the configuration is valid. -/
theorem generate_isOk_iff (htext : Draft.ofText text = .ok draft) (h : draft.IsWritable) :
    (∃ output, generate text config = .ok output) ↔
      draft.contents.IsConsistent ∧ draft.contents.IsValid ∧ config.validate = .ok () := by
  have hgraph := Graph.ofText_eq_link htext
  constructor
  · rintro ⟨output, houtput⟩
    obtain ⟨workspace, hworkspace, hrun⟩ := except_bind_ok houtput
    obtain ⟨hconfig, _⟩ := Workspace.generate_ok hrun
    obtain ⟨hlink, hvalid, _, rfl⟩ := Workspace.ofText_parts hworkspace
    rw [hgraph] at hlink
    exact ⟨link_isOk_iff.1 ⟨workspace.graph, hlink⟩, (validate_isOk_iff hlink).1 hvalid, hconfig⟩
  · rintro ⟨hconsistent, hvalid, hconfig⟩
    obtain ⟨graph, hlink⟩ := link_isOk_iff.2 hconsistent
    rw [hlink] at hgraph
    have hvalidated := (validate_isOk_iff hlink).2 hvalid
    obtain ⟨registry, kinds, hregistry, hsound, _⟩ := Workspace.ofText_isSound hgraph hvalidated
    rw [generate_eq hgraph hvalidated hregistry]
    obtain hok | ⟨error, _, hrefuses⟩ := Workspace.generate_cases (hsound config) hconfig
    · exact hok
    · exact absurd hrefuses (h.not_refuses hlink error)

end SchemaGuards
