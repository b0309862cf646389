import Mathlib.Logic.Relation
import SchemaGuards.Proofs.Calls
import SchemaGuards.Proofs.Reachability
import SchemaGuards.Session

/-!
# Sessions answer as fresh ones

A session only remembers what a search of its own would find, whatever it was asked before and whether
or not the answer was an error. So asking a session for reachable restrictions is asking for a path in
the graph, and the resolutions of a session say the same.
-/
namespace SchemaGuards

namespace Graph

/-- One place mentions another: as the type of a property, as a base, as an indexer, as an element or as a
variant. -/
inductive Mentions (graph : Graph) : NodeId → NodeId → Prop
  | property (id : NodeId) (content : Model) (property : Property NodeId)
    (hnode : graph.node? id = some (.model content)) (hproperty : property ∈ content.properties) :
    graph.Mentions id property.type
  | base (id base : NodeId) (content : Model) (hnode : graph.node? id = some (.model content))
    (hbase : content.base = some base) : graph.Mentions id base
  | indexer (id element : NodeId) (content : Model) (hnode : graph.node? id = some (.model content))
    (helement : content.indexer = some element) : graph.Mentions id element
  | element (id element : NodeId) (elements : List NodeId) (hnode : graph.node? id = some (.tuple elements))
    (helement : element ∈ elements) : graph.Mentions id element
  | variant (id variant : NodeId) (content : Union) (hnode : graph.node? id = some (.union content))
    (hvariant : variant ∈ content.variants) : graph.Mentions id variant

/-- A place holds a model that restricts one of its properties to some phases. -/
def HasRestriction (graph : Graph) (id : NodeId) : Prop :=
  ∃ content, graph.node? id = some (.model content) ∧
    ∃ property ∈ content.properties, property.visibility.isSome

variable {graph : Graph} {id next : NodeId}

theorem mentions_iff : graph.Mentions id next ↔ ∃ node, graph.node? id = some node ∧ next ∈ node.successors := by
  constructor
  · intro h
    cases h with
    | property content property hnode hproperty =>
      refine ⟨_, hnode, ?_⟩
      simp only [Node.successors, Model.mentioned, List.mem_append, List.mem_map]
      exact .inr ⟨property, hproperty, rfl⟩
    | base _ content hnode hbase => exact ⟨_, hnode, by simp [Node.successors, Model.mentioned, hbase]⟩
    | indexer _ content hnode helement =>
      exact ⟨_, hnode, by simp [Node.successors, Model.mentioned, helement]⟩
    | element _ elements hnode helement => exact ⟨_, hnode, helement⟩
    | variant _ content hnode hvariant => exact ⟨_, hnode, hvariant⟩
  · rintro ⟨node, hnode, hnext⟩
    cases node with
    | model content =>
      simp only [Node.successors, Model.mentioned, List.mem_append, Option.mem_toList, List.mem_map] at hnext
      rcases hnext with (hbase | helement) | ⟨property, hproperty, rfl⟩
      · exact .base id next content hnode hbase
      · exact .indexer id next content hnode helement
      · exact .property id content property hnode hproperty
    | tuple elements => exact .element id next elements hnode hnext
    | union content => exact .variant id next content hnode hnext
    | _ => cases hnext

theorem hasRestriction_iff :
    graph.HasRestriction id ↔ ∃ node, graph.node? id = some node ∧ node.isRestricted = true := by
  constructor
  · rintro ⟨content, hnode, property, hproperty, hvisibility⟩
    exact ⟨_, hnode, List.any_eq_true.2 ⟨property, hproperty, hvisibility⟩⟩
  · rintro ⟨node, hnode, hrestricted⟩
    cases node with
    | model content =>
      rcases List.any_eq_true.1 hrestricted with ⟨property, hproperty, hvisibility⟩
      exact ⟨content, hnode, property, hproperty, hvisibility⟩
    | _ => cases hrestricted

/-- A restriction is reached along a finite path. -/
theorem leadsToRestriction_iff :
    graph.LeadsToRestriction id ↔ ∃ target, Relation.ReflTransGen graph.Mentions id target ∧
      graph.HasRestriction target := by
  constructor
  · intro h
    induction h with
    | here id node hnode hrestricted => exact ⟨id, .refl, hasRestriction_iff.2 ⟨node, hnode, hrestricted⟩⟩
    | step id next node hnode hnext _ ih =>
      rcases ih with ⟨target, hpath, htarget⟩
      exact ⟨target, hpath.head (mentions_iff.2 ⟨node, hnode, hnext⟩), htarget⟩
  · rintro ⟨target, hpath, htarget⟩
    induction hpath using Relation.ReflTransGen.head_induction_on with
    | refl =>
      rcases hasRestriction_iff.1 htarget with ⟨node, hnode, hrestricted⟩
      exact .here _ node hnode hrestricted
    | head hstep _ ih =>
      rcases mentions_iff.1 hstep with ⟨node, hnode, hnext⟩
      exact .step _ _ node hnode hnext ih

end Graph

namespace Session

/-- A session remembers nothing but what a search would find. -/
def IsSound (session : Session) : Prop :=
  ∀ id generic, session.known.lookup id = some generic → generic = session.workspace.graph.reachesRestriction id

/-- A sound session after some reports, over the same workspace. -/
structure Continues (session later : Session) (log : Diagnostics) : Prop where
  workspace_eq : later.workspace = session.workspace
  diagnostics_eq : later.diagnostics = session.diagnostics ++ log
  sound : later.IsSound

variable {session middle later : Session} {log more : Diagnostics}

theorem sound_fresh (workspace : Workspace) : IsSound { workspace } := fun _ _ hknown => by cases hknown

theorem Continues.trans (h : session.Continues middle log) (h' : middle.Continues later more) :
    session.Continues later (log ++ more) := by
  refine ⟨h'.workspace_eq.trans h.workspace_eq, ?_, h'.sound⟩
  rw [h'.diagnostics_eq, h.diagnostics_eq, List.append_assoc]

theorem continues_run {α : Type} (h : session.IsSound) (step : Workspace → Traced α) :
    session.Continues (session.run step).2 (step session.workspace).log := ⟨rfl, rfl, h⟩

/-- An answer is right, and remembering it keeps a session sound. -/
theorem isGeneric_spec (h : session.IsSound) (id : NodeId) :
    (session.isGeneric id).1 = session.workspace.graph.reachesRestriction id ∧
      session.Continues (session.isGeneric id).2 [] := by
  rw [isGeneric]
  cases hknown : session.known.lookup id with
  | some generic => exact ⟨h id generic hknown, rfl, by simp, h⟩
  | none =>
    refine ⟨rfl, rfl, by simp, ?_⟩
    intro other generic hother
    rw [List.lookup_cons] at hother
    split at hother
    · next heq =>
      cases hother
      rw [eq_of_beq heq]
    · exact h other generic hother

end Session

namespace Steps
variable {α β : Type} {workspace : Workspace}

/-- A step does in every sound session over a workspace what a computation does without one. -/
def Follows (workspace : Workspace) (step : Steps α) (traced : Traced α) : Prop :=
  ∀ session : Session, session.workspace = workspace → session.IsSound →
    ∃ later, step.run.run session = (traced.outcome, later) ∧ session.Continues later traced.log

theorem follows_pure (value : α) : Follows workspace (pure value) (pure value) :=
  fun session _ hsound => ⟨session, rfl, rfl, (List.append_nil _).symm, hsound⟩

theorem follows_lift (traced : Traced α) : Follows workspace (liftM traced) (liftM traced) :=
  fun session _ hsound => ⟨_, rfl, session.continues_run hsound (fun _ => traced)⟩

theorem follows_isGeneric (id : NodeId) :
    Follows workspace (isGeneric id) (pure (workspace.graph.reachesRestriction id)) := by
  intro session hworkspace hsound
  have hspec := session.isGeneric_spec hsound id
  refine ⟨(session.isGeneric id).2, ?_, hspec.2⟩
  rw [← hworkspace, ← hspec.1]
  rfl

theorem follows_bind {step : Steps α} {traced : Traced α} {next : α → Steps β} {nextTraced : α → Traced β}
    (h : Follows workspace step traced) (hnext : ∀ value, Follows workspace (next value) (nextTraced value)) :
    Follows workspace (step >>= next) (traced >>= nextTraced) := by
  intro session hworkspace hsound
  rcases h session hworkspace hsound with ⟨middle, hrun, hmiddle⟩
  rw [ExceptT.run_bind, StateT.run_bind, hrun]
  cases houtcome : traced.outcome with
  | error error =>
    rw [Traced.bind_error houtcome]
    exact ⟨middle, rfl, hmiddle⟩
  | ok value =>
    rw [Traced.bind_ok houtcome]
    rcases hnext value middle (hmiddle.workspace_eq.trans hworkspace) hmiddle.sound with ⟨later, hrest, hlater⟩
    exact ⟨later, hrest, hmiddle.trans hlater⟩

/-- Following is a correspondence of the steps of a session with computations without one. -/
def following (workspace : Workspace) : Correspondence Steps Traced where
  Holds := Follows workspace
  holds_pure := follows_pure
  holds_bind := follows_bind
  holds_lift traced _ := follows_lift traced

/-- A session expands by the calls that a workspace expands by. -/
theorem expand_eq_call (workspace : Workspace) (mode : Mode) (locked : Bool) (ancestry : List NodeId)
    (id : NodeId) :
    expand workspace mode locked ancestry id =
      workspace.expandCall mode locked ancestry id (isGeneric id)
        (fun part => expand workspace mode true (id :: ancestry) part) := by
  rw [expand]
  split
  · next hnode => rw [Workspace.expandCall, hnode]
  · next kind hnode => rw [Workspace.expandCall, hnode]
  · next node hkind hnode =>
    rw [Workspace.expandCall_supported hnode hkind]
    rfl

/-- Remembered answers do not change an expansion. -/
theorem follows_expand (mode : Mode) (locked : Bool) (ancestry : List NodeId) (id : NodeId) :
    Follows workspace (expand workspace mode locked ancestry id) (workspace.expand mode locked ancestry id) := by
  refine workspace.graph.descent (motive := fun ancestry id => ∀ locked,
    Follows workspace (expand workspace mode locked ancestry id) (workspace.expand mode locked ancestry id))
    ?_ ancestry id locked
  intro ancestry id ih locked
  rw [expand_eq_call, Workspace.expand_eq_call]
  exact (following workspace).holds_expandCall (follows_isGeneric id) (fun hid hnew part => ih hid hnew part true)

theorem resolve_eq_call (workspace : Workspace) (mode : Mode) (id : NodeId) (context : Context) :
    resolve workspace mode id context =
      workspace.resolveCall mode id context (expand workspace mode context.locked context.ancestry id)
        (isGeneric id) := rfl

theorem follows_resolve (mode : Mode) (id : NodeId) (context : Context) :
    Follows workspace (resolve workspace mode id context) (workspace.resolve mode id context) := by
  rw [resolve_eq_call, Workspace.resolve_eq_call]
  exact (following workspace).holds_resolveCall (follows_isGeneric id) (follows_expand mode _ _ id)

theorem Follows.spec {session : Session} {step : Steps α} {traced : Traced α}
    (h : Follows session.workspace step traced) (hsound : session.IsSound) :
    (step.run.run session).1 = traced.outcome ∧ session.Continues (step.run.run session).2 traced.log := by
  obtain ⟨later, hrun, hlater⟩ := h session rfl hsound
  rw [hrun]
  exact ⟨rfl, hlater⟩

end Steps

namespace Session
variable {session : Session}

/-- Resolving in a session gives what resolving in its workspace gives. -/
theorem resolve_spec (h : session.IsSound) (mode : Mode) (id : NodeId) (context : Context) :
    (session.resolve mode id context).1 = (session.workspace.resolve mode id context).outcome ∧
      session.Continues (session.resolve mode id context).2 (session.workspace.resolve mode id context).log :=
  (Steps.follows_resolve mode id context).spec h

inductive Request where
  | isGeneric (id : NodeId)
  | resolve (mode : Mode) (id : NodeId) (context : Context)
  | report (diagnostic : Diagnostic)
  | takeDiagnostics

def serve (session : Session) : Request → Session
  | .isGeneric id => (session.isGeneric id).2
  | .resolve mode id context => (session.resolve mode id context).2
  | .report diagnostic => session.report diagnostic
  | .takeDiagnostics => session.takeDiagnostics.2

/-- The session behind a whole history of answers. -/
def after (session : Session) (history : List Request) : Session := history.foldl serve session

theorem serve_sound (h : session.IsSound) (request : Request) :
    (session.serve request).IsSound ∧ (session.serve request).workspace = session.workspace := by
  cases request with
  | isGeneric id =>
    have hspec := (isGeneric_spec h id).2
    exact ⟨hspec.sound, hspec.workspace_eq⟩
  | resolve mode id context =>
    have hspec := (resolve_spec h mode id context).2
    exact ⟨hspec.sound, hspec.workspace_eq⟩
  | report diagnostic => exact ⟨h, rfl⟩
  | takeDiagnostics => exact ⟨h, rfl⟩

/-- Sessions stay sound, whatever is asked of them. -/
theorem after_sound (h : session.IsSound) (history : List Request) :
    (session.after history).IsSound ∧ (session.after history).workspace = session.workspace := by
  induction history generalizing session with
  | nil => exact ⟨h, rfl⟩
  | cons request rest ih =>
    have hserve := serve_sound h request
    have hrest := ih hserve.1
    exact ⟨hrest.1, hrest.2.trans hserve.2⟩

/-- After any history, a session finds a restriction from a node exactly when there is a path to one, and every
node that it can resolve, in full or as a reference, comes with the same answer. -/
theorem isGeneric_after (workspace : Workspace) (history : List Request) (id : NodeId) :
    let session : Session := Session.after { workspace } history
    ((session.isGeneric id).1 = true ↔ ∃ target, Relation.ReflTransGen workspace.graph.Mentions id target ∧
      workspace.graph.HasRestriction target) ∧
    ∀ mode context resolution, (session.resolve mode id context).1 = .ok resolution →
      resolution.isGeneric = (session.isGeneric id).1 := by
  intro session
  have hfresh : IsSound { workspace } := fun _ _ hknown => by cases hknown
  obtain ⟨hsound, hworkspace⟩ := after_sound hfresh history
  have hanswer : (session.isGeneric id).1 = workspace.graph.reachesRestriction id := by
    rw [(isGeneric_spec hsound id).1, hworkspace]
  refine ⟨?_, fun mode context resolution hresolution => ?_⟩
  · rw [hanswer, Graph.reachesRestriction_iff, Graph.leadsToRestriction_iff]
  · rw [(resolve_spec hsound mode id context).1, hworkspace] at hresolution
    obtain ⟨expansion, _, hwritten⟩ := Traced.outcome_bind_ok hresolution
    cases hwritten
    rw [hanswer]
    cases mode <;> rfl

end Session

namespace Sample

def pinnedWorkspace : Workspace where
  graph :=
    { nodes := #[.model { decl := { name := some "M", scope := ["A"] }, properties := [{ name := "log", type := 3 }] },
                 .model { decl := {},
                          properties := [{ name := "pin", type := 4, visibility := some { read := true } }] },
                 .model (Model.ofElement .array 1),
                 .model (Model.ofElement .record 2),
                 .primitive (.intrinsic .null)]
      declarations := [0]
      names := [("A.M", 0)] }
  registry := [⟨⟨.model, "M", ["A"]⟩, 0⟩]
  config := {}

end Sample

/-- A place that does not exist has been asked for before, and one from which no restriction is reached. -/
theorem Session.isGeneric_after_pinnedWorkspace :
    let session : Session := Session.after { workspace := Sample.pinnedWorkspace }
      [.resolve .guard 5 .detached, .isGeneric 4, .takeDiagnostics]
    (session.isGeneric 0).1 = true ∧ ∃ resolution, (session.resolve .type 0 .detached).1 = .ok resolution ∧
      resolution.isGeneric = true := by
  intro session
  obtain ⟨hiff, hresolved⟩ := isGeneric_after Sample.pinnedWorkspace
    [.resolve .guard 5 .detached, .isGeneric 4, .takeDiagnostics] 0
  have hlog : Sample.pinnedWorkspace.graph.Mentions 0 3 := .property 0 _ { name := "log", type := 3 } rfl (by simp)
  have hrecord : Sample.pinnedWorkspace.graph.Mentions 3 2 := .indexer 3 2 _ rfl rfl
  have hlist : Sample.pinnedWorkspace.graph.Mentions 2 1 := .indexer 2 1 _ rfl rfl
  have hgeneric := hiff.2 ⟨1, ((Relation.ReflTransGen.single hlog).tail hrecord).tail hlist, _, rfl, _,
    List.mem_singleton_self _, rfl⟩
  have hok : (session.resolve .type 0 .detached).1.isOk = true := by decide +kernel
  obtain ⟨resolution, hresolution⟩ := exists_ok_of_isOk hok
  exact ⟨hgeneric, resolution, hresolution, (hresolved _ _ _ hresolution).trans hgeneric⟩

end SchemaGuards
