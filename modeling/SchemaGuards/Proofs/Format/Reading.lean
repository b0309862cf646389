import SchemaGuards.Proofs.Format.Forms

/-!
# Documents are read as the format has them

From the members of an enumeration up to the schema element, each reader succeeds on a tree exactly
when the tree follows its rule. So a text with one element has a draft exactly when that element
follows the format.
-/
namespace SchemaGuards.Draft
open Markup

theorem readMemberValue_eq_ok {attributes : List Attribute} {value : Option MemberValue} :
    (match key? attributes "number" with
      | some number => (readNumber "member" "number" number).map (fun text => some (MemberValue.number text))
      | none => pure ((key? attributes "value").map .string)) = .ok value ↔
      WritesMemberValue attributes value := by
  cases hnumber : key? attributes "number" with
  | some number =>
    simp only [except_map_eq_ok, readNumber_eq_ok]
    constructor
    · intro h
      obtain ⟨text, htext, rfl⟩ := h
      exact .number hnumber htext
    · intro h
      cases h with
      | number hgiven htext =>
        cases hnumber.symm.trans hgiven
        exact ⟨_, htext, rfl⟩
      | string hnone _ => cases hnumber.symm.trans hnone
      | absent hnone _ => cases hnumber.symm.trans hnone
  | none =>
    constructor
    · intro h
      obtain rfl := Except.ok.inj h
      cases hvalue : key? attributes "value" with
      | some value => exact .string hnumber hvalue
      | none => exact .absent hnumber hvalue
    · intro h
      cases h with
      | number hgiven _ => cases hnumber.symm.trans hgiven
      | string _ hvalue =>
        rw [hvalue]
        rfl
      | absent _ hvalue =>
        rw [hvalue]
        rfl

theorem readMember_eq_ok {tree : Tree} {member : Member} :
    readMember tree.toElement = .ok member ↔ WritesMember tree member := by
  obtain ⟨name, attributes, children⟩ := tree
  by_cases hname : name = "member"
  · subst hname
    have hread : readMember (Tree.toElement ⟨"member", attributes, children⟩) = (do
        let name ← requireKey attributes "member" "name"
        let value ← (match key? attributes "number" with
          | some number => (readNumber "member" "number" number).map (fun text => some (MemberValue.number text))
          | none => pure ((key? attributes "value").map .string))
        readLeaf "member" (toElements children) .closed
        pure ⟨name, value, key? attributes "doc"⟩) := by
      simp only [Tree.toElement, readMember, readKeys_ok, except_ok_bind, if_true]
      cases key? attributes "number" <;> rfl
    rw [hread]
    simp only [except_bind_eq_ok, requireKey_eq_ok, readMemberValue_eq_ok, readLeaf_eq_ok]
    constructor
    · intro h
      obtain ⟨title, htitle, value, hvalue, _, rfl, h⟩ := h
      cases h
      exact .intro htitle hvalue
    · intro h
      cases h with
      | intro htitle hvalue => exact ⟨_, htitle, _, hvalue, (), rfl, rfl⟩
  · constructor
    · intro h
      simp only [Tree.toElement, readMember, hname, if_false] at h
      cases h
    · intro h
      cases h
      exact absurd rfl hname

theorem readBody_eq_ok {tree : Tree} {body : Body} :
    readBody tree.attributes tree.toElement = .ok body ↔ WritesBody tree body := by
  obtain ⟨name, attributes, children⟩ := tree
  have hmembers := fun members =>
    @mapM_toElements_eq_ok _ readMember WritesMember children members (fun _ _ _ => readMember_eq_ok)
  constructor
  · intro h
    unfold readBody Tree.toElement at h
    dsimp only at h
    split at h
    · obtain ⟨properties, hproperties, h⟩ := except_bind_ok h
      cases h
      exact .model (readProperties_eq_ok.1 hproperties)
    · obtain ⟨members, hread, h⟩ := except_bind_ok h
      cases h
      exact .enumeration ((hmembers members).1 hread)
    · obtain ⟨variants, hvariants, h⟩ := except_bind_ok h
      cases h
      exact .union (readForms_eq_ok.1 hvariants)
    · obtain ⟨_, hleaf, h⟩ := except_bind_ok h
      cases h
      obtain rfl := readLeaf_eq_ok.1 hleaf
      exact .scalar
    · cases h
  · intro h
    cases h with
    | model hproperties => exact except_bind_eq_ok.2 ⟨_, readProperties_eq_ok.2 hproperties, rfl⟩
    | enumeration hread => exact except_bind_eq_ok.2 ⟨_, (hmembers _).2 hread, rfl⟩
    | union hvariants => exact except_bind_eq_ok.2 ⟨_, readForms_eq_ok.2 hvariants, rfl⟩
    | scalar => rfl

theorem readDeclaration_eq_ok {scope : Scope} {tree : Tree} {declaration : Declaration} :
    readDeclaration scope tree.toElement = .ok declaration ↔ WritesDeclaration scope tree declaration := by
  have hattributes : tree.toElement.attributes = .ok tree.attributes := by cases tree; rfl
  simp only [readDeclaration, hattributes, readKeys_ok, except_ok_bind, except_bind_eq_ok, requireKey_eq_ok,
    readBody_eq_ok]
  constructor
  · intro h
    obtain ⟨name, hname, body, hbody, h⟩ := h
    cases h
    exact .intro hname hbody
  · intro h
    cases h with
    | intro hname hbody => exact ⟨_, hname, _, hbody, rfl⟩

/-- A status is read like any attribute that need not be there. -/
theorem readResponse_eq_ok {operation next : Operation Form} {attributes : List Attribute}
    {children : List Tree} :
    readExchange operation (Tree.toElement ⟨"response", attributes, children⟩) = .ok next ↔
      ∃ response, WritesResponse ⟨"response", attributes, children⟩ response ∧
        next = { operation with responses := operation.responses ++ [response] } := by
  let readStatus := fun value =>
    (readStatus? value).elim (Except.error (ReadError.invalidAttribute "response" "status" value)) Except.ok
  have hread : readExchange operation (Tree.toElement ⟨"response", attributes, children⟩) = (do
      let status ← (key? attributes "status").mapM readStatus
      let body ← readOptionalForm attributes (Tree.toElement ⟨"response", attributes, children⟩)
      pure { operation with responses := operation.responses ++ [⟨status, body⟩] }) := by
    simp only [Tree.toElement, readExchange, readKeys_ok, except_ok_bind]
    cases key? attributes "status" with
    | none => rfl
    | some value =>
      simp only [Option.mapM_some, readStatus]
      cases readStatus? value <;> rfl
  have hstatus := fun status => @option_mapM_eq_ok _ _ readStatus (fun value status => readStatus? value = some status)
    (fun value status => by simp only [readStatus]; cases readStatus? value <;> simp)
    (key? attributes "status") status
  rw [hread]
  simp only [except_bind_eq_ok, hstatus, readType_eq_ok]
  constructor
  · intro h
    obtain ⟨status, hstatus, body, hbody, h⟩ := h
    cases h
    exact ⟨_, .intro hstatus hbody, rfl⟩
  · intro h
    obtain ⟨_, ⟨hstatus, hbody⟩, rfl⟩ := h
    exact ⟨_, hstatus, _, hbody, rfl⟩

theorem readRequest_eq_ok {operation next : Operation Form} {attributes : List Attribute}
    {children : List Tree} :
    readExchange operation (Tree.toElement ⟨"request", attributes, children⟩) = .ok next ↔
      operation.request = none ∧
        ∃ form, WritesType attributes children (some form) ∧ next = { operation with request := some form } := by
  cases hrequest : operation.request with
  | some form => 
    simp only [Tree.toElement, readExchange, readKeys_ok, except_ok_bind, hrequest]
    simp
  | none =>
    have hread : readExchange operation (Tree.toElement ⟨"request", attributes, children⟩) = (do
        let found ← readOptionalForm attributes (Tree.toElement ⟨"request", attributes, children⟩)
        let form ← requireForm "request" found
        pure { operation with request := some form }) := by
      simp only [Tree.toElement, readExchange, readKeys_ok, except_ok_bind, hrequest]
      rfl
    rw [hread]
    simp only [except_bind_eq_ok, readType_eq_ok, requireForm_eq_ok]
    constructor
    · intro h
      obtain ⟨_, hfound, form, rfl, h⟩ := h
      cases h
      exact ⟨trivial, form, hfound, rfl⟩
    · intro h
      obtain ⟨_, form, hfound, rfl⟩ := h
      exact ⟨some form, hfound, form, rfl, rfl⟩

/-- The children of an operation are read one after the other; a request is refused after another one. -/
theorem readExchanges_eq_ok {children : List Tree} {operation next : Operation Form} :
    (toElements children).foldlM readExchange operation = .ok next ↔
      ∃ request responses, WritesExchanges children request responses ∧
        (operation.request = none ∨ request = none) ∧
        next = { operation with
          request := operation.request.or request, responses := operation.responses ++ responses } := by
  induction children generalizing operation with
  | nil =>
    rw [toElements, List.foldlM_nil]
    constructor
    · intro h
      cases h
      exact ⟨none, [], .nil, .inr rfl, by simp⟩
    · intro h
      obtain ⟨_, _, ⟨⟩, _, rfl⟩ := h
      simp [pure, Except.pure]
  | cons child rest ih =>
    obtain ⟨name, attributes, children⟩ := child
    rw [toElements, List.foldlM_cons]
    simp only [except_bind_eq_ok, ih]
    constructor
    · intro h
      obtain ⟨between, hfirst, request, responses, hrest, hone, rfl⟩ := h
      by_cases hrequest : name = "request"
      · subst hrequest
        obtain ⟨hnone, form, hform, rfl⟩ := readRequest_eq_ok.1 hfirst
        obtain rfl : request = none := by simpa using hone
        exact ⟨some form, responses, .request hform hrest, .inl hnone, by simp [hnone]⟩
      · by_cases hresponse : name = "response"
        · subst hresponse
          obtain ⟨response, hwrites, rfl⟩ := readResponse_eq_ok.1 hfirst
          exact ⟨request, response :: responses, .response hwrites hrest, hone, by simp⟩
        · simp only [Tree.toElement, readExchange, readKeys_ok, except_ok_bind] at hfirst
          cases hfirst
    · intro h
      obtain ⟨request, responses, hwrites, hone, rfl⟩ := h
      cases hwrites with
      | request hform hrest =>
        obtain hnone : operation.request = none := by simpa using hone
        exact ⟨_, readRequest_eq_ok.2 ⟨hnone, _, hform, rfl⟩, none, _, hrest, .inr rfl, by simp [hnone]⟩
      | response hresponse hrest =>
        have hwrites := hresponse
        cases hresponse
        exact ⟨_, readResponse_eq_ok.2 ⟨_, hwrites, rfl⟩, request, _, hrest, hone, by simp⟩

theorem readOperation_eq_ok {scope : Scope} {attributes : List Attribute} {children : List Tree}
    {operation : Operation Form} :
    readOperation scope (Tree.toElement ⟨"operation", attributes, children⟩) = .ok operation ↔
      WritesOperation scope ⟨"operation", attributes, children⟩ operation := by
  simp only [Tree.toElement, readOperation, readKeys_ok, except_ok_bind, except_bind_eq_ok, requireKey_eq_ok]
  constructor
  · intro h
    obtain ⟨name, hname, verbName, hverbName, h⟩ := h
    cases hverb : Verb.ofName? verbName with
    | none =>
      simp only [hverb] at h
      cases h
    | some verb =>
      simp only [hverb, except_bind_eq_ok, requireKey_eq_ok, readExchanges_eq_ok] at h
      obtain ⟨path, hpath, _, ⟨request, responses, hwrites, _, rfl⟩, _, _, h⟩ := h
      cases h
      exact .intro hname hpath hverbName hverb hwrites
  · intro h
    cases h with
    | intro hname hpath hverbName hverb hwrites =>
      refine ⟨_, hname, _, hverbName, ?_⟩
      simp only [hverb, except_bind_eq_ok, requireKey_eq_ok, readExchanges_eq_ok]
      exact ⟨_, hpath, _, ⟨_, _, hwrites, .inl trivial, rfl⟩, (), rfl, rfl⟩

/-- The children of a namespace are read as the format has them, when each of them is. -/
theorem readNamespaceItems_of_item {children : List Tree} {scope : Scope} {contents : Contents}
    (hitem : ∀ child ∈ children, ∀ {scope contents},
      readNamespaceItem scope child.toElement = .ok contents ↔ WritesItem scope child contents) :
    readNamespaceItems scope (toElements children) = .ok contents ↔ WritesItems scope children contents := by
  induction children generalizing contents with
  | nil =>
    constructor
    · intro h
      cases h
      exact .nil
    · rintro ⟨⟩
      rfl
  | cons child rest ih =>
    have hchild := fun {contents} => @hitem child List.mem_cons_self scope contents
    have hrest := fun {contents} => @ih contents fun other hother => hitem other (List.mem_cons_of_mem _ hother)
    rw [toElements, readNamespaceItems]
    simp only [except_bind_eq_ok, hchild, hrest]
    constructor
    · intro h
      obtain ⟨first, hfirst, others, hothers, h⟩ := h
      cases h
      exact .cons hfirst hothers
    · intro h
      cases h with
      | cons hfirst hothers => exact ⟨_, hfirst, _, hothers, rfl⟩

theorem WritesBody.name_mem {tree : Tree} {body : Body} (h : WritesBody tree body) :
    tree.name ∈ ["model", "enum", "union", "scalar"] := by
  cases h <;> simp

theorem readNamespaceItem_namespace {scope : Scope} {attributes : List Attribute} {children : List Tree}
    {contents : Contents} :
    readNamespaceItem scope (Tree.toElement ⟨"namespace", attributes, children⟩) = .ok contents ↔
      ∃ name, key? attributes "name" = some name ∧
        readNamespaceItems (scope ++ Text.splitText '.' name) (toElements children) = .ok contents := by
  simp only [Tree.toElement, readNamespaceItem, if_true, readKeys_ok, except_ok_bind, except_bind_eq_ok,
    readScope, except_map_eq_ok, requireKey_eq_ok]
  constructor
  · intro h
    obtain ⟨_, ⟨name, hname, rfl⟩, _, hitems, _, _, h⟩ := h
    cases h
    exact ⟨name, hname, hitems⟩
  · intro h
    obtain ⟨name, hname, hitems⟩ := h
    exact ⟨_, ⟨name, hname, rfl⟩, _, hitems, (), rfl, rfl⟩

theorem readNamespaceItem_operation {scope : Scope} {attributes : List Attribute} {children : List Tree}
    {contents : Contents} :
    readNamespaceItem scope (Tree.toElement ⟨"operation", attributes, children⟩) = .ok contents ↔
      ∃ operation, WritesOperation scope ⟨"operation", attributes, children⟩ operation ∧
        contents = ⟨[], [operation]⟩ := by
  have hread : readNamespaceItem scope (Tree.toElement ⟨"operation", attributes, children⟩) =
      readOperation scope (Tree.toElement ⟨"operation", attributes, children⟩) >>= fun operation =>
        .ok ⟨[], [operation]⟩ := rfl
  rw [hread]
  simp only [except_bind_eq_ok, readOperation_eq_ok, Except.ok.injEq, eq_comm (b := contents)]

theorem readNamespaceItem_declaration {scope : Scope} {name : String} {attributes : List Attribute}
    {children : List Tree} {contents : Contents} (hnamespace : name ≠ "namespace")
    (hoperation : name ≠ "operation") :
    readNamespaceItem scope (Tree.toElement ⟨name, attributes, children⟩) = .ok contents ↔
      ∃ declaration, WritesDeclaration scope ⟨name, attributes, children⟩ declaration ∧
        contents = ⟨[declaration], []⟩ := by
  have hread : readNamespaceItem scope (Tree.toElement ⟨name, attributes, children⟩) =
      readDeclaration scope (Tree.toElement ⟨name, attributes, children⟩) >>= fun declaration =>
        .ok ⟨[declaration], []⟩ := by
    simp only [Tree.toElement, readNamespaceItem, hnamespace, hoperation, if_false]
    rfl
  rw [hread]
  simp only [except_bind_eq_ok, readDeclaration_eq_ok, Except.ok.injEq, eq_comm (b := contents)]

/-- A child of a namespace that is no namespace is an operation or a declaration. -/
theorem readNamespaceItem_eq_ok {tree : Tree} :
    ∀ {scope : Scope} {contents : Contents},
      readNamespaceItem scope tree.toElement = .ok contents ↔ WritesItem scope tree contents := by
  induction tree using Tree.induct with
  | step name attributes children ih =>
    intro scope contents
    constructor
    · intro h
      by_cases hnamespace : name = "namespace"
      · subst hnamespace
        obtain ⟨title, htitle, hitems⟩ := readNamespaceItem_namespace.1 h
        exact .inner htitle ((readNamespaceItems_of_item ih).1 hitems)
      · by_cases hoperation : name = "operation"
        · subst hoperation
          obtain ⟨operation, hwrites, rfl⟩ := readNamespaceItem_operation.1 h
          exact .operation hwrites
        · obtain ⟨declaration, hwrites, rfl⟩ := (readNamespaceItem_declaration hnamespace hoperation).1 h
          exact .declaration hwrites
    · intro h
      cases h with
      | inner htitle hitems =>
        exact readNamespaceItem_namespace.2 ⟨_, htitle, (readNamespaceItems_of_item ih).2 hitems⟩
      | operation hwrites =>
        have hoperation := hwrites
        cases hoperation
        exact readNamespaceItem_operation.2 ⟨_, hwrites, rfl⟩
      | declaration hwrites =>
        have hname : name ∈ ["model", "enum", "union", "scalar"] := by
          cases hwrites with
          | intro _ hbody => exact hbody.name_mem
        have hnamespace : name ≠ "namespace" := by
          rintro rfl
          simp at hname
        have hoperation : name ≠ "operation" := by
          rintro rfl
          simp at hname
        exact (readNamespaceItem_declaration hnamespace hoperation).2 ⟨_, hwrites, rfl⟩

theorem readSchemaItems_eq_ok {children : List Tree} {contents : Contents} :
    readSchemaItems (toElements children) = .ok contents ↔ WritesNamespaces children contents := by
  induction children generalizing contents with
  | nil =>
    constructor
    · intro h
      cases h
      exact .nil
    · rintro ⟨⟩
      rfl
  | cons child rest ih =>
    have hname : child.toElement.name = child.name := by cases child; rfl
    rw [toElements, readSchemaItems, hname]
    constructor
    · intro h
      split at h
      · next hnamespace =>
        obtain ⟨first, hfirst, h⟩ := except_bind_ok h
        obtain ⟨others, hothers, h⟩ := except_bind_ok h
        cases h
        exact .cons hnamespace (readNamespaceItem_eq_ok.1 hfirst) (ih.1 hothers)
      · cases h
    · intro h
      cases h with
      | cons hnamespace hfirst hothers =>
        rw [if_pos hnamespace]
        exact except_bind_eq_ok.2 ⟨_, readNamespaceItem_eq_ok.2 hfirst, except_bind_eq_ok.2 ⟨_, ih.2 hothers, rfl⟩⟩

theorem readSchema_eq_ok {tree : Tree} {draft : Draft} :
    readSchema tree.toElement = .ok draft ↔ WritesSchema tree draft := by
  obtain ⟨name, attributes, children⟩ := tree
  constructor
  · intro h
    unfold readSchema Tree.toElement at h
    split at h
    · next hname =>
      obtain rfl : name = "schema" := hname
      obtain ⟨_, hkeys, h⟩ := except_bind_ok h
      cases hkeys
      obtain ⟨contents, hcontents, h⟩ := except_bind_ok h
      cases h
      exact .intro (readSchemaItems_eq_ok.1 hcontents)
    · cases h
  · intro h
    cases h with
    | intro hcontents =>
      exact except_bind_eq_ok.2 ⟨_, rfl, except_bind_eq_ok.2 ⟨_, readSchemaItems_eq_ok.2 hcontents, rfl⟩⟩

/-- The draft of a text with one element is that of the element. -/
theorem ofText_writtenIn {tree : Tree} {text : String} (h : tree.WrittenIn text) :
    Draft.ofText text = readSchema tree.toElement := by
  rw [Draft.ofText, h.document, ofDocument]
  simp only [List.mapM_cons, List.mapM_nil]
  cases readSchema tree.toElement <;> rfl

/-- A text with one element has a draft exactly when the element follows the format, and the draft is
the one that the element writes. -/
theorem ofText_eq_ok_iff {tree : Tree} {text : String} (h : tree.WrittenIn text) (draft : Draft) :
    Draft.ofText text = .ok draft ↔ WritesSchema tree draft := by
  rw [ofText_writtenIn h]
  exact readSchema_eq_ok

def modelText : String := "<schema><namespace name='A'><!-- one --><model name=\"M\"/></namespace></schema>"

def modelTree : Tree :=
  ⟨"schema", [], [⟨"namespace", [⟨"name", "A"⟩], [⟨"model", [⟨"name", "M"⟩], []⟩]⟩]⟩

def modelDraft : Draft := ⟨[], ⟨[⟨"M", ["A"], none, .model none []⟩], []⟩⟩

theorem ofText_modelText :
    modelTree.WrittenIn modelText ∧ WritesSchema modelTree modelDraft ∧ Draft.ofText modelText = .ok modelDraft := by
  have htext : modelTree.WrittenIn modelText :=
    .of_tags (Text.toList_literal rfl) (by decide) (.pair _ _ (.cons (.pair _ _ (.cons (.empty _ _) .nil)) .nil))
      (by decide +kernel)
  have hscope : [] ++ Text.splitText '.' "A" = ["A"] := by decide
  have hitems : WritesItems ([] ++ Text.splitText '.' "A") [⟨"model", [⟨"name", "M"⟩], []⟩]
      ⟨[⟨"M", ["A"], none, .model none []⟩], []⟩ := by
    rw [hscope]
    exact .cons (.declaration (.intro rfl (.model .nil))) .nil
  have hwrites : WritesSchema modelTree modelDraft := .intro (.cons rfl (.inner rfl hitems) .nil)
  exact ⟨htext, hwrites, (ofText_eq_ok_iff htext modelDraft).2 hwrites⟩

end SchemaGuards.Draft

namespace SchemaGuards.Graph
open Draft Markup

theorem ofText_eq {text : String} {cs : List Char} (h : text.toList = cs) (hmark : cs.head? ≠ some '\ufeff') :
    Graph.ofText text = Draft.ofDocument (.nest (readTags cs).2 [] [] (readTags cs).1) >>= Draft.link := by
  rw [Graph.ofText, Draft.ofText, Document.ofText_eq h hmark]

/-- A text is read by the rules of the format. Names of phases are better read this way: the kernel computes the
trimmed name anew for every character that it lowers. -/
theorem ofText_of_tree {tree : Tree} {text : String} {draft : Draft} (htree : tree.WrittenIn text)
    (hwrites : WritesSchema tree draft) : Graph.ofText text = draft.link := by
  rw [Graph.ofText, ofText_writtenIn htree, readSchema_eq_ok.2 hwrites, except_ok_bind]

end SchemaGuards.Graph
