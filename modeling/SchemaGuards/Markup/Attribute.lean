import SchemaGuards.Markup.Error

/-!
# Attributes of a tag

After the name, a tag holds keys with quoted values. A value runs to the same quote and is taken as
it is written. Positions count bytes from the start of the name. The first broken rule decides, and a
key may occur once.
-/
namespace SchemaGuards.Markup

/-- The blanks of markup: space, tab and the two line break characters. -/
def isSpace (c : Char) : Bool := c = ' ' || c = '\t' || c = '\r' || c = '\n'

def dropSpace (cs : List Char) : List Char := cs.dropWhile isSpace

def byteLength (cs : List Char) : Nat := cs.foldr (fun c n => c.utf8Size + n) 0

structure Attribute where
  key : String
  value : String
deriving DecidableEq, Repr

/-- The characters before the first occurrence of a closing character, and those after it. -/
def splitAtChar? (closing : Char) : List Char → Option (List Char × List Char)
  | [] => none
  | c :: rest =>
    if c = closing then some ([], rest)
    else (splitAtChar? closing rest).map (fun (before, after) => (c :: before, after))

theorem splitAtChar?_eq_some {closing : Char} {cs before after : List Char}
    (h : splitAtChar? closing cs = some (before, after)) :
    cs = before ++ closing :: after ∧ closing ∉ before := by
  induction cs generalizing before after with
  | nil => simp [splitAtChar?] at h
  | cons c rest ih =>
    simp only [splitAtChar?] at h
    split at h
    · next hc =>
      simp only [Option.some.injEq, Prod.mk.injEq] at h
      simp [← h.1, ← h.2, hc]
    · next hc =>
      simp only [Option.map_eq_some_iff, Prod.mk.injEq, Prod.exists] at h
      obtain ⟨before', after', hs, hb, ha⟩ := h
      obtain ⟨hrest, hmem⟩ := ih hs
      subst hb ha
      exact ⟨by simp [hrest], by simp [hmem, Ne.symm hc]⟩

def readAssignment (total : Nat) (cs : List Char) : Except AttributeError (List Char) :=
  match dropSpace cs with
  | '=' :: rest => .ok rest
  | rest => .error (.unassigned (total - byteLength rest))

def readValue (total : Nat) (cs : List Char) : Except AttributeError (List Char × List Char) :=
  match dropSpace cs with
  | [] => .error (.unvalued total)
  | c :: rest =>
    if c = '"' || c = '\'' then
      match splitAtChar? c rest with
      | some (value, after) => .ok (value, after)
      | none => .error (.unclosed total c)
    else .error (.unquoted (total - byteLength (c :: rest)))

theorem length_dropSpace_le (cs : List Char) : (dropSpace cs).length ≤ cs.length :=
  (List.dropWhile_suffix isSpace).length_le

theorem readAssignment_length {total : Nat} {cs rest : List Char}
    (h : readAssignment total cs = .ok rest) : rest.length < cs.length := by
  have hle := length_dropSpace_le cs
  unfold readAssignment at h
  split at h
  · next hs =>
    simp only [Except.ok.injEq] at h
    rw [hs, h] at hle
    simp only [List.length_cons] at hle
    omega
  · simp at h

theorem readValue_length {total : Nat} {cs value rest : List Char}
    (h : readValue total cs = .ok (value, rest)) : rest.length < cs.length := by
  have hle := length_dropSpace_le cs
  unfold readValue at h
  split at h
  · simp at h
  · next c after hs =>
    split at h
    · split at h
      · next hsplit =>
        simp only [Except.ok.injEq, Prod.mk.injEq] at h
        rw [hs, (splitAtChar?_eq_some hsplit).1, h.2] at hle
        simp only [List.length_cons, List.length_append] at hle
        omega
      · simp at h
    · simp at h

/-- An attribute, with the position of its key and what follows it. -/
structure AttributeRead where
  item : Attribute
  position : Nat
  rest : List Char

def endsKey (c : Char) : Bool := c = '=' || isSpace c

/-- Reads one attribute, if blanks are not all that is left. -/
def readAttribute? (total : Nat) (earlier : List (String × Nat)) (cs : List Char) :
    Except AttributeError (Option AttributeRead) :=
  match dropSpace cs with
  | [] => .ok none
  | c :: rest => do
    let key := String.ofList (c :: rest.takeWhile (fun d => !endsKey d))
    let position := total - byteLength (c :: rest)
    let afterKey ← readAssignment total (rest.dropWhile (fun d => !endsKey d))
    match earlier.find? (fun previous => previous.1 = key) with
    | some previous => .error (.duplicate position previous.2)
    | none => do
      let (value, after) ← readValue total afterKey
      pure (some ⟨⟨key, String.ofList value⟩, position, after⟩)

theorem readAttribute?_length {total : Nat} {earlier : List (String × Nat)} {cs : List Char}
    {found : AttributeRead} (h : readAttribute? total earlier cs = .ok (some found)) :
    found.rest.length < cs.length := by
  have hspace := length_dropSpace_le cs
  unfold readAttribute? at h
  split at h
  · simp at h
  · next c rest hs =>
    simp only [bind, Except.bind, pure, Except.pure] at h
    split at h
    · simp at h
    · next afterKey hassign =>
      have hkey := (List.dropWhile_suffix (l := rest) (fun d => !endsKey d)).length_le
      have hafter := readAssignment_length hassign
      split at h
      · simp at h
      · split at h
        · simp at h
        · next hvalue =>
          simp only [Except.ok.injEq, Option.some.injEq] at h
          have hrest := readValue_length hvalue
          rw [hs] at hspace
          simp only [List.length_cons] at hspace
          rw [← h]
          dsimp only
          omega

/-- The attributes in what follows a tag's name; earlier keys come with their positions. -/
def readAttributes (total : Nat) (earlier : List (String × Nat)) (cs : List Char) :
    Except AttributeError (List Attribute) :=
  match h : readAttribute? total earlier cs with
  | .error error => .error error
  | .ok none => .ok []
  | .ok (some found) =>
    have : found.rest.length < cs.length := readAttribute?_length h
    (readAttributes total ((found.item.key, found.position) :: earlier) found.rest).map
      (fun more => found.item :: more)
termination_by cs.length

end SchemaGuards.Markup
