import SchemaGuards.Markup.Attribute

/-!
# Tags

A markup text is a sequence of tags. Character data, references, comments, instructions and document
types stand between them and only have to be closed. Reading stops at the first broken rule, and what
was read before it stays.
-/
namespace SchemaGuards.Markup

abbrev Attributes := Except AttributeError (List Attribute)

inductive Tag where
  | start (name : String) (attributes : Attributes)
  /-- A tag that opens and closes an element. -/
  | empty (name : String) (attributes : Attributes)
  | close (name : String)

/-- What follows the next opening angle bracket in character data, where every ampersand needs its
semicolon. -/
def afterText (inReference : Bool) : List Char → Except SyntaxError (Option (List Char))
  | [] => if inReference then .error .unclosedReference else .ok none
  | c :: rest =>
    if c = '<' then if inReference then .error .unclosedReference else .ok (some rest)
    else if c = '&' then if inReference then .error .unclosedReference else afterText true rest
    else afterText (inReference && c != ';') rest

/-- What follows the first occurrence of a closing text. -/
def afterClosing? (closing : List Char) : List Char → Option (List Char)
  | [] => if closing.isEmpty then some [] else none
  | c :: rest =>
    if closing.isPrefixOf (c :: rest) then some ((c :: rest).drop closing.length)
    else afterClosing? closing rest

/-- The quote that is open behind a character. -/
def quotedAfter (quoted : Option Char) (c : Char) : Option Char :=
  match quoted with
  | some quote => if c = quote then none else some quote
  | none => if c = '"' || c = '\'' then some c else none

/-- The content of a tag up to the first closing bracket outside quotes, and what follows it. -/
def splitTag (quoted : Option Char) : List Char → Except SyntaxError (List Char × List Char)
  | [] => .error (quoted.elim .unclosedTag .unclosedValue)
  | c :: rest =>
    if quoted = none && c = '>' then .ok ([], rest)
    else (splitTag (quotedAfter quoted c) rest).map (fun (content, after) => (c :: content, after))

def readElementTag (content : List Char) : String × Attributes :=
  (String.ofList (content.takeWhile (fun c => !isSpace c)),
    readAttributes (byteLength content) [] (content.dropWhile (fun c => !isSpace c)))

/-- The name in an end tag, without the spaces behind it; a name of spaces alone is kept. -/
def closingName (content : List Char) : List Char :=
  if content.all isSpace then content else (content.reverse.dropWhile isSpace).reverse

def Tag.ofContent (content : List Char) : Tag :=
  match content with
  | '/' :: name => .close (String.ofList (closingName name))
  | _ =>
    if content.getLast? = some '/' then
      let (name, attributes) := readElementTag content.dropLast
      .empty name attributes
    else
      let (name, attributes) := readElementTag content
      .start name attributes

/-- Where a document type declaration stands between two characters. -/
inductive DoctypeState where
  | outer (quoted : Option Char)
  /-- Inside the square brackets. -/
  | subset
  | comment
  | instruction
  /-- A declaration of the subset whose quotes hide the closing bracket. -/
  | quotable (quoted : Option Char)
  /-- Any other tag of the subset. -/
  | tag
  | tail
deriving DecidableEq, Repr

def quotableKeywords : List (List Char) :=
  ["!ENTITY".toList, "!ATTLIST".toList, "!NOTATION".toList]

def afterDoctype? (state : DoctypeState) : List Char → Option (List Char)
  | [] => none
  | c :: rest =>
    match state with
    | .outer none =>
      if c = '>' then some rest
      else if c = '[' then afterDoctype? .subset rest
      else afterDoctype? (.outer (quotedAfter none c)) rest
    | .outer (some quote) => afterDoctype? (.outer (quotedAfter (some quote) c)) rest
    | .subset =>
      if c = ']' then afterDoctype? .tail rest
      else if c = '<' then
        match rest with
        | '!' :: '-' :: '-' :: more => afterDoctype? .comment more
        | '?' :: more => afterDoctype? .instruction more
        | more =>
          if quotableKeywords.any (fun keyword => keyword.isPrefixOf more) then
            afterDoctype? (.quotable none) more
          else afterDoctype? .tag more
      else afterDoctype? .subset rest
    | .comment =>
      match c, rest with
      | '-', '-' :: '>' :: more => afterDoctype? .subset more
      | _, more => afterDoctype? .comment more
    | .instruction =>
      match c, rest with
      | '?', '>' :: more => afterDoctype? .subset more
      | _, more => afterDoctype? .instruction more
    | .quotable none =>
      if c = '>' then afterDoctype? .subset rest
      else afterDoctype? (.quotable (quotedAfter none c)) rest
    | .quotable (some quote) => afterDoctype? (.quotable (quotedAfter (some quote) c)) rest
    | .tag => if c = '>' then afterDoctype? .subset rest else afterDoctype? .tag rest
    | .tail => if c = '>' then some rest else afterDoctype? .tail rest

def isDoctypeKeyword (cs : List Char) : Bool := cs.map Char.toUpper = "DOCTYPE".toList

/-- What follows a construct, which has to be closed. -/
def closed (error : SyntaxError) (after : Option (List Char)) : Except SyntaxError (List Char) :=
  after.elim (.error error) .ok

theorem closed_eq_ok {error : SyntaxError} {after : Option (List Char)} {rest : List Char} :
    closed error after = .ok rest ↔ after = some rest := by
  cases after <;> simp [closed]

def readDeclaration : List Char → Except SyntaxError (List Char)
  | '-' :: rest =>
    match rest with
    | '-' :: body => closed .unclosedComment (afterClosing? "-->".toList body)
    | _ => .error .unclosedComment
  | '[' :: rest =>
    if "CDATA[".toList.isPrefixOf rest then
      closed .unclosedCharacterData (afterClosing? "]]>".toList (rest.drop 6))
    else .error .unclosedCharacterData
  | c :: rest =>
    if c = 'D' || c = 'd' then
      if isDoctypeKeyword ((c :: rest).take 7) then
        if (dropSpace (rest.drop 6)).head? = some '>' then .error .namelessDoctype
        else closed .unclosedDoctype (afterDoctype? (.outer none) (rest.drop 6))
      else .error .unclosedDoctype
    else .error .unknownMarkup
  | [] => .error .unknownMarkup

/-- Whether an instruction that is never closed is the declaration at the head of a document. -/
def startsDeclaration (cs : List Char) : Bool :=
  "xml".toList.isPrefixOf cs && (cs.drop 3).head?.all (fun c => isSpace c || c = '?')

def readInstruction (cs : List Char) : Except SyntaxError (List Char) :=
  if cs.head? = some '>' then .error .unclosedInstruction
  else
    match afterClosing? "?>".toList cs with
    | some after => .ok after
    | none => .error (if startsDeclaration cs then .unclosedDeclaration else .unclosedInstruction)

/-- Reads what follows an opening angle bracket: a tag, or markup that is passed over. -/
def readMarkup : List Char → Except SyntaxError (Option Tag × List Char)
  | '!' :: rest => (readDeclaration rest).map (fun after => (none, after))
  | '?' :: rest => (readInstruction rest).map (fun after => (none, after))
  | cs => (splitTag none cs).map (fun (content, after) => (some (Tag.ofContent content), after))

theorem afterText_length {inReference : Bool} {cs rest : List Char}
    (h : afterText inReference cs = .ok (some rest)) : rest.length < cs.length := by
  induction cs generalizing inReference with
  | nil => cases inReference <;> simp [afterText] at h
  | cons c cs ih =>
    simp only [afterText] at h
    split at h
    · split at h
      · simp at h
      · simp only [Except.ok.injEq, Option.some.injEq] at h
        simp [h]
    · split at h
      · split at h
        · simp at h
        · have := ih h
          simp only [List.length_cons]
          omega
      · have := ih h
        simp only [List.length_cons]
        omega

theorem afterClosing?_length {closing cs rest : List Char}
    (h : afterClosing? closing cs = some rest) : rest.length ≤ cs.length := by
  induction cs with
  | nil =>
    simp only [afterClosing?] at h
    split at h <;> simp at h
    simp [h]
  | cons c cs ih =>
    simp only [afterClosing?] at h
    split at h
    · simp only [Option.some.injEq] at h
      rw [← h]
      simp only [List.length_drop]
      omega
    · have := ih h
      simp only [List.length_cons]
      omega

theorem splitTag_length {quoted : Option Char} {cs content rest : List Char}
    (h : splitTag quoted cs = .ok (content, rest)) : rest.length ≤ cs.length := by
  induction cs generalizing quoted content with
  | nil => cases quoted <;> simp [splitTag] at h
  | cons c cs ih =>
    simp only [splitTag] at h
    split at h
    · simp only [Except.ok.injEq, Prod.mk.injEq] at h
      simp [← h.2]
    · simp only [Except.map] at h
      split at h
      · simp at h
      · next result hr =>
        obtain ⟨content', rest'⟩ := result
        simp only [Except.ok.injEq, Prod.mk.injEq] at h
        obtain ⟨_, rfl⟩ := h
        have := ih hr
        simp only [List.length_cons]
        omega

theorem afterDoctype?_length {state : DoctypeState} {cs rest : List Char}
    (h : afterDoctype? state cs = some rest) : rest.length ≤ cs.length := by
  fun_induction afterDoctype? state cs <;> grind

theorem readDeclaration_length {cs rest : List Char} (h : readDeclaration cs = .ok rest) :
    rest.length ≤ cs.length := by
  unfold readDeclaration at h
  split at h
  · split at h
    · have := afterClosing?_length (closed_eq_ok.1 h)
      simp only [List.length_cons]
      omega
    · simp at h
  · split at h
    · have := afterClosing?_length (closed_eq_ok.1 h)
      simp only [List.length_drop] at this
      simp only [List.length_cons]
      omega
    · simp at h
  · split at h
    · split at h
      · split at h
        · simp at h
        · have := afterDoctype?_length (closed_eq_ok.1 h)
          simp only [List.length_drop] at this
          simp only [List.length_cons]
          omega
      · simp at h
    · simp at h
  · simp at h

theorem readInstruction_length {cs rest : List Char} (h : readInstruction cs = .ok rest) :
    rest.length ≤ cs.length := by
  unfold readInstruction at h
  split at h
  · simp at h
  · split at h
    · next after hc =>
      simp only [Except.ok.injEq] at h
      exact h ▸ afterClosing?_length hc
    · simp at h

theorem readMarkup_length {cs rest : List Char} {tag : Option Tag}
    (h : readMarkup cs = .ok (tag, rest)) : rest.length ≤ cs.length := by
  unfold readMarkup at h
  simp only [Except.map] at h
  split at h
  · split at h
    · simp at h
    · next hr =>
      simp only [Except.ok.injEq, Prod.mk.injEq] at h
      have := readDeclaration_length hr
      simp only [List.length_cons, ← h.2]
      omega
  · split at h
    · simp at h
    · next hr =>
      simp only [Except.ok.injEq, Prod.mk.injEq] at h
      have := readInstruction_length hr
      simp only [List.length_cons, ← h.2]
      omega
  · split at h
    · simp at h
    · next hr =>
      simp only [Except.ok.injEq, Prod.mk.injEq] at h
      exact h.2 ▸ splitTag_length hr

/-- The tags of a text up to its first broken rule, and that rule. -/
def readTags (cs : List Char) : List Tag × Option SyntaxError :=
  match h : afterText false cs with
  | .error error => ([], some error)
  | .ok none => ([], none)
  | .ok (some body) =>
    match h' : readMarkup body with
    | .error error => ([], some error)
    | .ok (tag, rest) =>
      have : rest.length < cs.length := Nat.lt_of_le_of_lt (readMarkup_length h') (afterText_length h)
      let (more, error) := readTags rest
      (tag.toList ++ more, error)
termination_by cs.length

end SchemaGuards.Markup
