import SchemaGuards.Decimal.Literal
import SchemaGuards.Proofs.Format.Tree

/-!
# Spelled documents

A text of markup has blanks inside its tags, quotes of two kinds, passages that are no tags, and
references for characters in attribute values. A spelled tree keeps of all this what the values are
written with, so that it has two trees: one with the values as they are written and one with the values
that are meant. The reader gets the tree as it is written, whatever the layout.
-/
namespace SchemaGuards.Markup

def entities : List (List Char × Char) :=
  [("amp".toList, '&'), ("lt".toList, '<'), ("gt".toList, '>'), ("quot".toList, '"'), ("apos".toList, '\'')]

def hexDigit? (c : Char) : Option Nat := "0123456789abcdef".toList.idxOf? c.toLower

def hexValue (cs : List Char) : Nat := cs.foldl (fun n c => 16 * n + (hexDigit? c).getD 0) 0

/-- What may stand between an ampersand and a semicolon, and the character that it refers to. -/
inductive Reference : List Char → Char → Prop
  | named {name : List Char} {c : Char} : (name, c) ∈ entities → Reference name c
  | decimal {digits : List Char} {c : Char} :
    digits ≠ [] → (∀ d ∈ digits, d.isDigit = true) → Decimal.digitValue digits = c.toNat →
    Reference ('#' :: digits) c
  | hexadecimal {digits : List Char} {c : Char} :
    digits ≠ [] → (∀ d ∈ digits, (hexDigit? d).isSome = true) → hexValue digits = c.toNat →
    Reference ('#' :: 'x' :: digits) c

inductive Piece where
  | plain (c : Char)
  | reference (name : List Char) (c : Char)

def Piece.written : Piece → List Char
  | .plain c => [c]
  | .reference name _ => '&' :: (name ++ [';'])

def Piece.meant : Piece → Char
  | .plain c => c
  | .reference _ c => c

def Piece.isPlain : Piece → Bool
  | .plain _ => true
  | .reference .. => false

def Piece.Fits (quote : Char) : Piece → Prop
  | .plain c => c ≠ quote ∧ c ≠ '&' ∧ c ≠ '<' ∧ (isSpace c = true → c = ' ')
  | .reference name c => Reference name c

/-- An attribute with the way in which its value is written. -/
structure Spelling where
  key : String
  quote : Char
  pieces : List Piece

def Spelling.written (spelling : Spelling) : Attribute :=
  ⟨spelling.key, String.ofList (spelling.pieces.flatMap Piece.written)⟩

def Spelling.meant (spelling : Spelling) : Attribute :=
  ⟨spelling.key, String.ofList (spelling.pieces.map Piece.meant)⟩

def Spelling.isPlain (spelling : Spelling) : Bool := spelling.pieces.all Piece.isPlain

/-- A tree with the way in which its attributes are written. -/
structure Spelled where
  name : String
  attributes : List Spelling
  children : List Spelled

mutual
def Spelled.tree (read : Spelling → Attribute) : Spelled → Tree
  | ⟨name, attributes, children⟩ => ⟨name, attributes.map read, spelledTrees read children⟩
termination_by structural spelled => spelled

def spelledTrees (read : Spelling → Attribute) : List Spelled → List Tree
  | [] => []
  | spelled :: rest => spelled.tree read :: spelledTrees read rest
end

def Spelled.written (spelled : Spelled) : Tree := spelled.tree Spelling.written

def Spelled.meant (spelled : Spelled) : Tree := spelled.tree Spelling.meant

mutual
def Spelled.spellings : Spelled → List Spelling
  | ⟨_, attributes, children⟩ => attributes ++ childSpellings children
termination_by structural spelled => spelled

def childSpellings : List Spelled → List Spelling
  | [] => []
  | spelled :: rest => spelled.spellings ++ childSpellings rest
end

def Blanks (cs : List Char) : Prop := ∀ c ∈ cs, isSpace c = true

/-- A name that can stand in a tag; every name of markup is one. -/
def IsName (cs : List Char) : Prop :=
  cs ≠ [] ∧ ∀ c ∈ cs, isSpace c = false ∧ c ∉ ['<', '>', '&', '=', '/', '!', '?', '"', '\'']

-- Both are decided by the characters at hand; there are finitely many characters, but far too many to try.
instance (cs : List Char) : Decidable (Blanks cs) := List.decidableBAll (fun c => isSpace c = true) cs

instance (cs : List Char) : Decidable (IsName cs) :=
  @instDecidableAnd _ _ _ (List.decidableBAll
    (fun c => isSpace c = false ∧ c ∉ ['<', '>', '&', '=', '/', '!', '?', '"', '\'']) cs)

/-- The text of an attribute: its key, an equals sign and its value between quotes. -/
inductive SpellingText (spelling : Spelling) : List Char → Prop
  | intro {before behind : List Char} :
    IsName spelling.key.toList → Blanks before → Blanks behind → spelling.quote = '"' ∨ spelling.quote = '\'' →
    (∀ piece ∈ spelling.pieces, piece.Fits spelling.quote) →
    SpellingText spelling (spelling.key.toList ++ before ++ '=' :: (behind ++ spelling.quote ::
      (spelling.pieces.flatMap Piece.written ++ [spelling.quote])))

/-- The text of the attributes of a tag, with blanks in front of each and no key twice. -/
inductive SpellingsText : List Spelling → List Char → Prop
  | nil : SpellingsText [] []
  | cons {spelling : Spelling} {rest : List Spelling} {blanks text more : List Char} :
    blanks ≠ [] → Blanks blanks → SpellingText spelling text → spelling.key ∉ rest.map Spelling.key →
    SpellingsText rest more → SpellingsText (spelling :: rest) (blanks ++ text ++ more)

/-- A passage in front of a tag that the reader of tags passes over. -/
def PassedOver (cs : List Char) : Prop := ∀ rest, readTags (cs ++ '<' :: rest) = readTags ('<' :: rest)

mutual
/-- The text of a spelled tree, from the bracket that opens it to the one that closes it. -/
inductive Spelled.Text : Spelled → List Char → Prop
  | empty {name : String} {attributes : List Spelling} {text blanks : List Char} :
    IsName name.toList → SpellingsText attributes text → Blanks blanks →
    Spelled.Text ⟨name, attributes, []⟩ ('<' :: (name.toList ++ text ++ blanks ++ ['/', '>']))
  | pair {name : String} {attributes : List Spelling} {children : List Spelled}
    {text blanks inside between blanks' : List Char} :
    IsName name.toList → SpellingsText attributes text → Blanks blanks → ChildrenText children inside →
    PassedOver between → Blanks blanks' →
    Spelled.Text ⟨name, attributes, children⟩ ('<' :: (name.toList ++ text ++ blanks ++ '>' ::
      (inside ++ between ++ '<' :: '/' :: (name.toList ++ blanks' ++ ['>']))))

inductive ChildrenText : List Spelled → List Char → Prop
  | nil : ChildrenText [] []
  | cons {spelled : Spelled} {rest : List Spelled} {between text more : List Char} :
    PassedOver between → spelled.Text text → ChildrenText rest more →
    ChildrenText (spelled :: rest) (between ++ text ++ more)
end

/-- A text that holds one spelled tree, with passages before and behind it. -/
def Spelled.SpelledIn (spelled : Spelled) (text : String) : Prop :=
  ∃ before inside behind, withoutMark text = before ++ inside ++ behind ∧
    PassedOver before ∧ spelled.Text inside ∧ readTags behind = ([], none)

theorem spellingText_tight {spelling : Spelling} (hkey : IsName spelling.key.toList)
    (hquote : spelling.quote = '"' ∨ spelling.quote = '\'')
    (hfits : ∀ piece ∈ spelling.pieces, piece.Fits spelling.quote) :
    SpellingText spelling (spelling.key.toList ++ '=' :: spelling.quote ::
      (spelling.pieces.flatMap Piece.written ++ [spelling.quote])) := by
  have htext := SpellingText.intro hkey (List.forall_mem_nil _) (List.forall_mem_nil _) hquote hfits
  simpa using htext

/-! ## Values as they are written and as they are meant -/

theorem length_flatMap_written (pieces : List Piece) :
    pieces.length ≤ (pieces.flatMap Piece.written).length ∧
      ((pieces.flatMap Piece.written).length = pieces.length → pieces.all Piece.isPlain = true) := by
  induction pieces with
  | nil => simp
  | cons piece rest ih =>
    cases piece with
    | plain c =>
      simp only [List.flatMap_cons, Piece.written, List.length_append, List.length_cons, List.length_nil,
        List.all_cons, Piece.isPlain, Bool.true_and]
      exact ⟨by omega, fun h => ih.2 (by omega)⟩
    | reference name c =>
      simp only [List.flatMap_cons, Piece.written, List.length_append, List.length_cons, List.length_nil]
      exact ⟨by omega, fun h => by omega⟩

theorem flatMap_written_of_plain {pieces : List Piece} (h : pieces.all Piece.isPlain = true) :
    pieces.flatMap Piece.written = pieces.map Piece.meant := by
  induction pieces with
  | nil => rfl
  | cons piece rest ih =>
    rw [List.all_cons, Bool.and_eq_true] at h
    rw [List.flatMap_cons, List.map_cons, ih h.2]
    cases piece with
    | plain c => rfl
    | reference name c => cases h.1

/-- A value is written as it is meant exactly when no reference is used: a reference is longer than
the character that it stands for. -/
theorem Spelling.written_eq_meant {spelling : Spelling} :
    spelling.written = spelling.meant ↔ spelling.isPlain = true := by
  unfold Spelling.written Spelling.meant Spelling.isPlain
  simp only [Attribute.mk.injEq, true_and, String.ofList_inj]
  constructor
  · intro h
    apply (length_flatMap_written spelling.pieces).2
    rw [h, List.length_map]
  · exact flatMap_written_of_plain

mutual
/-- Two readings of spellings give one tree exactly when they agree on all spellings of the tree. -/
theorem tree_eq_tree {read read' : Spelling → Attribute} (spelled : Spelled) :
    spelled.tree read = spelled.tree read' ↔ ∀ spelling ∈ spelled.spellings, read spelling = read' spelling := by
  obtain ⟨name, attributes, children⟩ := spelled
  rw [Spelled.tree, Spelled.tree, Spelled.spellings]
  simp only [Tree.mk.injEq, true_and, List.map_inj_left, spelledTrees_eq children, List.forall_mem_append]
termination_by structural spelled

theorem spelledTrees_eq {read read' : Spelling → Attribute} (children : List Spelled) :
    spelledTrees read children = spelledTrees read' children ↔
      ∀ spelling ∈ childSpellings children, read spelling = read' spelling := by
  cases children with
  | nil => simp [spelledTrees, childSpellings]
  | cons spelled rest =>
    rw [spelledTrees, spelledTrees, childSpellings, List.cons.injEq, tree_eq_tree spelled, spelledTrees_eq rest,
      List.forall_mem_append]
termination_by structural children
end

/-- A spelled tree is read as it is meant exactly when none of its values has a reference. -/
theorem Spelled.written_eq_meant {spelled : Spelled} :
    spelled.written = spelled.meant ↔ ∀ spelling ∈ spelled.spellings, spelling.isPlain = true := by
  rw [Spelled.written, Spelled.meant, tree_eq_tree]
  simp only [Spelling.written_eq_meant]

/-! ## Attributes -/

theorem dropSpace_append {blanks cs : List Char} (h : Blanks blanks) : dropSpace (blanks ++ cs) = dropSpace cs := by
  rw [dropSpace, List.dropWhile_append_of_pos h, dropSpace]

theorem dropSpace_cons {c : Char} {cs : List Char} (h : isSpace c = false) : dropSpace (c :: cs) = c :: cs := by
  rw [dropSpace, List.dropWhile_cons_of_neg (by simp [h])]

theorem splitAtChar?_append {closing : Char} {before after : List Char} (h : closing ∉ before) :
    splitAtChar? closing (before ++ closing :: after) = some (before, after) := by
  induction before with
  | nil => simp [splitAtChar?]
  | cons c rest ih =>
    rw [List.mem_cons, not_or] at h
    rw [List.cons_append, splitAtChar?, if_neg (Ne.symm h.1), ih h.2]
    rfl

theorem not_mem_of_reference {name : List Char} {c quote : Char} (hquote : quote = '"' ∨ quote = '\'')
    (h : Reference name c) : quote ∉ name := by
  have hdigit : quote.isDigit = false ∧ hexDigit? quote = none ∧ quote ≠ '#' ∧ quote ≠ 'x' := by
    obtain rfl | rfl := hquote <;> decide
  obtain ⟨hdigit, hhex, hhash, hx⟩ := hdigit
  cases h with
  | named hentity =>
    have hnames : ∀ entity ∈ entities, '"' ∉ entity.1 ∧ '\'' ∉ entity.1 := by decide
    have hname := hnames _ hentity
    obtain rfl | rfl := hquote
    · exact hname.1
    · exact hname.2
  | decimal _ hdigits _ =>
    intro hmem
    obtain rfl | hmem := List.mem_cons.1 hmem
    · exact hhash rfl
    · exact Bool.false_ne_true (hdigit.symm.trans (hdigits quote hmem))
  | hexadecimal _ hdigits _ =>
    intro hmem
    obtain rfl | hmem := List.mem_cons.1 hmem
    · exact hhash rfl
    · obtain rfl | hmem := List.mem_cons.1 hmem
      · exact hx rfl
      · have hsome := hdigits quote hmem
        rw [hhex] at hsome
        cases hsome

/-- No piece that fits between two quotes holds the quote. -/
theorem not_mem_written {quote : Char} {pieces : List Piece} (hquote : quote = '"' ∨ quote = '\'')
    (h : ∀ piece ∈ pieces, piece.Fits quote) : quote ∉ pieces.flatMap Piece.written := by
  rw [List.mem_flatMap]
  intro hmem
  obtain ⟨piece, hpiece, hmem⟩ := hmem
  cases piece with
  | plain c =>
    have hne := (h _ hpiece).1
    exact hne (List.mem_singleton.1 hmem).symm
  | reference name c =>
    have hname := not_mem_of_reference hquote (h _ hpiece)
    simp only [Piece.written, List.mem_cons, List.mem_append, List.not_mem_nil, or_false] at hmem
    obtain rfl | hmem | rfl := hmem
    · exact absurd hquote (by decide)
    · exact hname hmem
    · exact absurd hquote (by decide)

theorem span_key {key before rest : List Char} (hkey : ∀ c ∈ key, endsKey c = false) (hbefore : Blanks before) :
    (key ++ (before ++ '=' :: rest)).takeWhile (fun c => !endsKey c) = key ∧
      (key ++ (before ++ '=' :: rest)).dropWhile (fun c => !endsKey c) = before ++ '=' :: rest := by
  have hpos : ∀ c ∈ key, (!endsKey c) = true := fun c hc => by simp [hkey c hc]
  rw [List.takeWhile_append_of_pos hpos, List.dropWhile_append_of_pos hpos]
  cases before with
  | nil => simp [endsKey]
  | cons c more =>
    have hc : isSpace c = true := hbefore c List.mem_cons_self
    simp [endsKey, hc]

theorem readAssignment_blanks {total : Nat} {blanks rest : List Char} (h : Blanks blanks) :
    readAssignment total (blanks ++ '=' :: rest) = .ok rest := by
  have hdrop : dropSpace (blanks ++ '=' :: rest) = '=' :: rest := by
    rw [dropSpace_append h, dropSpace_cons (by decide)]
  simp only [readAssignment, hdrop]

theorem readValue_quoted {total : Nat} {blanks value rest : List Char} {quote : Char} (h : Blanks blanks)
    (hquote : quote = '"' ∨ quote = '\'') (hvalue : quote ∉ value) :
    readValue total (blanks ++ quote :: (value ++ quote :: rest)) = .ok (value, rest) := by
  have hspace : isSpace quote = false := by
    obtain rfl | rfl := hquote <;> decide
  have hdrop : dropSpace (blanks ++ quote :: (value ++ quote :: rest)) = quote :: (value ++ quote :: rest) := by
    rw [dropSpace_append h, dropSpace_cons hspace]
  simp only [readValue, hdrop, splitAtChar?_append hvalue]
  simp [hquote]

/-- An attribute is read as it is written, whatever its quotes and the blanks in it. -/
theorem readAttribute?_spelling {spelling : Spelling} {blanks text : List Char} (total : Nat)
    {earlier : List (String × Nat)} (more : List Char) (hblanks : Blanks blanks)
    (htext : SpellingText spelling text) (hkey : ∀ previous ∈ earlier, previous.1 ≠ spelling.key) :
    ∃ position, readAttribute? total earlier (blanks ++ (text ++ more)) =
      .ok (some ⟨spelling.written, position, more⟩) := by
  cases htext with
  | @intro before behind hname hbefore hbehind hquote hfits =>
  have hvalue := not_mem_written hquote hfits
  obtain ⟨hne, hchars⟩ := hname
  obtain ⟨c, rest, hlist⟩ := List.exists_cons_of_ne_nil hne
  have hends : ∀ d ∈ spelling.key.toList, isSpace d = false ∧ endsKey d = false := by
    intro d hd
    have hd' := hchars d hd
    simp only [List.mem_cons, not_or] at hd'
    exact ⟨hd'.1, by simp [endsKey, hd'.1, hd'.2]⟩
  have hspan := @span_key rest before (behind ++ spelling.quote ::
    (spelling.pieces.flatMap Piece.written ++ spelling.quote :: more))
    (fun d hd => (hends d (hlist ▸ List.mem_cons_of_mem _ hd)).2) hbefore
  have hfind : earlier.find? (fun previous => previous.1 = spelling.key) = none := by
    rw [List.find?_eq_none]
    intro previous hprevious
    simpa using hkey previous hprevious
  have hofList : String.ofList (c :: rest) = spelling.key := by
    rw [← hlist, String.ofList_toList]
  have hdrop : dropSpace (blanks ++ (spelling.key.toList ++ before ++ '=' :: (behind ++ spelling.quote ::
      (spelling.pieces.flatMap Piece.written ++ [spelling.quote])) ++ more)) =
      c :: (rest ++ (before ++ '=' :: (behind ++ spelling.quote ::
        (spelling.pieces.flatMap Piece.written ++ spelling.quote :: more)))) := by
    rw [dropSpace_append hblanks, hlist, List.cons_append, List.cons_append, List.cons_append,
      dropSpace_cons (hends c (by rw [hlist]; simp)).1]
    simp
  unfold readAttribute?
  simp only [bind, Except.bind, hdrop, hspan.1, hspan.2, hofList, hfind, readAssignment_blanks hbefore,
    readValue_quoted hbehind hquote hvalue]
  exact ⟨_, rfl⟩

theorem readAttribute?_blanks {total : Nat} {earlier : List (String × Nat)} {blanks : List Char}
    (h : Blanks blanks) : readAttribute? total earlier blanks = .ok none := by
  have hdrop : dropSpace blanks = [] := by
    rw [← List.append_nil blanks, dropSpace_append h]
    rfl
  unfold readAttribute?
  simp only [hdrop]

/-- The attributes of a tag are read as they are written. -/
theorem readAttributes_spellings {spellings : List Spelling} {text blanks : List Char} {total : Nat}
    {earlier : List (String × Nat)} (htext : SpellingsText spellings text) (hblanks : Blanks blanks)
    (hkeys : ∀ spelling ∈ spellings, ∀ previous ∈ earlier, previous.1 ≠ spelling.key) :
    readAttributes total earlier (text ++ blanks) = .ok (spellings.map Spelling.written) := by
  induction spellings generalizing text earlier with
  | nil =>
    cases htext
    rw [readAttributes]
    split
    · next h =>
      rw [List.nil_append, readAttribute?_blanks hblanks] at h
      cases h
    · rfl
    · next h =>
      rw [List.nil_append, readAttribute?_blanks hblanks] at h
      cases h
  | cons spelling rest ih =>
    cases htext with
    | @cons _ _ front text more _ hfront hspelling hkey hrest =>
      obtain ⟨position, hread⟩ := readAttribute?_spelling total (more ++ blanks) hfront hspelling
        (hkeys spelling List.mem_cons_self)
      have hsplit : front ++ text ++ more ++ blanks = front ++ (text ++ (more ++ blanks)) := by simp
      have hfresh : ∀ other ∈ rest, ∀ previous ∈ (spelling.key, position) :: earlier, previous.1 ≠ other.key := by
        intro other hother previous hprevious
        obtain rfl | hprevious := List.mem_cons.1 hprevious
        · intro hsame
          apply hkey
          rw [show spelling.key = other.key from hsame]
          exact List.mem_map_of_mem hother
        · exact hkeys other (List.mem_cons_of_mem _ hother) previous hprevious
      have hothers := ih hrest hfresh
      rw [readAttributes, hsplit]
      split
      · next h =>
        cases hread.symm.trans h
      · next h =>
        cases hread.symm.trans h
      · next found h =>
        cases hread.symm.trans h
        rw [List.map_cons]
        exact congrArg (Except.map _) hothers

/-! ## Tags -/

theorem splitTag_cons {c : Char} {cs content rest : List Char} (h : c ≠ '>' ∧ c ≠ '"' ∧ c ≠ '\'')
    (hsplit : splitTag none cs = .ok (content, rest)) : splitTag none (c :: cs) = .ok (c :: content, rest) := by
  have hquoted : quotedAfter none c = none := by simp [quotedAfter, h.2]
  rw [splitTag, hquoted, hsplit]
  simp [h.1, Except.map]

theorem splitTag_append {front cs content rest : List Char}
    (h : ∀ c ∈ front, c ≠ '>' ∧ c ≠ '"' ∧ c ≠ '\'') (hsplit : splitTag none cs = .ok (content, rest)) :
    splitTag none (front ++ cs) = .ok (front ++ content, rest) := by
  induction front with
  | nil => exact hsplit
  | cons c more ih =>
    exact splitTag_cons (h c List.mem_cons_self) (ih fun d hd => h d (List.mem_cons_of_mem _ hd))

/-- What stands between two quotes belongs to the content, closing brackets included. -/
theorem splitTag_inside {quote : Char} {value cs content rest : List Char} (h : quote ∉ value)
    (hsplit : splitTag none cs = .ok (content, rest)) :
    splitTag (some quote) (value ++ quote :: cs) = .ok (value ++ quote :: content, rest) := by
  induction value with
  | nil =>
    rw [List.nil_append, splitTag]
    simp [quotedAfter, hsplit, Except.map]
  | cons c more ih =>
    rw [List.mem_cons, not_or] at h
    rw [List.cons_append, splitTag]
    simp [quotedAfter, Ne.symm h.1, ih h.2, Except.map]

theorem IsName.no_bracket {name : List Char} (h : IsName name) : ∀ c ∈ name, c ≠ '>' ∧ c ≠ '"' ∧ c ≠ '\'' := by
  intro c hc
  have hchar := (h.2 c hc).2
  simp only [List.mem_cons, not_or] at hchar
  exact ⟨hchar.2.1, hchar.2.2.2.2.2.2.2.1, hchar.2.2.2.2.2.2.2.2.1⟩

theorem Blanks.no_bracket {blanks : List Char} (h : Blanks blanks) :
    ∀ c ∈ blanks, c ≠ '>' ∧ c ≠ '"' ∧ c ≠ '\'' := by
  intro c hc
  have hspace := h c hc
  refine ⟨?_, ?_, ?_⟩ <;> rintro rfl <;> cases hspace

theorem splitTag_spelling {spelling : Spelling} {text cs content rest : List Char}
    (htext : SpellingText spelling text) (hsplit : splitTag none cs = .ok (content, rest)) :
    splitTag none (text ++ cs) = .ok (text ++ content, rest) := by
  cases htext with
  | @intro before behind hname hbefore hbehind hquote hfits =>
  have hvalue := splitTag_inside (not_mem_written hquote hfits) hsplit
  have hquoted : splitTag none (spelling.quote :: (spelling.pieces.flatMap Piece.written ++ spelling.quote :: cs)) =
      .ok (spelling.quote :: (spelling.pieces.flatMap Piece.written ++ spelling.quote :: content), rest) := by
    have hopens : quotedAfter none spelling.quote = some spelling.quote ∧ spelling.quote ≠ '>' := by
      obtain h | h := hquote <;> rw [h] <;> decide
    rw [splitTag, hopens.1, hvalue]
    simp [hopens.2, Except.map]
  have hassign := splitTag_cons (c := '=') (by decide) (splitTag_append hbehind.no_bracket hquoted)
  have hall := splitTag_append hname.no_bracket (splitTag_append hbefore.no_bracket hassign)
  simpa using hall

theorem splitTag_spellings {spellings : List Spelling} {text cs content rest : List Char}
    (htext : SpellingsText spellings text) (hsplit : splitTag none cs = .ok (content, rest)) :
    splitTag none (text ++ cs) = .ok (text ++ content, rest) := by
  induction htext with
  | nil => exact hsplit
  | cons _ hblanks hspelling _ _ ih =>
    have hall := splitTag_append hblanks.no_bracket (splitTag_spelling hspelling ih)
    simpa using hall

theorem spellings_behind_name {spellings : List Spelling} {text blanks : List Char}
    (htext : SpellingsText spellings text) (hblanks : Blanks blanks) :
    ∀ c ∈ (text ++ blanks).head?, isSpace c = true := by
  cases htext with
  | nil =>
    intro c hc
    exact hblanks c (List.mem_of_mem_head? hc)
  | cons hne hfront _ _ _ =>
    next front _ _ =>
    obtain ⟨d, rest, rfl⟩ := List.exists_cons_of_ne_nil hne
    intro c hc
    simp only [List.cons_append, List.head?_cons, Option.mem_some_iff] at hc
    exact hc ▸ hfront d List.mem_cons_self

theorem Blanks.getLast? {blanks : List Char} (h : Blanks blanks) : blanks.getLast? ≠ some '/' := by
  intro hlast
  cases h '/' (List.mem_of_getLast? hlast)

theorem SpellingText.getLast? {spelling : Spelling} {text : List Char} (h : SpellingText spelling text) :
    ∃ quote, quote ≠ '/' ∧ text.getLast? = some quote := by
  cases h with
  | @intro before behind _ _ _ hquote _ =>
  refine ⟨spelling.quote, ?_, ?_⟩
  · obtain h | h := hquote <;> rw [h] <;> decide
  · have hsplit : spelling.key.toList ++ before ++ '=' :: (behind ++ spelling.quote ::
        (spelling.pieces.flatMap Piece.written ++ [spelling.quote])) =
        spelling.key.toList ++ before ++ '=' :: (behind ++ spelling.quote ::
          spelling.pieces.flatMap Piece.written) ++ [spelling.quote] := by simp
    rw [hsplit, List.getLast?_concat]

theorem SpellingsText.getLast? {spellings : List Spelling} {text : List Char} (h : SpellingsText spellings text) :
    text.getLast? ≠ some '/' := by
  induction h with
  | nil => simp
  | @cons _ _ _ text more _ _ hspelling _ _ ih =>
    rw [List.getLast?_append]
    cases hmore : more.getLast? with
    | some c =>
      rw [hmore] at ih
      exact ih
    | none =>
      obtain ⟨quote, hquote, hlast⟩ := hspelling.getLast?
      rw [Option.none_or, List.getLast?_append, hlast]
      simpa using hquote

/-- The content of a tag does not end with a slash, unless one is added. -/
theorem content_getLast? {name : String} {spellings : List Spelling} {text blanks : List Char}
    (hname : IsName name.toList) (htext : SpellingsText spellings text) (hblanks : Blanks blanks) :
    (name.toList ++ text ++ blanks).getLast? ≠ some '/' := by
  have hnameLast : name.toList.getLast? ≠ some '/' := by
    intro hlast
    have hchar := (hname.2 _ (List.mem_of_getLast? hlast)).2
    simp at hchar
  rw [List.getLast?_append, List.getLast?_append]
  cases hlast : blanks.getLast? with
  | some c =>
    have hslash := hblanks.getLast?
    rwa [hlast] at hslash
  | none =>
    cases htextLast : text.getLast? with
    | some c =>
      have hslash := htext.getLast?
      rwa [htextLast] at hslash
    | none => exact hnameLast

/-- The name and the attributes of a tag are read as they are written. -/
theorem readElementTag_spellings {name : String} {spellings : List Spelling} {text blanks : List Char}
    (hname : IsName name.toList) (htext : SpellingsText spellings text) (hblanks : Blanks blanks) :
    readElementTag (name.toList ++ text ++ blanks) = (name, .ok (spellings.map Spelling.written)) := by
  have hpos : ∀ c ∈ name.toList, (!isSpace c) = true := fun c hc => by simp [(hname.2 c hc).1]
  have hbehind := spellings_behind_name htext hblanks
  have hspan : (text ++ blanks).takeWhile (fun c => !isSpace c) = [] ∧
      (text ++ blanks).dropWhile (fun c => !isSpace c) = text ++ blanks := by
    cases hlist : text ++ blanks with
    | nil => exact ⟨rfl, rfl⟩
    | cons c rest =>
      have hc := hbehind c (by rw [hlist]; rfl)
      simp [hc]
  rw [readElementTag, List.append_assoc, List.takeWhile_append_of_pos hpos, List.dropWhile_append_of_pos hpos,
    hspan.1, hspan.2, List.append_nil, String.ofList_toList]
  exact congrArg _ (readAttributes_spellings htext hblanks (by simp))

theorem IsName.head {name : List Char} (h : IsName name) : ∃ c rest, name = c :: rest ∧
    c ≠ '/' ∧ c ≠ '!' ∧ c ≠ '?' := by
  obtain ⟨c, rest, rfl⟩ := List.exists_cons_of_ne_nil h.1
  have hchar := (h.2 c List.mem_cons_self).2
  simp only [List.mem_cons, not_or] at hchar
  exact ⟨c, rest, rfl, hchar.2.2.2.2.1, hchar.2.2.2.2.2.1, hchar.2.2.2.2.2.2.1⟩

theorem ofContent_eq {content : List Char} (h : content.head? ≠ some '/') :
    Tag.ofContent content =
      if content.getLast? = some '/' then
        .empty (readElementTag content.dropLast).1 (readElementTag content.dropLast).2
      else .start (readElementTag content).1 (readElementTag content).2 := by
  unfold Tag.ofContent
  split
  · exact absurd rfl h
  · rfl

/-- The tags of a text, without what its reader needs to end. -/
theorem readTags_eq (cs : List Char) : readTags cs =
    match afterText false cs with
    | .error error => ([], some error)
    | .ok none => ([], none)
    | .ok (some body) =>
      match readMarkup body with
      | .error error => ([], some error)
      | .ok (tag, rest) => (tag.toList ++ (readTags rest).1, (readTags rest).2) := by
  rw [readTags]
  split
  · next h => simp only [h]
  · next h => simp only [h]
  · next h =>
    simp only [h]
    split
    · next h => simp only [h]
    · next h => simp only [h]

/-- The tag of a content comes first among the tags, and what follows the tag is read after it. -/
theorem readTags_tag {c : Char} (content rest : List Char) (hdeclaration : c ≠ '!') (hinstruction : c ≠ '?')
    (hsplit : splitTag none (c :: content ++ '>' :: rest) = .ok (c :: content, rest)) :
    readTags ('<' :: (c :: content ++ '>' :: rest)) =
      (Tag.ofContent (c :: content) :: (readTags rest).1, (readTags rest).2) := by
  have hmarkup : readMarkup (c :: content ++ '>' :: rest) = .ok (some (Tag.ofContent (c :: content)), rest) := by
    rw [readMarkup, hsplit]
    · rfl
    · intro _ h
      exact hdeclaration (List.cons.inj h).1
    · intro _ h
      exact hinstruction (List.cons.inj h).1
  have htext : afterText false ('<' :: (c :: content ++ '>' :: rest)) = .ok (some (c :: content ++ '>' :: rest)) := by
    simp [afterText]
  rw [readTags_eq]
  simp only [htext, hmarkup]
  rfl

theorem closingName_blanks {name blanks : List Char} (hname : IsName name) (hblanks : Blanks blanks) :
    closingName (name ++ blanks) = name := by
  have hspaces : ∀ c ∈ name.reverse, isSpace c = false := fun c hc => (hname.2 c (List.mem_reverse.1 hc)).1
  have hall : (name ++ blanks).all isSpace = false := by
    obtain ⟨c, rest, rfl⟩ := List.exists_cons_of_ne_nil hname.1
    simp [(hname.2 c List.mem_cons_self).1]
  have hdrop : name.reverse.dropWhile isSpace = name.reverse := by
    cases hlist : name.reverse with
    | nil => rfl
    | cons c rest => exact List.dropWhile_cons_of_neg (by simp [hspaces c (by simp [hlist])])
  rw [closingName, if_neg (by simp [hall]), List.reverse_append,
    List.dropWhile_append_of_pos fun c hc => hblanks c (List.mem_reverse.1 hc), hdrop, List.reverse_reverse]

section Tags
variable {name : String} {spellings : List Spelling} {text blanks : List Char}

theorem splitTag_close (rest : List Char) : splitTag none ('>' :: rest) = .ok ([], rest) := by
  simp [splitTag]

theorem splitTag_content (hname : IsName name.toList) (htext : SpellingsText spellings text)
    (hblanks : Blanks blanks) {cs content rest : List Char} (hsplit : splitTag none cs = .ok (content, rest)) :
    splitTag none (name.toList ++ text ++ blanks ++ cs) = .ok (name.toList ++ text ++ blanks ++ content, rest) := by
  have hall := splitTag_append hname.no_bracket
    (splitTag_spellings htext (splitTag_append hblanks.no_bracket hsplit))
  simpa using hall

theorem readTags_start (hname : IsName name.toList) (htext : SpellingsText spellings text)
    (hblanks : Blanks blanks) (rest : List Char) :
    readTags ('<' :: (name.toList ++ text ++ blanks ++ '>' :: rest)) =
      (.start name (.ok (spellings.map Spelling.written)) :: (readTags rest).1, (readTags rest).2) := by
  have hsplit := splitTag_content hname htext hblanks (splitTag_close rest)
  have htag : Tag.ofContent (name.toList ++ text ++ blanks) = .start name (.ok (spellings.map Spelling.written)) := by
    obtain ⟨c, more, hlist, hslash, _⟩ := hname.head
    have hhead : (name.toList ++ text ++ blanks).head? ≠ some '/' := by simp [hlist, hslash]
    rw [ofContent_eq hhead, if_neg (content_getLast? hname htext hblanks),
      readElementTag_spellings hname htext hblanks]
  obtain ⟨c, more, hlist, _, hdeclaration, hinstruction⟩ := hname.head
  rw [← htag]
  rw [hlist, List.append_nil] at hsplit
  rw [hlist]
  exact readTags_tag _ rest hdeclaration hinstruction hsplit

theorem readTags_empty (hname : IsName name.toList) (htext : SpellingsText spellings text)
    (hblanks : Blanks blanks) (rest : List Char) :
    readTags ('<' :: (name.toList ++ text ++ blanks ++ '/' :: '>' :: rest)) =
      (.empty name (.ok (spellings.map Spelling.written)) :: (readTags rest).1, (readTags rest).2) := by
  have hsplit := splitTag_content hname htext hblanks
    (splitTag_cons (c := '/') (by decide) (splitTag_close rest))
  have htag : Tag.ofContent (name.toList ++ text ++ blanks ++ ['/']) =
      .empty name (.ok (spellings.map Spelling.written)) := by
    obtain ⟨c, more, hlist, hslash, _⟩ := hname.head
    have hhead : (name.toList ++ text ++ blanks ++ ['/']).head? ≠ some '/' := by simp [hlist, hslash]
    rw [ofContent_eq hhead, if_pos (List.getLast?_concat ..), List.dropLast_concat,
      readElementTag_spellings hname htext hblanks]
  obtain ⟨c, more, hlist, _, hdeclaration, hinstruction⟩ := hname.head
  rw [← htag]
  rw [hlist] at hsplit ⊢
  have hread := readTags_tag (more ++ text ++ blanks ++ ['/']) rest hdeclaration hinstruction
    (by simpa using hsplit)
  simpa using hread

theorem readTags_close (hname : IsName name.toList) (hblanks : Blanks blanks) (rest : List Char) :
    readTags ('<' :: '/' :: (name.toList ++ blanks ++ '>' :: rest)) =
      (.close name :: (readTags rest).1, (readTags rest).2) := by
  have hsplit := splitTag_cons (c := '/') (by decide) (splitTag_append hname.no_bracket
    (splitTag_append hblanks.no_bracket (splitTag_close rest)))
  have hclosing := closingName_blanks hname hblanks
  have htag : Tag.ofContent ('/' :: (name.toList ++ blanks)) = .close name := by
    rw [Tag.ofContent, hclosing, String.ofList_toList]
  rw [← htag]
  have hread := readTags_tag (c := '/') (name.toList ++ blanks) rest (by decide) (by decide)
    (by simpa using hsplit)
  simpa using hread

end Tags

/-! ## Trees -/

theorem Spelled.Text.head {spelled : Spelled} {text : List Char} (h : spelled.Text text) :
    ∃ body, text = '<' :: body := by
  cases h <;> exact ⟨_, rfl⟩

mutual
/-- A spelled tree is read into the tags of the tree as it is written. -/
theorem readTags_spelled {spelled : Spelled} {text : List Char} (h : spelled.Text text) :
    ∃ tags, spelled.written.Tags tags ∧
      ∀ rest, readTags (text ++ rest) = (tags ++ (readTags rest).1, (readTags rest).2) := by
  cases h with
  | @empty name attributes text blanks hname hspellings hblanks =>
    refine ⟨_, .empty name (attributes.map Spelling.written), ?_⟩
    intro rest
    simpa using readTags_empty hname hspellings hblanks rest
  | @pair name attributes children text blanks inside between blanks' hname hspellings hblanks hchildren
      hbetween hblanks' =>
    obtain ⟨tags, htags, hread⟩ := readTags_children hchildren
    refine ⟨_, .pair name (attributes.map Spelling.written) htags, ?_⟩
    intro rest
    have hstart := readTags_start hname hspellings hblanks
      (inside ++ (between ++ '<' :: '/' :: (name.toList ++ blanks' ++ '>' :: rest)))
    rw [hread, hbetween, readTags_close hname hblanks' rest] at hstart
    simpa using hstart
termination_by structural spelled

theorem readTags_children {children : List Spelled} {text : List Char} (h : ChildrenText children text) :
    ∃ tags, TreesTags (spelledTrees Spelling.written children) tags ∧
      ∀ rest, readTags (text ++ rest) = (tags ++ (readTags rest).1, (readTags rest).2) := by
  cases h with
  | nil => exact ⟨[], .nil, fun rest => rfl⟩
  | @cons spelled others between text more hbetween hspelled hothers =>
    obtain ⟨tags, htags, hread⟩ := readTags_spelled hspelled
    obtain ⟨tags', htags', hread'⟩ := readTags_children hothers
    obtain ⟨body, rfl⟩ := hspelled.head
    refine ⟨_, .cons htags htags', ?_⟩
    intro rest
    calc readTags (between ++ '<' :: body ++ more ++ rest)
        = readTags (between ++ '<' :: (body ++ (more ++ rest))) := by simp
      _ = readTags ('<' :: body ++ (more ++ rest)) := hbetween _
      _ = (tags ++ (tags' ++ (readTags rest).1), (readTags rest).2) := by rw [hread, hread']
      _ = (tags ++ tags' ++ (readTags rest).1, (readTags rest).2) := by rw [List.append_assoc]
termination_by structural children
end

/-- A text that spells a tree writes it as it is spelled. -/
theorem Spelled.SpelledIn.writtenIn {spelled : Spelled} {text : String} (h : spelled.SpelledIn text) :
    spelled.written.WrittenIn text := by
  obtain ⟨before, inside, behind, hsplit, hbefore, hinside, hbehind⟩ := h
  obtain ⟨tags, htags, hread⟩ := readTags_spelled hinside
  obtain ⟨body, rfl⟩ := hinside.head
  refine ⟨tags, ?_, htags⟩
  rw [hsplit, List.append_assoc, List.cons_append, hbefore, ← List.cons_append, hread, hbehind, List.append_nil]

end SchemaGuards.Markup
