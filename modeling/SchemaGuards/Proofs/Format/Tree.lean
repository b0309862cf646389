import Mathlib.Control.Monad.Basic
import SchemaGuards.Draft.Linking

/-!
# Element trees

The tags of a text without a broken rule come from trees: what stands inside an element is written
between its start and its end, and an element with nothing inside may also be a single tag. Such tags
nest into the elements of the tree and into no others, whatever is open around them. Texts that are written
out are given by their characters.
-/
namespace SchemaGuards

namespace Text
variable {text rest : String} {cs ds : List Char}

/-- The characters of a literal, which the kernel knows without decoding the text. -/
theorem toList_literal (h : text = String.ofList cs) : text.toList = cs := by
  rw [h, String.toList_ofList]

theorem toList_append (h : text.toList = cs) (h' : rest.toList = ds) : (text ++ rest).toList = cs ++ ds := by
  rw [String.toList_append, h, h']

theorem toList_join {texts : List String} (pieces : List (List Char)) (h : texts = pieces.map String.ofList) :
    (String.join texts).toList = pieces.flatten := by
  rw [h, String.toList_join, List.flatMap_def, List.map_map]
  simp [Function.comp_def]

end Text

namespace Markup

deriving instance DecidableEq for Tag

/-- An element that is whole: its attributes are in order and its end tag is there. -/
structure Tree where
  name : String
  attributes : List Attribute
  children : List Tree

/-- What holds of a tree whenever it holds of its children holds of every tree. -/
theorem Tree.induct {motive : Tree → Prop}
    (step : ∀ name attributes children, (∀ child ∈ children, motive child) → motive ⟨name, attributes, children⟩)
    (tree : Tree) : motive tree := by
  have hsize : ∀ size, ∀ tree : Tree, sizeOf tree < size → motive tree := by
    intro size
    induction size with
    | zero =>
      intro tree hsize
      omega
    | succ size ih =>
      intro tree hsize
      obtain ⟨name, attributes, children⟩ := tree
      apply step
      intro child hchild
      have hless := List.sizeOf_lt_of_mem hchild
      simp only [Tree.mk.sizeOf_spec] at hsize
      exact ih child (by omega)
  exact hsize _ tree (Nat.lt_succ_self _)

mutual
def Tree.toElement : Tree → Element
  | ⟨name, attributes, children⟩ => ⟨name, .ok attributes, toElements children, .closed⟩
termination_by structural tree => tree

def toElements : List Tree → List Element
  | [] => []
  | tree :: rest => tree.toElement :: toElements rest
end

theorem toElements_eq_map (trees : List Tree) : toElements trees = trees.map Tree.toElement := by
  induction trees with
  | nil => rfl
  | cons tree rest ih => rw [toElements, ih, List.map_cons]

mutual
/-- The tags that write a tree, in document order. -/
inductive Tree.Tags : Tree → List Tag → Prop
  | empty (name : String) (attributes : List Attribute) :
    Tree.Tags ⟨name, attributes, []⟩ [.empty name (.ok attributes)]
  | pair (name : String) (attributes : List Attribute) {children : List Tree} {tags : List Tag} :
    TreesTags children tags →
    Tree.Tags ⟨name, attributes, children⟩ (.start name (.ok attributes) :: (tags ++ [.close name]))

inductive TreesTags : List Tree → List Tag → Prop
  | nil : TreesTags [] []
  | cons {tree : Tree} {rest : List Tree} {tags more : List Tag} :
    tree.Tags tags → TreesTags rest more → TreesTags (tree :: rest) (tags ++ more)
end

mutual
/-- The tags of a tree become its element beside those already done. -/
theorem nest_tree {tree : Tree} {tags : List Tag} (h : tree.Tags tags) (error : Option SyntaxError)
    (opened : List OpenElement) (done : List Element) (behind : List Tag) :
    Document.nest error opened done (tags ++ behind) =
      Document.nest error opened (tree.toElement :: done) behind := by
  cases h with
  | empty name attributes => rfl
  | pair name attributes hchildren =>
    rw [List.cons_append, Document.nest, List.append_assoc, nest_trees hchildren, List.singleton_append,
      Document.nest, if_pos rfl, Tree.toElement, List.append_nil, List.reverse_reverse]
termination_by structural tree

theorem nest_trees {trees : List Tree} {tags : List Tag} (h : TreesTags trees tags)
    (error : Option SyntaxError) (opened : List OpenElement) (done : List Element) (behind : List Tag) :
    Document.nest error opened done (tags ++ behind) =
      Document.nest error opened ((toElements trees).reverse ++ done) behind := by
  cases h with
  | nil => rfl
  | cons hfirst hrest =>
    rw [List.append_assoc, nest_tree hfirst, nest_trees hrest, toElements, List.reverse_cons,
      List.append_assoc, List.singleton_append]
termination_by structural trees
end

/-- A text that breaks no rule of markup and whose tags write a tree. -/
def Tree.WrittenIn (tree : Tree) (text : String) : Prop :=
  ∃ tags, readTags (withoutMark text) = (tags, none) ∧ tree.Tags tags

theorem withoutMark_eq {text : String} {cs : List Char} (h : text.toList = cs) (hmark : cs.head? ≠ some '\ufeff') :
    withoutMark text = cs := by
  rw [withoutMark, h]
  cases cs with
  | nil => rfl
  | cons c rest =>
    have hc : c ≠ '\ufeff' := by simpa using hmark
    simp [hc]

theorem Document.ofText_eq {text : String} {cs : List Char} (h : text.toList = cs) (hmark : cs.head? ≠ some '\ufeff') :
    Document.ofText text = .nest (readTags cs).2 [] [] (readTags cs).1 := by
  rw [Document.ofText, withoutMark_eq h hmark]

theorem Tree.WrittenIn.of_tags {tree : Tree} {text : String} {cs : List Char} {tags : List Tag} (h : text.toList = cs)
    (hmark : cs.head? ≠ some '\ufeff') (htags : tree.Tags tags) (hread : readTags cs = (tags, none)) :
    tree.WrittenIn text :=
  ⟨tags, (congrArg readTags (withoutMark_eq h hmark)).trans hread, htags⟩

/-- The document of such a text holds the tree and nothing else. -/
theorem Tree.WrittenIn.document {tree : Tree} {text : String} (h : tree.WrittenIn text) :
    Document.ofText text = ⟨[tree.toElement], .unfinished⟩ := by
  obtain ⟨tags, hread, htags⟩ := h
  have hnest : Document.ofText text = Document.nest none [] [] tags := by
    simp only [Document.ofText, hread]
  have hdone := nest_tree htags none [] [] []
  rw [List.append_nil] at hdone
  rw [hnest, hdone]
  rfl

end Markup
end SchemaGuards
