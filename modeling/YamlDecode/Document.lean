/-
Documents.

A document is read into a tree of its nodes, in reading order, or refused with one error.
What the lines say is settled by `Document.readRoot`; here the text is cut into lines,
and the number of lines is limited.
-/
import YamlDecode.Document.Block
import YamlDecode.Tree.Graft

namespace YamlDecode

namespace Document

/-- The labelled tree that a text stands for. -/
def read (text : List Char) : Except ParseError (Rose Label) :=
  let ls := linesOf text
  if maxLines < ls.length then .error ⟨maxLines + 1, .tooManyLines⟩
  else (readRoot ls).map (·.1)

end Document

/-- The tree of nodes that a document stands for. -/
def parse (text : String) : Except ParseError Tree :=
  (Document.read text.toList).map Tree.ofRose

end YamlDecode
