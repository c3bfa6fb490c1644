/-
Typed decoding of a subset of YAML.

A document is read into a tree of nodes, each with its tag, its text and its place in the source.  A
tree is decoded into a target type, and comes to a JSON value or to the errors that say which nodes
do not fit.  `Document`, `Tree`, `Target` and `Decode` are the program, made of `Text`, `Number`,
`Tag` and `Json`; what is known of it stands under `Proofs`.

Reading.  `Document/Grammar` says by rules what stands in a document, and by `Document/Soundness` all
that is read is read by them.  The form of the tree follows from the rules (`Document/Formed`), and so
do its depth (`Document/Depth`), its tags (`Document/Tagged`), its brackets (`Document/Brackets`) and
its places in the source (`Document/Position`, `Document/Order`).  What a change of lines does to the
tree is found by two runs side by side (`Document/Parallel`), for blank lines (`Document/Padding`),
for indentation (`Document/Indentation`), for marks around a document (`Document/Marks`) and for what
follows an error (`Document/Locality`).  `Document/Guards` tells the faults that no document has, and
`Bytes` reads everything once more by byte positions, never out of bounds.

Notations.  Quoted texts have a grammar and an end (`Text/Spelling`, `Text/Enclosed`).  Plain words
are null, truth values, numbers or texts (`Tag`, `Number/Grammar`, `Number/Nearest`).  Flow
collections are cut at their own commas (`Text/Pieces`, `Document/FlowWords`), and entries are told
from comments (`Document/Plain`, `Document/Commented`).  Block scalars have a header and lines
(`Document/Header`, `Document/BlockScalar`, `Document/Folding`).

Trees.  Links agree however a tree was built (`Tree/Links`, `Tree/Pushes`), and the paths of a
document are addresses (`Document/Address`).

Decoding.  A pass hands its errors on from node to node, but comes to the same as a recursion without
them (`Decode/Errors`), and the rest is said of that: what type a value has (`Decode/Conforms`), which
entries become which members (`Decode/Entries`, `Decode/Binding`, `Target/Defect`), what options
change (`Decode/FirstError`, `Decode/Strict`), and where errors come from, in which order and with
which texts (`Decode/Origin`, `Decode/Clashes`, `Decode/ReadingOrder`, `Decode/Rendering`,
`Decode/OneLine`, `Decode/Evidence`).  The order of entries is of no account (`Decode/Rearranged`), and
without a type the value mirrors the document (`Decode/Mirror`, `Decode/Integer`).  No node is decoded
twice (`Decode/Visits`).

From end to end.  Values that are written on one line, or laid out on lines in any way, are read and
decoded to what they were (`Roundtrip`), and what is stored as JSON is read back (`Decode/Json`).
-/
import YamlDecode.Decode
import YamlDecode.Decode.Json
import YamlDecode.Target.Json
import YamlDecode.Tree.Describe
import YamlDecode.Proofs.Decode.Yields
import YamlDecode.Proofs.Decode.Repeats
import YamlDecode.Proofs.Decode.Errors
import YamlDecode.Proofs.Decode.Conforms
import YamlDecode.Proofs.Decode.Untyped
import YamlDecode.Proofs.Text.Scan
import YamlDecode.Proofs.Text.Blank
import YamlDecode.Proofs.Text.Spelling
import YamlDecode.Proofs.Text.Quoted
import YamlDecode.Proofs.Document.Items
import YamlDecode.Proofs.Text.Whole
import YamlDecode.Proofs.Document.Flow
import YamlDecode.Proofs.Document.Rows
import YamlDecode.Proofs.Document.Block
import YamlDecode.Proofs.Roundtrip
import YamlDecode.Proofs.Decode.FirstError
import YamlDecode.Proofs.Tree.Links
import YamlDecode.Proofs.Tree.Preorder
import YamlDecode.Proofs.Document.Grammar
import YamlDecode.Proofs.Document.Soundness
import YamlDecode.Proofs.Document.Formed
import YamlDecode.Proofs.Decode.Strict
import YamlDecode.Proofs.Document.Source
import YamlDecode.Proofs.Document.Position
import YamlDecode.Proofs.Document.Extent
import YamlDecode.Proofs.Document.Order
import YamlDecode.Proofs.Document.Refusal
import YamlDecode.Proofs.Document.Parallel
import YamlDecode.Proofs.Document.Locality
import YamlDecode.Proofs.Tree.Relabel
import YamlDecode.Proofs.Document.Padding
import YamlDecode.Proofs.Bytes.Scan
import YamlDecode.Proofs.Bytes.Inline
import YamlDecode.Proofs.Bytes.Cursor
import YamlDecode.Proofs.Bytes.BlockScalar
import YamlDecode.Proofs.Bytes.Block
import YamlDecode.Proofs.Document.Indentation
import YamlDecode.Proofs.Document.Address
import YamlDecode.Proofs.Document.Tagged
import YamlDecode.Proofs.Decode.Listing
import YamlDecode.Proofs.Decode.Mirror
import YamlDecode.Proofs.Decode.Rearranged
import YamlDecode.Proofs.Decode.Origin
import YamlDecode.Proofs.Decode.Rendering
import YamlDecode.Proofs.Decode.ReadingOrder
import YamlDecode.Proofs.Target.Texts
import YamlDecode.Proofs.Decode.Evidence
import YamlDecode.Proofs.Decode.OneLine
import YamlDecode.Proofs.Document.Depth
import YamlDecode.Proofs.Document.Marks
import YamlDecode.Proofs.Decode.Clashes
import YamlDecode.Proofs.Decode.Binding
import YamlDecode.Proofs.Decode.Entries
import YamlDecode.Proofs.Target.Defect
import YamlDecode.Proofs.Document.Plain
import YamlDecode.Proofs.Document.Commented
import YamlDecode.Proofs.Document.FlowWords
import YamlDecode.Proofs.Document.Brackets
import YamlDecode.Proofs.Document.BlockScalar
import YamlDecode.Proofs.Document.Folding
import YamlDecode.Proofs.Number.Grammar
import YamlDecode.Proofs.Number.Nearest
import YamlDecode.Proofs.Tag
import YamlDecode.Proofs.Decode.Integer
import YamlDecode.Proofs.Target.Json
import YamlDecode.Proofs.Decode.Json
import YamlDecode.Proofs.Text.Enclosed
import YamlDecode.Proofs.Tree.Pushes
import YamlDecode.Proofs.Decode.Visits
import YamlDecode.Proofs.Text.Pieces
import YamlDecode.Proofs.Document.Guards
