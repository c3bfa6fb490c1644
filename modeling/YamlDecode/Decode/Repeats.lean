/-
Keys that a mapping holds more than once.

For each key the later keys with the same text are wanted, in order.  The keys are read
from the last to the first, with a table of those read so far by their texts: each key
looks up the ones behind it and then joins them.  What is looked up is shared and not
copied, so this takes one look-up per key, however many keys are equal.
-/
import Std.Data.TreeMap
import YamlDecode.Tree.Basic

namespace YamlDecode.Tree

variable {t : Tree}

/-- Each key with the later ones of the same text, and the table of all keys by their texts. -/
def laterKeys (keys : List (Ref t)) :
    List (Ref t × List (Ref t)) × Std.TreeMap String (List (Ref t)) :=
  keys.foldr
    (fun key (found, table) =>
      let later := table.getD key.value []
      ((key, later) :: found, table.insert key.value (key :: later)))
    ([], ∅)

/-- The keys that are repeated later, each with its repetitions. -/
def repeats (keys : List (Ref t)) : List (Ref t × List (Ref t)) :=
  (laterKeys keys).1.filter fun (_, later) => !later.isEmpty

end YamlDecode.Tree
