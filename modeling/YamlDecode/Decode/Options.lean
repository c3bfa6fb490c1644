/-
How a document is decoded.

Two things are left to the caller: whether keys that a struct has no field for are
errors, and whether decoding goes on behind an error to find all of them.
-/
namespace YamlDecode

/-- How many errors a pass reports. -/
inductive ErrorPolicy where
  | collectAll
  | firstError
  deriving DecidableEq, Repr

def ErrorPolicy.all : List ErrorPolicy := [.collectAll, .firstError]

def ErrorPolicy.name : ErrorPolicy → String
  | .collectAll => "collect_all"
  | .firstError => "first_error"

structure Options where
  /-- Are keys that match no field errors? -/
  knownFields : Bool := false
  policy : ErrorPolicy := .collectAll
  deriving DecidableEq, Repr

end YamlDecode
