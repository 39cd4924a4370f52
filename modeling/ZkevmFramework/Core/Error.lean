import Mathlib.Data.List.Basic

/-!
# Outcomes of the trie code

What the library throws, with its texts, and the places where C++ gives the
code no meaning (the model stops there).
-/

namespace Core.Mpt

abbrev Bytes := List UInt8

abbrev Reference := Bytes

/-- Why an operation does not return. -/
inductive Error where
  -- exceptions of the source
  | indexOutOfRange
  | emptyByteArray
  | unknownNodeType
  | nodeNotFound
  | notInitialized
  | keyNotFound
  | setInvalidAction
  | emptyExtensionPath
  | invalidUpdateInfo
  | invalidUselessBranchInfo
  | invalidAction
  | noValidBranches
  | removeError
  /-- SSZ++ rejects the bytes. -/
  | malformedSsz
  -- undefined behaviour
  /-- A read or write past the end of a container. -/
  | pastEnd
  /-- `Consume` of more nibbles than remain: `size()` is negative from here on. -/
  | consumePastEnd
  /-- `*` or `->` on an empty optional. -/
  | emptyOptional
  /-- The walk took more steps than the model allows. -/
  | outOfFuel
deriving DecidableEq, Repr

/-- The text an exception of the source carries. -/
def Error.what : Error → Option String
  | .indexOutOfRange => some "Index out of range"
  | .emptyByteArray => some "Empty byte array"
  | .unknownNodeType => some "Unknown node type"
  | .nodeNotFound => some "Node not found"
  | .notInitialized => some "Not initialized MPT"
  | .keyNotFound => some "Key not found"
  | .setInvalidAction => some "invalid action"
  | .emptyExtensionPath => some "Path for extension node should contain at least one nibble"
  | .invalidUpdateInfo => some "Invalid update info"
  | .invalidUselessBranchInfo => some "Invalid useless branch info"
  | .invalidAction => some "Invalid action"
  | .noValidBranches => some "No valid branches found"
  | .removeError => some "remove error"
  | .malformedSsz | .pastEnd | .consumePastEnd | .emptyOptional | .outOfFuel => none

end Core.Mpt
