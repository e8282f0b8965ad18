import Mathlib.Data.List.Basic

/-!
# Serdes modes

A message is serialised in one of three formats; the serdes mode of the message that carries it says
in which.
-/

namespace Idgs.Protobuf

/-- `protobuf::SerdesMode`. -/
inductive SerdesMode
  | pbBinary | pbJson | pbText
deriving DecidableEq

/-- The bytes of a field or a buffer. -/
abbrev Bytes := List UInt8

end Idgs.Protobuf
