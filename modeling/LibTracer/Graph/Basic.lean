import Mathlib.Data.List.Basic

/-!
# Names, keys and statuses

The vocabulary the graph and the routing plane share.
-/

namespace LibTracer

abbrev Name := List Char

/-- `status_t`: the outcomes of a graph operation other than success. -/
inductive Status where
  | NOT_FOUND | INVALID_PATH | TYPE_MISMATCH | BACKPRESSURE | TIMEOUT
  | SCHEMA_NOT_FOUND | PERMISSION_DENIED | PATH_IN_USE | TRANSPORT_DOWN
  deriving DecidableEq, Repr

/-- A vertex of the tree, as the chain of names up to the root, its own name first.  The root is the
empty chain and the parent of `n :: p` is `p`. -/
abbrev Key := List Name

end LibTracer
