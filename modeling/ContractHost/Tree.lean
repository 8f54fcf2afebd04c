import ContractHost.Address
import ContractHost.Error

/-!
# State trees

A state tree holds byte strings at paths.  Any of its four operations may fail, and any may change the tree's own
state, so that a tree may count what it is asked, answer in turns or refuse from some point on.
-/

namespace ContractHost

class Tree (τ : Type) where
  /-- The value at a path. -/
  get : τ → Path → Except TreeError Bytes × τ
  /-- The hash of the node at a path. -/
  hash : τ → Path → Except TreeError Word × τ
  set : τ → Path → Bytes → Except TreeError Unit × τ
  delete : τ → Path → Except TreeError Unit × τ

end ContractHost
