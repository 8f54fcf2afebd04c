import ContractHost.Digest.Blake3
import ContractHost.Tree
import ContractHost.Tree.NodeMap

/-!
# The tree in memory

A tree that keeps its nodes in a finite map, takes the BLAKE3 digest of a value as the hash of its node and counts
how often it is read, whether or not there was anything to read.
-/

namespace ContractHost

structure NodeTree where
  nodes : NodeMap := .empty
  reads : Nat := 0

namespace NodeTree

def read (t : NodeTree) (p : Path) : Except TreeError Bytes × NodeTree :=
  (match t.nodes.get? p with
    | some value => .ok value
    | none => .error (.notFound p),
    { t with reads := t.reads + 1 })

instance : Tree NodeTree where
  get := read
  hash t p := ((t.read p).1.map Blake3.digest, (t.read p).2)
  set t p value := (.ok (), { t with nodes := t.nodes.insert p value })
  delete t p := (.ok (), { t with nodes := t.nodes.erase p })

end NodeTree

/-- What a gate in front of a tree lets through. -/
inductive Gate
  | all
  | reads
  | writes
  | nothing
  deriving DecidableEq

/-- A tree in memory behind a gate; what the gate refuses never reaches the tree. -/
structure GatedTree where
  tree : NodeTree := {}
  gate : Gate := .all

namespace GatedTree

/-- Why the gate refuses reads, if it does. -/
def readRefusal : Gate → Option String
  | .writes => some "noread"
  | .nothing => some "down"
  | _ => none

/-- Why the gate refuses writes, if it does. -/
def writeRefusal : Gate → Option String
  | .reads => some "readonly"
  | .nothing => some "down"
  | _ => none

/-- Asks the tree, unless the gate refuses. -/
def pass {α : Type} (t : GatedTree) (refusal : Option String) (ask : NodeTree → Except TreeError α × NodeTree) :
    Except TreeError α × GatedTree :=
  match refusal with
  | some text => (.error (.unavailable text), t)
  | none => ((ask t.tree).1, { t with tree := (ask t.tree).2 })

instance : Tree GatedTree where
  get t p := t.pass (readRefusal t.gate) fun tree => Tree.get tree p
  hash t p := t.pass (readRefusal t.gate) fun tree => Tree.hash tree p
  set t p value := t.pass (writeRefusal t.gate) fun tree => Tree.set tree p value
  delete t p := t.pass (writeRefusal t.gate) fun tree => Tree.delete tree p

end GatedTree

end ContractHost
