/-!
# The status of an execution

An execution runs until it halts or traps; both are final.
-/

namespace ContractHost

/-- Why an execution was aborted. -/
inductive Trap
  | outOfGas
  | memoryFault
  | invalidArgument
  deriving DecidableEq

/-- How an execution ended of its own accord. -/
inductive Halt
  | returned
  | selfDestructed
  deriving DecidableEq

inductive Status
  | running
  | halted (how : Halt)
  | trapped (why : Trap)
  deriving DecidableEq

namespace Trap

def message : Trap → String
  | outOfGas => "out of gas"
  | memoryFault => "memory fault"
  | invalidArgument => "invalid argument"

/-- The number by which the trap is reported to other programs. -/
def code : Trap → Nat
  | outOfGas => 1
  | memoryFault => 2
  | invalidArgument => 3

def ofCode? (code : Int) : Option Trap := [outOfGas, memoryFault, invalidArgument].find? fun t => (t.code : Int) = code

theorem ofCode?_code (t : Trap) : ofCode? t.code = some t := by cases t <;> decide

end Trap

namespace Status

def isTerminal : Status → Bool
  | running => false
  | _ => true

def isTrapped : Status → Bool
  | trapped _ => true
  | _ => false

def display : Status → String
  | running => "running"
  | halted .returned => "halted (return)"
  | halted .selfDestructed => "halted (self-destruct)"
  | trapped why => "trapped (" ++ why.message ++ ")"

end Status

end ContractHost
