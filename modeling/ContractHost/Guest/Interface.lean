import ContractHost.Operation

/-!
# The interface of a module

A module may run if it exports its memory and a plain entry point and imports nothing but host operations with the
types of the table.  The checks come in a fixed order, and the first that fails is the one reported.
-/

namespace ContractHost.Guest

/-- The number types and reference types of a module. -/
inductive ValueType
  | i32
  | i64
  | f32
  | f64
  | funcRef
  | externRef
  deriving DecidableEq

/-- What a module imports or exports. -/
inductive Item
  | function (params results : List ValueType)
  | memory
  | table
  | global
  deriving DecidableEq

structure Import where
  module : String
  name : String
  item : Item
  deriving DecidableEq

structure Export where
  name : String
  item : Item
  deriving DecidableEq

structure Interface where
  imports : List Import
  exports : List Export
  deriving DecidableEq

/-- Why a module may not run. -/
inductive InterfaceError
  | noMemory
  | noEntry (entry : String)
  | entryNotFunction (entry : String)
  | entryNotPlain (entry : String)
  | systemImport (i : Import)
  | foreignImport (i : Import)
  | importNotFunction (i : Import)
  | unknownOperation (name : String)
  | wrongSignature (op : Operation) (params results : List ValueType)
  deriving DecidableEq

/-- The name under which a module imports the host operations. -/
def hostModule : String := "ethereum"

def ValueType.ofNumType : NumType → ValueType
  | .i32 => i32
  | .i64 => i64

/-- The number type, if it is one that can pass to the host. -/
def ValueType.numType? : ValueType → Option NumType
  | i32 => some .i32
  | i64 => some .i64
  | _ => none

/-- The types with which an operation is to be imported. -/
def signature (op : Operation) : Item :=
  .function (op.params.map .ofNumType) (op.result.toList.map .ofNumType)

namespace InterfaceError

private def showType : Option NumType → String
  | some .i32 => "Some(I32)"
  | some .i64 => "Some(I64)"
  | none => "None"

private def showTypes (types : List (Option NumType)) : String :=
  "[" ++ ", ".intercalate (types.map showType) ++ "]"

private def showSignature (params results : List (Option NumType)) : String :=
  showTypes params ++ " -> " ++ showTypes results

def message : InterfaceError → String
  | noMemory => "module must export 'memory'"
  | noEntry entry => "missing entry point: " ++ entry
  | entryNotFunction entry => "export '" ++ entry ++ "' must be a function"
  | entryNotPlain entry => "entry point '" ++ entry ++ "' must take no params and return nothing"
  | systemImport i => "WASI import not allowed: " ++ i.module ++ "::" ++ i.name
  | foreignImport i => "import from unknown module '" ++ i.module ++ "' (only 'ethereum' allowed): " ++ i.name
  | importNotFunction i => "non-function import not allowed: " ++ i.module ++ "::" ++ i.name
  | unknownOperation name => "unknown host operation: " ++ name
  | wrongSignature op params results =>
    "import '" ++ op.name ++ "' has wrong signature: expected " ++
      showSignature (op.params.map some) (op.result.toList.map some) ++ ", got " ++
      showSignature (params.map ValueType.numType?) (results.map ValueType.numType?)

end InterfaceError

namespace Interface

/-- Checks the exports: a memory, and an entry point without parameters and results. -/
def checkExports (exports : List Export) (entry : String) : Except InterfaceError Unit := do
  unless exports.any (fun e => e.name = "memory" && e.item = .memory) do
    throw .noMemory
  match exports.find? (·.name = entry) with
  | none => throw (.noEntry entry)
  | some ⟨_, .function [] []⟩ => return ()
  | some ⟨_, .function _ _⟩ => throw (.entryNotPlain entry)
  | some _ => throw (.entryNotFunction entry)

/-- Checks the types with which an operation is imported.  A type that cannot pass to the host is none of the table's. -/
def checkSignature (op : Operation) (params results : List ValueType) : Except InterfaceError Unit := do
  unless params.map ValueType.numType? = op.params.map some ∧
      results.map ValueType.numType? = op.result.toList.map some do
    throw (.wrongSignature op params results)

/-- Checks an import: an operation of the table with the types given there. -/
def checkImport (i : Import) : Except InterfaceError Unit := do
  if "wasi".toList.isPrefixOf i.module.toList then
    throw (.systemImport i)
  unless i.module = hostModule do
    throw (.foreignImport i)
  match i.item with
  | .function params results =>
    match Operation.ofName? i.name with
    | none => throw (.unknownOperation i.name)
    | some op => checkSignature op params results
  | _ => throw (.importNotFunction i)

def check (i : Interface) (entry : String) : Except InterfaceError Unit := do
  checkExports i.exports entry
  i.imports.forM checkImport

end Interface

end ContractHost.Guest
