import ContractHost.Guest.Interface

/-!
# Linking

The operations are registered with a linker, each under its name and with the types of the table, and the imports of a
module are looked up there.  A name can be taken only once.
-/

namespace ContractHost.Guest

/-- What there is for modules to import. -/
structure Linker where
  definitions : List Import := []

/-- What an import is looked up by. -/
def Import.key (j : Import) : String × String := (j.module, j.name)

namespace Linker

/-- What stands under a name of a module. -/
def item? (l : Linker) (module name : String) : Option Item :=
  (l.definitions.find? fun d => d.key = (module, name)).map Import.item

/-- Adds a definition, unless its name is taken. -/
def define? (l : Linker) (d : Import) : Option Linker :=
  match l.item? d.module d.name with
  | some _ => none
  | none => some { l with definitions := l.definitions ++ [d] }

/-- The definition of an operation. -/
def operation (op : Operation) : Import := ⟨hostModule, op.name, signature op⟩

/-- Adds all operations. -/
def registerOperations? (l : Linker) : Option Linker :=
  Operation.all.foldlM (fun l op => l.define? (operation op)) l

/-- Whether the import is there, as what it is imported. -/
def Resolves (l : Linker) (j : Import) : Prop := l.item? j.module j.name = some j.item

instance (l : Linker) (j : Import) : Decidable (l.Resolves j) := inferInstanceAs (Decidable (_ = _))

end Linker

end ContractHost.Guest
