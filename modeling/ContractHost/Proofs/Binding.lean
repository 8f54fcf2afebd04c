import Mathlib.Data.List.Nodup
import ContractHost.Guest.Linker

/-!
# Which modules are accepted

A module is accepted if it can be bound: it exports its memory and a plain entry point, and each of its imports is an
operation with the types of the table (`Interface.Bindable`).  Otherwise the first check that fails is reported
(`Interface.Fault`).  The operations are registered with the types against which imports are checked, so the linker has
all that an accepted module imports (`check_spec`).
-/

namespace ContractHost

/-- If keys are not repeated, looking an element up by its key finds it. -/
theorem find?_key_of_mem {α β : Type} [DecidableEq β] {key : α → β} {l : List α} (hl : (l.map key).Nodup) {a : α}
    (ha : a ∈ l) : l.find? (fun b => key b = key a) = some a := by
  induction l with
  | nil => cases ha
  | cons b l ih =>
    rw [List.map_cons, List.nodup_cons] at hl
    rcases List.mem_cons.1 ha with rfl | ha
    · exact List.find?_cons_of_pos (by simp)
    · have hne : key b ≠ key a := fun heq => hl.1 (heq ▸ List.mem_map_of_mem ha)
      rw [List.find?_cons_of_neg (by simpa using hne)]
      exact ih hl.2 ha

namespace Operation

theorem nodup_map_name : (all.map name).Nodup := by decide +kernel

theorem ofName?_name (op : Operation) : ofName? op.name = some op := find?_key_of_mem nodup_map_name op.mem_all

theorem ofName?_eq_none_iff {name : String} : ofName? name = none ↔ ∀ op : Operation, op.name ≠ name := by
  simp [ofName?, mem_all]

end Operation

/-! ### Checks -/

/-- The check passes if the condition holds, and otherwise tells which fault there is. -/
structure Decides {ε : Type} (check : Except ε Unit) (condition : Prop) (fault : ε → Prop) : Prop where
  ok_iff : check = .ok () ↔ condition
  error_iff : ∀ e, check = .error e ↔ fault e

namespace Decides

variable {ε : Type} {x y : Except ε Unit} {P Q : Prop} {F G : ε → Prop}

theorem of_complete (hok : P → x = .ok ()) (herror : ∀ e, F e → x = .error e) (h : P ∨ ∃ e, F e) :
    Decides x P F where
  ok_iff := by
    refine ⟨fun hx => h.resolve_right ?_, hok⟩
    rintro ⟨e, he⟩
    rw [herror e he] at hx
    cases hx
  error_iff e := by
    refine ⟨fun hx => ?_, herror e⟩
    rcases h with hP | ⟨e', he⟩
    · rw [hok hP] at hx
      cases hx
    · rw [herror e' he] at hx
      cases hx
      exact he

theorem total (h : Decides x P F) : P ∨ ∃ e, F e := by
  cases hx : x with
  | ok _ => exact .inl (h.ok_iff.1 hx)
  | error e => exact .inr ⟨e, (h.error_iff e).1 hx⟩

theorem ofUnless (P : Prop) [Decidable P] (why : ε) :
    Decides (unless P do throw why) P (fun e => ¬ P ∧ e = why) := by
  by_cases hP : P
  · rw [if_pos hP]
    exact of_complete (fun _ => rfl) (fun e he => absurd hP he.1) (.inl hP)
  · rw [if_neg hP]
    refine of_complete (fun h => absurd h hP) ?_ (.inr ⟨why, hP, rfl⟩)
    rintro e ⟨-, rfl⟩
    rfl

/-- Of two checks in a row the second counts if the first passes. -/
theorem seq (hx : Decides x P F) (hy : Decides y Q G) :
    Decides (do x; y) (P ∧ Q) (fun e => F e ∨ P ∧ G e) := by
  refine of_complete ?_ ?_ ?_
  · rintro ⟨hP, hQ⟩
    rw [hx.ok_iff.2 hP]
    exact hy.ok_iff.2 hQ
  · rintro e (hF | ⟨hP, hG⟩)
    · rw [(hx.error_iff e).2 hF]
      rfl
    · rw [hx.ok_iff.2 hP]
      exact (hy.error_iff e).2 hG
  · rcases hx.total with hP | ⟨e, hF⟩
    · rcases hy.total with hQ | ⟨e, hG⟩
      · exact .inl ⟨hP, hQ⟩
      · exact .inr ⟨e, .inr ⟨hP, hG⟩⟩
    · exact .inr ⟨e, .inl hF⟩

theorem congr {P' : Prop} {F' : ε → Prop} (h : Decides x P F) (hP : P ↔ P') (hF : ∀ e, F e ↔ F' e) :
    Decides x P' F' :=
  ⟨h.ok_iff.trans hP, fun e => (h.error_iff e).trans (hF e)⟩

/-- Of the elements of a list the first that does not pass counts. -/
theorem forM {α : Type} {check : α → Except ε Unit} {P : α → Prop} {F : α → ε → Prop}
    (h : ∀ a, Decides (check a) (P a) (F a)) (l : List α) :
    Decides (l.forM check) (∀ a ∈ l, P a)
      (fun e => ∃ before a after, l = before ++ a :: after ∧ (∀ b ∈ before, P b) ∧ F a e) := by
  induction l with
  | nil => exact ⟨by simp [pure, Except.pure], by simp [pure, Except.pure]⟩
  | cons a l ih =>
    refine ((h a).seq ih).congr (by simp) fun e => ⟨?_, ?_⟩
    · rintro (hF | ⟨hP, before, b, after, rfl, hbefore, hF⟩)
      · exact ⟨[], a, l, rfl, by simp, hF⟩
      · exact ⟨a :: before, b, after, rfl, by simpa using ⟨hP, hbefore⟩, hF⟩
    · rintro ⟨before, b, after, hl, hbefore, hF⟩
      cases before with
      | nil =>
        cases hl
        exact .inl hF
      | cons c before =>
        cases hl
        rw [List.forall_mem_cons] at hbefore
        exact .inr ⟨hbefore.1, before, b, after, rfl, hbefore.2, hF⟩

end Decides

namespace Guest

/-! ### Imports -/

/-- The import is an operation, with the types that the table gives it. -/
structure Import.Bindable (j : Import) : Prop where
  module : j.module = hostModule
  item : ∃ op : Operation, op.name = j.name ∧ j.item = signature op

/-- The first thing that is wrong with an import.  What follows the check of the module's name is checked only where
that is the host's, which is no name of a system. -/
inductive Import.Fault (j : Import) : InterfaceError → Prop
  | system (hsystem : "wasi".toList <+: j.module.toList) : Fault j (.systemImport j)
  | foreign (hsystem : ¬ "wasi".toList <+: j.module.toList) (hmodule : j.module ≠ hostModule) :
    Fault j (.foreignImport j)
  | notFunction (hmodule : j.module = hostModule) (hitem : ∀ params results, j.item ≠ .function params results) :
    Fault j (.importNotFunction j)
  | unknown (params results : List ValueType) (hmodule : j.module = hostModule)
    (hitem : j.item = .function params results) (hname : ∀ op : Operation, op.name ≠ j.name) :
    Fault j (.unknownOperation j.name)
  | signature (op : Operation) (params results : List ValueType) (hmodule : j.module = hostModule)
    (hitem : j.item = .function params results) (hname : op.name = j.name) (htypes : j.item ≠ signature op) :
    Fault j (.wrongSignature op params results)

theorem ValueType.numType?_eq_some_iff {type : ValueType} {num : NumType} :
    type.numType? = some num ↔ type = .ofNumType num := by
  cases type <;> cases num <;> simp [numType?, ofNumType]

theorem ValueType.map_numType?_eq_iff {types : List ValueType} {nums : List NumType} :
    types.map numType? = nums.map some ↔ types = nums.map ofNumType := by
  induction types generalizing nums with
  | nil => cases nums <;> simp
  | cons type types ih => cases nums <;> simp [numType?_eq_some_iff, ih]

/-- What is checked is that the types are those with which the operation is registered. -/
theorem checkSignature_decides (op : Operation) (params results : List ValueType) :
    Decides (Interface.checkSignature op params results) (Item.function params results = signature op)
      (fun e => Item.function params results ≠ signature op ∧ e = .wrongSignature op params results) := by
  have hiff : (params.map ValueType.numType? = op.params.map some ∧
      results.map ValueType.numType? = op.result.toList.map some) ↔ Item.function params results = signature op := by
    rw [ValueType.map_numType?_eq_iff, ValueType.map_numType?_eq_iff, signature, Item.function.injEq]
  exact (Decides.ofUnless _ _).congr hiff fun e => and_congr_left' hiff.not

namespace Import

theorem not_system {j : Import} (hmodule : j.module = hostModule) : ¬ "wasi".toList <+: j.module.toList := by
  rw [hmodule]
  decide

theorem bindable_or_fault (j : Import) : j.Bindable ∨ ∃ e, j.Fault e := by
  by_cases hsystem : "wasi".toList <+: j.module.toList
  · exact .inr ⟨_, .system hsystem⟩
  by_cases hmodule : j.module = hostModule
  · match hitem : j.item with
    | .function params results =>
      by_cases hname : ∃ op : Operation, op.name = j.name
      · obtain ⟨op, hop⟩ := hname
        by_cases htypes : j.item = signature op
        · exact .inl ⟨hmodule, op, hop, htypes⟩
        · exact .inr ⟨_, .signature op params results hmodule hitem hop htypes⟩
      · exact .inr ⟨_, .unknown params results hmodule hitem (not_exists.1 hname)⟩
    | .memory | .table | .global => exact .inr ⟨_, .notFunction hmodule (by simp [hitem])⟩
  · exact .inr ⟨_, .foreign hsystem hmodule⟩

end Import

namespace Interface

theorem checkImport_of_module {j : Import} (hmodule : j.module = hostModule) :
    checkImport j = match j.item with
      | .function params results =>
        match Operation.ofName? j.name with
        | none => .error (.unknownOperation j.name)
        | some op => checkSignature op params results
      | _ => .error (.importNotFunction j) := by
  have hsystem : ¬ "wasi".toList.isPrefixOf j.module.toList = true :=
    List.isPrefixOf_iff_prefix.not.2 (Import.not_system hmodule)
  unfold checkImport
  rw [if_neg hsystem, if_pos hmodule]
  rfl

theorem checkImport_decides (j : Import) : Decides (checkImport j) j.Bindable j.Fault := by
  refine .of_complete ?_ ?_ j.bindable_or_fault
  · rintro ⟨hmodule, op, hname, hitem⟩
    rw [checkImport_of_module hmodule, ← hname, op.ofName?_name, hitem]
    exact (checkSignature_decides op _ _).ok_iff.2 rfl
  · rintro e (hsystem | ⟨hsystem, hmodule⟩ | ⟨hmodule, hitem⟩ | ⟨params, results, hmodule, hitem, hname⟩ |
      ⟨op, params, results, hmodule, hitem, hname, htypes⟩)
    · unfold checkImport
      rw [if_pos (List.isPrefixOf_iff_prefix.2 hsystem)]
      rfl
    · unfold checkImport
      rw [if_neg (List.isPrefixOf_iff_prefix.not.2 hsystem), if_neg hmodule]
      rfl
    · rw [checkImport_of_module hmodule]
      split
      · exact absurd ‹_› (hitem _ _)
      · rfl
    · rw [checkImport_of_module hmodule, hitem, Operation.ofName?_eq_none_iff.2 hname]
    · rw [checkImport_of_module hmodule, hitem, ← hname, op.ofName?_name]
      exact ((checkSignature_decides op params results).error_iff _).2 ⟨hitem ▸ htypes, rfl⟩

end Interface

/-! ### Exports -/

/-- There is a memory and an entry point that takes and gives nothing. -/
structure Interface.Startable (exports : List Export) (entry : String) : Prop where
  memory : ⟨"memory", .memory⟩ ∈ exports
  entry : ⟨entry, .function [] []⟩ ∈ exports

/-- The first thing that is wrong with the exports. -/
inductive Interface.ExportFault (exports : List Export) (entry : String) : InterfaceError → Prop
  | noMemory (hmemory : ⟨"memory", .memory⟩ ∉ exports) : ExportFault exports entry .noMemory
  | noEntry (hmemory : ⟨"memory", .memory⟩ ∈ exports) (hentry : ∀ x ∈ exports, x.name ≠ entry) :
    ExportFault exports entry (.noEntry entry)
  | notFunction (item : Item) (hmemory : ⟨"memory", .memory⟩ ∈ exports) (hentry : ⟨entry, item⟩ ∈ exports)
    (hitem : ∀ params results, item ≠ .function params results) : ExportFault exports entry (.entryNotFunction entry)
  | notPlain (params results : List ValueType) (hmemory : ⟨"memory", .memory⟩ ∈ exports)
    (hentry : ⟨entry, .function params results⟩ ∈ exports) (htypes : ¬ (params = [] ∧ results = [])) :
    ExportFault exports entry (.entryNotPlain entry)

namespace Interface

variable {exports : List Export} {entry : String}

theorem startable_or_fault (exports : List Export) (entry : String) :
    Startable exports entry ∨ ∃ e, ExportFault exports entry e := by
  by_cases hmemory : (⟨"memory", .memory⟩ : Export) ∈ exports
  · by_cases hentry : ∃ x ∈ exports, x.name = entry
    · obtain ⟨⟨name, item⟩, hx, rfl⟩ := hentry
      match item with
      | .function [] [] => exact .inl ⟨hmemory, hx⟩
      | .function (type :: params) results => exact .inr ⟨_, .notPlain _ _ hmemory hx (by simp)⟩
      | .function [] (type :: results) => exact .inr ⟨_, .notPlain _ _ hmemory hx (by simp)⟩
      | .memory | .table | .global => exact .inr ⟨_, .notFunction _ hmemory hx (by simp)⟩
    · exact .inr ⟨_, .noEntry hmemory fun x hx hname => hentry ⟨x, hx, hname⟩⟩
  · exact .inr ⟨_, .noMemory hmemory⟩

theorem checkExports_of_memory (hmemory : ⟨"memory", .memory⟩ ∈ exports) :
    checkExports exports entry = match exports.find? (·.name = entry) with
      | none => .error (.noEntry entry)
      | some ⟨_, .function [] []⟩ => .ok ()
      | some ⟨_, .function _ _⟩ => .error (.entryNotPlain entry)
      | some _ => .error (.entryNotFunction entry) := by
  have hany : exports.any (fun e => e.name = "memory" && e.item = .memory) = true :=
    List.any_eq_true.2 ⟨_, hmemory, by decide⟩
  unfold checkExports
  rw [if_pos hany]
  rfl

theorem find?_entry (hnames : (exports.map Export.name).Nodup) {item : Item} (hentry : ⟨entry, item⟩ ∈ exports) :
    exports.find? (·.name = entry) = some ⟨entry, item⟩ :=
  find?_key_of_mem hnames hentry

theorem checkExports_decides (hnames : (exports.map Export.name).Nodup) :
    Decides (checkExports exports entry) (Startable exports entry) (ExportFault exports entry) := by
  refine .of_complete ?_ ?_ (startable_or_fault exports entry)
  · rintro ⟨hmemory, hentry⟩
    rw [checkExports_of_memory hmemory, find?_entry hnames hentry]
  · rintro e (hmemory | ⟨hmemory, hentry⟩ | ⟨item, hmemory, hentry, hitem⟩ | ⟨params, results, hmemory, hentry, htypes⟩)
    · have hany : ¬ exports.any (fun e => e.name = "memory" && e.item = .memory) = true := by
        rintro hany
        obtain ⟨⟨name, item⟩, hx, hmatch⟩ := List.any_eq_true.1 hany
        obtain ⟨rfl, rfl⟩ : name = "memory" ∧ item = .memory := by simpa using hmatch
        exact hmemory hx
      unfold checkExports
      rw [if_neg hany]
      rfl
    · have hnone : exports.find? (·.name = entry) = none := by simpa using hentry
      rw [checkExports_of_memory hmemory, hnone]
    · rw [checkExports_of_memory hmemory, find?_entry hnames hentry]
      cases item with
      | function params results => exact absurd rfl (hitem params results)
      | memory | table | global => rfl
    · rw [checkExports_of_memory hmemory, find?_entry hnames hentry]
      match params, results with
      | [], [] => exact absurd ⟨rfl, rfl⟩ htypes
      | _ :: _, _ => rfl
      | [], _ :: _ => rfl

end Interface

/-! ### The linker -/

namespace Linker

variable {l : Linker}

theorem define?_of_forall_ne {d : Import} (h : ∀ d' ∈ l.definitions, d'.key ≠ d.key) :
    l.define? d = some ⟨l.definitions ++ [d]⟩ := by
  have hfree : l.item? d.module d.name = none := by simpa [item?, Import.key] using h
  rw [define?, hfree]

/-- Definitions whose names are not repeated are all taken in. -/
theorem foldlM_define? (ds : List Import) (h : ((l.definitions ++ ds).map Import.key).Nodup) :
    ds.foldlM define? l = some ⟨l.definitions ++ ds⟩ := by
  induction ds generalizing l with
  | nil => rw [List.append_nil]; rfl
  | cons d ds ih =>
    have hfree : ∀ d' ∈ l.definitions, d'.key ≠ d.key := by
      rw [List.map_append, List.nodup_append] at h
      exact fun d' hd' => h.2.2 _ (List.mem_map_of_mem hd') _ (List.mem_map_of_mem List.mem_cons_self)
    have hsplit : l.definitions ++ d :: ds = (l.definitions ++ [d]) ++ ds := by simp
    rw [hsplit] at h ⊢
    rw [List.foldlM_cons, define?_of_forall_ne hfree]
    exact ih h

theorem item?_of_mem (h : (l.definitions.map Import.key).Nodup) {d : Import} (hd : d ∈ l.definitions) :
    l.item? d.module d.name = some d.item :=
  congrArg (Option.map Import.item) (find?_key_of_mem h hd)

theorem nodup_operations : ((Operation.all.map operation).map Import.key).Nodup := by
  have hkeys : (Operation.all.map operation).map Import.key = (Operation.all.map Operation.name).map (hostModule, ·) := by
    simp [Import.key, operation, Function.comp_def]
  rw [hkeys]
  exact Operation.nodup_map_name.map fun _ _ h => (Prod.mk.inj h).2

theorem registerOperations?_empty : registerOperations? {} = some ⟨Operation.all.map operation⟩ := by
  have h := foldlM_define? (l := {}) (Operation.all.map operation) nodup_operations
  rwa [List.foldlM_map] at h

/-- Every import that can be bound is registered, with the types with which it is imported. -/
theorem resolves_of_bindable {j : Import} (hj : j.Bindable) : (⟨Operation.all.map operation⟩ : Linker).Resolves j := by
  obtain ⟨hmodule, op, hname, hitem⟩ := hj
  have hop := item?_of_mem (l := ⟨Operation.all.map operation⟩) nodup_operations (List.mem_map_of_mem op.mem_all)
  rw [Resolves, hmodule, ← hname, hitem]
  exact hop

end Linker

/-! ### Modules -/

namespace Interface

/-- The module can be run: it can be started, and all it imports is there. -/
structure Bindable (i : Interface) (entry : String) : Prop where
  exports : Startable i.exports entry
  imports : ∀ j ∈ i.imports, j.Bindable

/-- The first thing that is wrong with a module: its exports come first, and then its imports in their order. -/
inductive Fault (i : Interface) (entry : String) : InterfaceError → Prop
  | exports (e : InterfaceError) (he : ExportFault i.exports entry e) : Fault i entry e
  | imports (e : InterfaceError) (hexports : Startable i.exports entry) (before : List Import) (j : Import)
    (after : List Import) (himports : i.imports = before ++ j :: after) (hbefore : ∀ k ∈ before, k.Bindable)
    (hj : j.Fault e) : Fault i entry e

theorem check_decides (i : Interface) (entry : String) (hnames : (i.exports.map Export.name).Nodup) :
    Decides (i.check entry) (i.Bindable entry) (i.Fault entry) := by
  refine ((checkExports_decides hnames).seq (.forM checkImport_decides i.imports)).congr ?_ fun e => ⟨?_, ?_⟩
  · exact ⟨fun h => ⟨h.1, h.2⟩, fun h => ⟨h.exports, h.imports⟩⟩
  · rintro (he | ⟨hexports, before, j, after, himports, hbefore, hj⟩)
    · exact .exports e he
    · exact .imports e hexports before j after himports hbefore hj
  · rintro (he | ⟨hexports, before, j, after, himports, hbefore, hj⟩)
    · exact .inl he
    · exact .inr ⟨hexports, before, j, after, himports, hbefore, hj⟩

/-- A module whose exports have different names is accepted exactly if it can be bound, and then the linker has all its
imports; otherwise the error is that of the first check that fails. -/
theorem check_spec (i : Interface) (entry : String) (hnames : (i.exports.map Export.name).Nodup) :
    (i.check entry = .ok () ↔ i.Bindable entry) ∧
    (∀ e, i.check entry = .error e ↔ i.Fault entry e) ∧
    ∃ linker : Linker, Linker.registerOperations? {} = some linker ∧
      (i.check entry = .ok () → ∀ j ∈ i.imports, linker.item? j.module j.name = some j.item) := by
  have hdecides := i.check_decides entry hnames
  refine ⟨hdecides.ok_iff, hdecides.error_iff, _, Linker.registerOperations?_empty, fun hcheck j hj => ?_⟩
  exact Linker.resolves_of_bindable ((hdecides.ok_iff.1 hcheck).imports j hj)

private def stale : Interface where
  imports := [⟨"ethereum", "getCaller", .function [.i32] []⟩, ⟨"ethereum", "getGasLeft", .function [] [.i64]⟩]
  exports := [⟨"memory", .memory⟩, ⟨"main", .function [] []⟩]

/-- An operation that the table does not have is reported behind one that it has. -/
theorem check_unknown : stale.check "main" = .error (.unknownOperation "getGasLeft") := by
  have hbefore : (⟨"ethereum", "getCaller", .function [.i32] []⟩ : Import).Bindable := ⟨rfl, .getCaller, rfl, rfl⟩
  refine ((check_spec stale "main" (by decide)).2.1 _).2 ?_
  refine .imports _ ⟨.head _, .tail _ (.head _)⟩ [_] ⟨"ethereum", "getGasLeft", .function [] [.i64]⟩ [] rfl ?_ ?_
  · simpa using hbefore
  · exact .unknown [] [.i64] rfl rfl fun op => by cases op <;> decide

end Interface

end Guest

end ContractHost
