import ContractHost.Guest.Run
import ContractHost.Proofs.Binding
import ContractHost.Proofs.Extent
import ContractHost.Proofs.Signature

/-!
# What a contract does

A run is a list of deeds, one for each instruction that was carried out on the frame that the one before has left
(`deeds`), and it ends as the last of them did (`run_eq_ending`).  A deed that calls the host is a turn, with the
memory of that moment and as much of the arguments as the operation takes; if the run goes on, what the host gave lies
where it is to be kept (`Deed.Answered`).  Any other deed touches only the memory of the contract and stops the run
only by a failure of the contract itself (`Local`).

So a new host, without a memory of its own, that is given the turns goes through them as the run does (`left_deeds`),
and what the run comes to is its final report (`execute_refines`).  Each deed and each turn but the last left the
execution running, so nothing was done once a call had ended it.  If the host is to blame for there being no outcome,
it failed by itself; if the contract is, or its fuel, the execution was running.
-/

namespace ContractHost.Guest

variable {τ κ : Type}

/-! ### The instructions of a run -/

/-- The instructions of the step, each as often as it is to be carried out. -/
def Step.code : Step → List Instruction
  | once i => [i]
  | times n body => (List.replicate n body).flatten

/-- The instructions of the contract in the order in which they are to be carried out. -/
def Contract.code (c : Contract) : List Instruction := c.body.flatMap Step.code

theorem Contract.mem_instructions {c : Contract} {i : Instruction} (h : i ∈ c.code) : i ∈ c.instructions := by
  obtain ⟨s, hs, hi⟩ := List.mem_flatMap.1 h
  refine List.mem_flatMap.2 ⟨s, hs, ?_⟩
  cases s with
  | once j => exact hi
  | times n body =>
    obtain ⟨l, hl, hmem⟩ := List.mem_flatten.1 hi
    rwa [List.eq_of_mem_replicate hl] at hmem

/-- An instruction as it was carried out. -/
structure Deed (τ κ : Type) where
  instruction : Instruction
  found : Frame τ κ
  result : EStateM.Result Stop (Frame τ κ) Unit

/-- The frame `g` is `f`, only that the bytes lie where they are to be kept. -/
def Kept (keep : Option UInt32) (b : Bytes) (f g : Frame τ κ) : Prop :=
  match keep with
  | some offset => g = { f with memory := g.memory } ∧ f.memory.Overlaid offset.toNat b g.memory
  | none => g = f

namespace Deed

def left (d : Deed τ κ) : Frame τ κ := lastFrame d.result

/-- The turn that is taken with the host, if it is called: in the memory that was found, with as much of the
arguments as the operation takes. -/
def turn? (d : Deed τ κ) : Option Turn :=
  match d.instruction with
  | .call op args _ => some ⟨d.found.memory, op, op.narrow args⟩
  | _ => none

/-- If the run goes on from a call, the host has answered it, and what it gave lies where it is to be kept. -/
def Answered [Tree τ] [Kernel κ] (m : Message) (d : Deed τ κ) : Prop :=
  ∀ op args keep g, d.instruction = .call op args keep → d.result = .ok () g →
    ∃ answer f, Host.invoke m op (op.narrow args) d.found = .ok answer f ∧ Kept keep (op.given answer) f g

end Deed

/-- How a run that begins in `f` ends. -/
def ending (f : Frame τ κ) (done : List (Deed τ κ)) : EStateM.Result Stop (Frame τ κ) Unit :=
  (done.getLast?.map Deed.result).getD (.ok () f)

section

variable [Tree τ] [Kernel κ]

def deed (m : Message) (bounds : Bounds) (i : Instruction) (f : Frame τ κ) : Deed τ κ := ⟨i, f, execute m bounds i f⟩

/-- The instructions one after the other, each as it goes, up to the first that stops the run. -/
def deeds (m : Message) (bounds : Bounds) : List Instruction → Frame τ κ → List (Deed τ κ)
  | [], _ => []
  | i :: code, f =>
    deed m bounds i f ::
      match execute m bounds i f with
      | .ok () g => deeds m bounds code g
      | .error _ _ => []

variable {m : Message} {bounds : Bounds} {i : Instruction} {code : List Instruction} {f g : Frame τ κ}

theorem deeds_of_ok (h : execute m bounds i f = .ok () g) :
    deeds m bounds (i :: code) f = deed m bounds i f :: deeds m bounds code g := by
  rw [deeds, h]

theorem deeds_of_error {stop : Stop} (h : execute m bounds i f = .error stop g) :
    deeds m bounds (i :: code) f = [deed m bounds i f] := by
  rw [deeds, h]

theorem ending_of_ok (h : execute m bounds i f = .ok () g) (done : List (Deed τ κ)) :
    ending f (deed m bounds i f :: done) = ending g done := by
  rw [ending, ending, List.getLast?_cons]
  cases done.getLast? with
  | none => exact h
  | some d => rfl

theorem repeated_eq_forM (body : List Instruction) (n : Nat) :
    repeated (body.forM (execute m bounds)) n =
      ((List.replicate n body).flatten.forM (execute m bounds) : Machine τ κ Unit) := by
  induction n with
  | zero => rfl
  | succ n ih =>
    rw [repeated, ih, List.replicate_succ, List.flatten_cons]
    exact List.forM_append.symm

theorem run_eq_forM (body : List Step) :
    run m bounds body = ((body.flatMap Step.code).forM (execute m bounds) : Machine τ κ Unit) := by
  induction body with
  | nil => rfl
  | cons s body ih =>
    have hstep : step m bounds s = (s.code.forM (execute m bounds) : Machine τ κ Unit) := by
      cases s with
      | once i => exact (bind_pure_unit).symm
      | times n body => exact repeated_eq_forM body n
    calc run m bounds (s :: body) = (do s.code.forM (execute m bounds); run m bounds body) := by rw [← hstep]; rfl
      _ = ((s :: body).flatMap Step.code).forM (execute m bounds) := by
        rw [ih, List.flatMap_cons]
        exact List.forM_append.symm

theorem forM_eq_ending (code : List Instruction) (f : Frame τ κ) :
    code.forM (execute m bounds) f = ending f (deeds m bounds code f) := by
  induction code generalizing f with
  | nil => rfl
  | cons i code ih =>
    cases h : execute m bounds i f with
    | ok a g =>
      rw [deeds_of_ok h, ending_of_ok h, ← ih]
      exact Host.bind_ok h _
    | error stop g =>
      rw [deeds_of_error h]
      exact (Host.bind_error h _).trans h.symm

theorem run_eq_ending (c : Contract) (f : Frame τ κ) :
    run m bounds c.body f = ending f (deeds m bounds c.code f) := by
  rw [run_eq_forM]
  exact forM_eq_ending c.code f

end

/-! ### What the contract does by itself -/

/-- No amount of fuel is enough. -/
theorem circle_eq (fuel : Nat) : (circle fuel : Machine τ κ Unit) = throw .fuelExhausted := by
  induction fuel with
  | zero => rfl
  | succ fuel ih => exact ih

/-- The computation touches only the memory, and stops only by a failure of the contract itself. -/
structure Local {α : Type} (x : Machine τ κ α) : Prop where
  left : ∀ f, ∃ memory, lastFrame (x f) = { f with memory }
  stop : ∀ {f stop g}, x f = .error stop g → stop = .trapped ∨ stop = .fuelExhausted

namespace Local

variable {α β : Type}

theorem pure (a : α) : Local (Pure.pure a : Machine τ κ α) where
  left f := ⟨f.memory, rfl⟩
  stop h := by cases h

theorem throw {stop : Stop} (h : stop = .trapped ∨ stop = .fuelExhausted) : Local (throw stop : Machine τ κ α) where
  left f := ⟨f.memory, rfl⟩
  stop hstop := by
    cases hstop
    exact h

theorem of_ok {x : Machine τ κ α} {f g : Frame τ κ} {a : α} (hx : Local x) (h : x f = .ok a g) :
    ∃ memory, g = { f with memory } := by
  have hleft := hx.left f
  rw [h] at hleft
  exact hleft

theorem bind {x : Machine τ κ α} {k : α → Machine τ κ β} (hx : Local x) (hk : ∀ a, Local (k a)) : Local (x >>= k) where
  left f := by
    cases h : x f with
    | ok a g =>
      obtain ⟨memory, rfl⟩ := hx.of_ok h
      rw [Host.bind_ok h]
      exact (hk a).left _
    | error stop g =>
      have hleft := hx.left f
      rw [h] at hleft
      rw [Host.bind_error h]
      exact hleft
  stop h := by
    rcases Host.of_bind_error h with h | ⟨a, g, -, h⟩
    · exact hx.stop h
    · exact (hk a).stop h

theorem load (offset : UInt32) (length : Nat) : Local (load offset length : Machine τ κ Bytes) where
  left f := by
    unfold Guest.load
    split <;> exact ⟨f.memory, rfl⟩
  stop h := by
    unfold Guest.load at h
    split at h <;> cases h
    exact .inl rfl

theorem store (offset : UInt32) (b : Bytes) : Local (store offset b : Machine τ κ Unit) where
  left f := by
    unfold Guest.store
    split
    · exact ⟨_, rfl⟩
    · exact ⟨f.memory, rfl⟩
  stop h := by
    unfold Guest.store at h
    split at h <;> cases h
    exact .inl rfl

theorem keepAt (keep : Option UInt32) (width n : Nat) : Local (keepAt keep width n : Machine τ κ Unit) := by
  cases keep with
  | none => exact pure ()
  | some offset => exact store offset _

theorem pageCount : Local (pageCount : Machine τ κ Nat) where
  left f := ⟨f.memory, rfl⟩
  stop h := by cases h

theorem addPages (count : Nat) : Local (addPages count : Machine τ κ Unit) where
  left _ := ⟨_, rfl⟩
  stop h := by cases h

theorem circle (fuel : Nat) : Local (circle fuel : Machine τ κ Unit) := by
  rw [circle_eq]
  exact throw (.inr rfl)

end Local

/-! ### What the contract keeps -/

theorem littleEndian_eq (width n : Nat) :
    littleEndian width n = (List.range width).map fun i => UInt8.ofNat (n >>> (8 * i)) := by
  induction width generalizing n with
  | zero => rfl
  | succ width ih =>
    have hshift (i : Nat) : (n / 256) >>> (8 * i) = n >>> (8 * (i + 1)) := by
      rw [Nat.mul_succ, Nat.add_comm, Nat.shiftRight_add, Nat.shiftRight_eq_div_pow n 8]
    have hrest := ih (n / 256)
    simp only [littleEndian, hshift] at hrest
    rw [littleEndian, Bytes.ofNat, List.reverse_concat, hrest, List.range_succ_eq_map, List.map_cons, List.map_map]
    rfl

theorem kept_of_keepAt {keep : Option UInt32} {width n : Nat} {f g : Frame τ κ}
    (h : keepAt keep width n f = .ok () g) : Kept keep (littleEndian width n) f g := by
  cases keep with
  | none =>
    cases h
    rfl
  | some offset =>
    rw [keepAt, store] at h
    split at h
    · rename_i memory hwrite
      cases h
      exact ⟨rfl, .of_write? hwrite⟩
    · cases h

theorem kept_nothing (keep : Option UInt32) (f : Frame τ κ) : Kept keep [] f f := by
  cases keep with
  | none => rfl
  | some offset => exact ⟨rfl, .refl ..⟩

section

variable [Tree τ] [Kernel κ] {m : Message} {bounds : Bounds} {i : Instruction} {f g : Frame τ κ}

/-- Whatever is no call of the host is done by the contract itself. -/
theorem local_execute (hi : ∀ op args keep, i ≠ .call op args keep) :
    Local (execute m bounds i : Machine τ κ Unit) := by
  cases i with
  | call op args keep => exact absurd rfl (hi op args keep)
  | store32 offset value => exact .store offset _
  | store64 offset value => exact .store offset _
  | copyByte target source => exact .bind (.load source 1) fun b => .store target b
  | grow pages keep =>
    refine .bind .pageCount fun old => ?_
    split
    · exact .bind (.addPages _) fun _ => .keepAt keep 4 old
    · exact .keepAt keep 4 _
  | size keep => exact .bind .pageCount fun count => .keepAt keep 4 count
  | unreachable | divideByZero => exact .throw (.inl rfl)
  | spin => exact .circle bounds.fuel

/-- A call of the host is followed only by what the contract does with the result. -/
theorem execute_call (m : Message) (bounds : Bounds) (op : Operation) (args : List UInt64) (keep : Option UInt32) :
    ∃ k : Option UInt64 → Machine τ κ Unit, (∀ result, Local (k result)) ∧
      execute m bounds (.call op args keep) = ask m op args >>= k := by
  refine ⟨_, fun result => ?_, rfl⟩
  split
  · exact .keepAt keep _ _
  · exact .pure ()

/-! ### What the host does for the contract -/

theorem passed_eq_narrow : passed = NumType.narrow := by
  rw [NumType.narrow_eq]
  funext type w
  cases type <;> rfl

theorem ask_eq (m : Message) (op : Operation) (args : List UInt64) (f : Frame τ κ) :
    ask m op args f =
      match Host.invoke m op (op.narrow args) f with
      | .ok result f =>
        if f.progress.status.isTerminal then .error (.host (.ended f.progress.status)) f else .ok result f
      | .error e f => .error (.host e) f := by
  rw [ask, passed_eq_narrow]
  rfl

theorem of_ask_ok {op : Operation} {args : List UInt64} {a : Option UInt64} (h : ask m op args f = .ok a g) :
    Host.invoke m op (op.narrow args) f = .ok a g ∧ g.progress.status = .running := by
  rw [ask_eq] at h
  split at h
  · rename_i result k hinvoke
    split at h
    · cases h
    · rename_i hterminal
      cases h
      exact ⟨hinvoke, Decidable.not_not.1 (Status.isTerminal_iff.not.1 hterminal)⟩
  · cases h

theorem of_ask_error {op : Operation} {args : List UInt64} {stop : Stop} (h : ask m op args f = .error stop g) :
    ∃ e, stop = .host e ∧ (Host.invoke m op (op.narrow args) f = .error e g ∨
      g.progress.status ≠ .running ∧ ∃ a, Host.invoke m op (op.narrow args) f = .ok a g) := by
  rw [ask_eq] at h
  split at h
  · rename_i result k hinvoke
    split at h
    · rename_i hterminal
      cases h
      exact ⟨_, rfl, .inr ⟨Status.isTerminal_iff.1 hterminal, result, hinvoke⟩⟩
    · cases h
  · rename_i e k hinvoke
    cases h
    exact ⟨e, rfl, .inl hinvoke⟩

/-- A call from which the run goes on is answered, and its result is kept. -/
theorem answered_deed (m : Message) (bounds : Bounds) (i : Instruction) (f : Frame τ κ) :
    (deed m bounds i f).Answered m := by
  rintro op args keep g rfl h
  obtain ⟨answer, f', hask, hkeep⟩ := Host.of_bind_ok (show (ask m op args >>= _) f = .ok () g from h)
  refine ⟨answer, f', (of_ask_ok hask).1, ?_⟩
  unfold Operation.given
  generalize op.result = result at hkeep ⊢
  match result, answer with
  | some type, some n =>
    have hkept := kept_of_keepAt hkeep
    rw [littleEndian_eq] at hkept
    exact hkept
  | some _, none | none, _ =>
    cases hkeep
    exact kept_nothing keep _

/-- A call leaves the frame that its turn leaves. -/
theorem left_ask (m : Message) (op : Operation) (args : List UInt64) (f : Frame τ κ) :
    lastFrame (ask m op args f) = (Host.turn m f ⟨f.memory, op, op.narrow args⟩).2 := by
  cases h : ask m op args f with
  | ok a g =>
    obtain ⟨hinvoke, -⟩ := of_ask_ok h
    rw [Host.turn_of_ok hinvoke]
    rfl
  | error stop g =>
    obtain ⟨e, -, hinvoke | ⟨-, a, hinvoke⟩⟩ := of_ask_error h
    · rw [Host.turn_of_error hinvoke]
      rfl
    · rw [Host.turn_of_ok hinvoke]
      rfl

/-! ### One deed -/

theorem call_or_not (i : Instruction) :
    (∃ op args keep, i = .call op args keep) ∨ ∀ op args keep, i ≠ .call op args keep := by
  cases i <;> simp

theorem turn?_of_not_call (hi : ∀ op args keep, i ≠ .call op args keep) : (deed m bounds i f).turn? = none := by
  cases i with
  | call op args keep => exact absurd rfl (hi op args keep)
  | _ => rfl

/-- But for the memory, a deed leaves what its turn leaves, if it takes one.  The host may have had another memory
before. -/
theorem left_deed (m : Message) (bounds : Bounds) (i : Instruction) (g : Frame τ κ) (memory : Memory) :
    ∃ memory', (deed m bounds i { g with memory }).left =
      { (Host.play m g (deed m bounds i { g with memory }).turn?.toList).2 with memory := memory' } := by
  rcases call_or_not i with ⟨op, args, keep, rfl⟩ | hi
  · obtain ⟨k, hk, hexecute⟩ := execute_call (τ := τ) (κ := κ) m bounds op args keep
    have hask := left_ask m op args { g with memory }
    have hleft : (deed m bounds (.call op args keep) { g with memory }).left =
      lastFrame ((ask m op args >>= k) { g with memory }) := by rw [← hexecute]; rfl
    rw [hleft]
    cases h : ask m op args { g with memory } with
    | ok a f =>
      rw [h] at hask
      obtain ⟨memory', hlocal⟩ := (hk a).left f
      rw [Host.bind_ok h, hlocal, show f = _ from hask]
      exact ⟨memory', rfl⟩
    | error stop f =>
      rw [h] at hask
      rw [Host.bind_error h, show lastFrame _ = f from rfl, show f = _ from hask]
      exact ⟨_, rfl⟩
  · rw [turn?_of_not_call hi]
    exact (local_execute hi).left { g with memory }

/-- The run goes on only if the execution does. -/
theorem running_of_execute_ok (hrun : f.progress.status = .running) (h : execute m bounds i f = .ok () g) :
    g.progress.status = .running := by
  rcases call_or_not i with ⟨op, args, keep, rfl⟩ | hi
  · obtain ⟨k, hk, hexecute⟩ := execute_call (τ := τ) (κ := κ) m bounds op args keep
    rw [hexecute] at h
    obtain ⟨a, f', hask, hrest⟩ := Host.of_bind_ok h
    obtain ⟨memory, rfl⟩ := (hk a).of_ok hrest
    exact (of_ask_ok hask).2
  · obtain ⟨memory, rfl⟩ := (local_execute hi).of_ok h
    exact hrun

/-- A call with the right number of arguments that stops the run, but not the execution, has failed in the host. -/
theorem internal_of_execute_error {e : OperationError} (hrun : f.progress.status = .running)
    (hargs : ∀ op args keep, i = .call op args keep → args.length = op.params.length)
    (h : execute m bounds i f = .error (.host e) g) (hgoes : g.progress.status = .running) :
    ∃ text, e = .internal text := by
  rcases call_or_not i with ⟨op, args, keep, rfl⟩ | hi
  · obtain ⟨k, hk, hexecute⟩ := execute_call (τ := τ) (κ := κ) m bounds op args keep
    rw [hexecute] at h
    rcases Host.of_bind_error h with hask | ⟨a, f', -, hrest⟩
    · obtain ⟨e', he, hinvoke | ⟨hended, -⟩⟩ := of_ask_error hask
      · cases he
        have hlength : (op.narrow args).length = op.params.length := by
          rw [Operation.narrow, List.length_zipWith, hargs op args keep rfl, Nat.min_self]
        rcases Host.trap_or_internal hrun hlength hinvoke with ⟨why, rfl⟩ | ⟨text, rfl⟩
        · have hstatus := (Host.status_of_error hrun hinvoke).1
          rw [hgoes] at hstatus
          cases hstatus
        · exact ⟨text, rfl⟩
      · exact absurd hgoes hended
    · cases (hk a).stop hrest with
      | inl h => cases h
      | inr h => cases h
  · cases (local_execute hi).stop h with
    | inl h => cases h
    | inr h => cases h

/-! ### All deeds -/

omit [Tree τ] [Kernel κ] in
private theorem filterMap_turn?_cons (d : Deed τ κ) (done : List (Deed τ κ)) :
    (d :: done).filterMap Deed.turn? = d.turn?.toList ++ done.filterMap Deed.turn? := by
  cases h : d.turn? <;> simp [h]

private theorem play_turn? (m : Message) (g : Frame τ κ) (d : Deed τ κ) (turns : List Turn) :
    (Host.play m g (d.turn?.toList ++ turns)).2 = (Host.play m (Host.play m g d.turn?.toList).2 turns).2 := by
  cases d.turn? <;> rfl

private theorem passages_turn? (m : Message) (g : Frame τ κ) (d : Deed τ κ) (turns : List Turn) :
    Host.passages m g (d.turn?.toList ++ turns) =
      Host.passages m g d.turn?.toList ++ Host.passages m (Host.play m g d.turn?.toList).2 turns := by
  cases d.turn? <;> rfl

private theorem left_of_mem_passages {d : Deed τ κ} {p : Passage τ κ}
    (hp : p ∈ Host.passages m g d.turn?.toList) : p.left = (Host.play m g d.turn?.toList).2 := by
  cases h : d.turn? with
  | none =>
    rw [h] at hp
    cases hp
  | some t =>
    rw [h] at hp
    obtain rfl := List.mem_singleton.1 hp
    rfl

/-- A deed that goes well leaves its successor what its turn leaves, but for the memory. -/
theorem of_execute_ok {memory : Memory} (h : execute m bounds i { g with memory } = .ok () f) :
    ∃ g' memory', (Host.play m g (deed m bounds i { g with memory }).turn?.toList).2 = g' ∧
      f = { g' with memory := memory' } := by
  obtain ⟨memory', hleft⟩ := left_deed m bounds i g memory
  rw [Deed.left, deed, h] at hleft
  exact ⟨_, memory', rfl, hleft⟩

/-- But for the memory, a run leaves what its turns leave. -/
theorem left_deeds (m : Message) (bounds : Bounds) (code : List Instruction) (g : Frame τ κ) (memory : Memory) :
    let done := deeds m bounds code { g with memory }
    ∃ memory', lastFrame (ending { g with memory } done) =
      { (Host.play m g (done.filterMap Deed.turn?)).2 with memory := memory' } := by
  induction code generalizing g memory with
  | nil => exact ⟨memory, rfl⟩
  | cons i code ih =>
    intro done
    cases h : execute m bounds i { g with memory } with
    | ok _ f =>
      obtain ⟨g', memory', hplay, rfl⟩ := of_execute_ok h
      rw [show done = _ from deeds_of_ok h, ending_of_ok h, filterMap_turn?_cons, play_turn?, hplay]
      exact ih g' memory'
    | error stop f =>
      rw [show done = _ from deeds_of_error h, filterMap_turn?_cons, List.filterMap_nil, List.append_nil]
      exact left_deed m bounds i g memory

omit [Tree τ] [Kernel κ] in
private theorem forall_dropLast_append {α : Type} {P : α → Prop} {l l' : List α} (hl : ∀ a ∈ l, P a)
    (hl' : ∀ a ∈ l'.dropLast, P a) : ∀ a ∈ (l ++ l').dropLast, P a := by
  intro a ha
  rw [List.dropLast_append] at ha
  split at ha
  · exact hl a ((List.dropLast_sublist l).subset ha)
  · exact (List.mem_append.1 ha).elim (hl a) (hl' a)

theorem answered_of_mem_deeds (code : List Instruction) : ∀ d ∈ deeds m bounds code f, d.Answered m := by
  induction code generalizing f with
  | nil => simp [deeds]
  | cons i code ih =>
    cases h : execute m bounds i f with
    | ok _ g =>
      rw [deeds_of_ok h, List.forall_mem_cons]
      exact ⟨answered_deed m bounds i f, ih⟩
    | error stop g =>
      rw [deeds_of_error h, List.forall_mem_singleton]
      exact answered_deed m bounds i f

/-- Each deed but the last leaves the execution running. -/
theorem running_of_mem_deeds (hrun : f.progress.status = .running) (code : List Instruction) :
    ∀ d ∈ (deeds m bounds code f).dropLast, d.left.progress.status = .running := by
  induction code generalizing f with
  | nil => simp [deeds]
  | cons i code ih =>
    cases h : execute m bounds i f with
    | ok _ g =>
      have hgoes := running_of_execute_ok hrun h
      have hleft : (deed m bounds i f).left = g := by rw [Deed.left, deed, h]; rfl
      rw [deeds_of_ok h, ← List.singleton_append]
      exact forall_dropLast_append (by simpa [hleft] using hgoes) (ih hgoes)
    | error stop g =>
      rw [deeds_of_error h]
      simp

/-- Each turn of a run but the last leaves the execution running. -/
theorem running_of_mem_passages (hrun : g.progress.status = .running) (code : List Instruction) (memory : Memory) :
    ∀ p ∈ (Host.passages m g ((deeds m bounds code { g with memory }).filterMap Deed.turn?)).dropLast,
      p.left.progress.status = .running := by
  induction code generalizing g memory with
  | nil => simp [deeds, Host.passages]
  | cons i code ih =>
    cases h : execute m bounds i { g with memory } with
    | ok _ f =>
      obtain ⟨g', memory', hplay, rfl⟩ := of_execute_ok h
      have hgoes : g'.progress.status = .running :=
        running_of_execute_ok (f := { g with memory }) (g := { g' with memory := memory' }) hrun h
      rw [deeds_of_ok h, filterMap_turn?_cons, passages_turn?, hplay]
      refine forall_dropLast_append (fun p hp => ?_) (ih hgoes memory')
      rwa [left_of_mem_passages hp, hplay]
    | error stop f =>
      rw [deeds_of_error h, filterMap_turn?_cons, List.filterMap_nil, List.append_nil]
      cases (deed m bounds i { g with memory }).turn? <;> simp [Host.passages]

/-- What stops a run, if it leaves the execution running. -/
theorem stop_of_deeds (hrun : f.progress.status = .running) (code : List Instruction)
    (hargs : ∀ op args keep, .call op args keep ∈ code → args.length = op.params.length) {e : OperationError}
    (h : ending f (deeds m bounds code f) = .error (.host e) g) (hgoes : g.progress.status = .running) :
    ∃ text, e = .internal text := by
  induction code generalizing f with
  | nil => cases h
  | cons i code ih =>
    cases hi : execute m bounds i f with
    | ok _ f' =>
      rw [deeds_of_ok hi, ending_of_ok hi] at h
      exact ih (running_of_execute_ok hrun hi) (fun op args keep hmem => hargs op args keep (.tail _ hmem)) h
    | error stop f' =>
      rw [deeds_of_error hi] at h
      exact internal_of_execute_error hrun (fun op args keep heq => hargs op args keep (heq ▸ .head _)) h hgoes

end

/-! ### Contracts -/

namespace Contract

theorem load_eq_ok_iff {c : Contract} {settings : Settings} :
    c.load settings = .ok () ↔ c.WellFormed settings.entryPoint ∧
      (c.interface settings.entryPoint).check settings.entryPoint = .ok () := by
  unfold load
  by_cases hwell : c.WellFormed settings.entryPoint
  · cases hcheck : (c.interface settings.entryPoint).check settings.entryPoint with
    | ok _ => simp [hwell, pure, Except.pure]
    | error e => simp [hwell, throw, throwThe, MonadExceptOf.throw]
  · simp [hwell, throw, throwThe, MonadExceptOf.throw, bind, Except.bind]

/-- A contract that has been loaded is always linked. -/
theorem instantiate?_of_load {c : Contract} {settings : Settings} (hload : c.load settings = .ok ()) :
    c.instantiate? settings = c.memory? settings := by
  obtain ⟨hwell, hcheck⟩ := load_eq_ok_iff.1 hload
  have hnames : ((c.interface settings.entryPoint).exports.map Export.name).Nodup := by
    simpa [interface] using hwell.1.symm
  have hbindable := ((Interface.check_decides _ _ hnames).ok_iff.1 hcheck).imports
  have hlinked : ∀ j ∈ (c.interface settings.entryPoint).imports,
      (⟨Operation.all.map Linker.operation⟩ : Linker).Resolves j :=
    fun j hj => Linker.resolves_of_bindable (hbindable j hj)
  rw [instantiate?, Linker.registerOperations?_empty]
  exact congrArg (Option.bind · fun _ => c.memory? settings) (if_pos hlinked)

theorem args_of_wellFormed {c : Contract} {entryPoint : String} (hwell : c.WellFormed entryPoint) {op : Operation}
    {args : List UInt64} {keep : Option UInt32} (h : .call op args keep ∈ c.code) : args.length = op.params.length :=
  hwell.2.2.2 _ (mem_instructions h)

end Contract

/-! ### Runs as the host sees them -/

section

variable [Tree τ] [Kernel κ]

omit [Tree τ] [Kernel κ] in
theorem report_eq_ok {r : EStateM.Result Stop (Frame τ κ) Unit} {outcome : Outcome} (h : report r = .ok outcome) :
    outcome = (lastFrame r).finish := by
  unfold report at h
  split at h
  · cases h
    rfl
  · split at h <;> cases h
    rfl

omit [Tree τ] [Kernel κ] in
theorem report_eq_error {r : EStateM.Result Stop (Frame τ κ) Unit} {e : RunError} (h : report r = .error e) :
    ∃ stop f, r = .error stop f ∧ f.progress.status = .running ∧ e = stop.toError := by
  unfold report at h
  split at h
  · cases h
  · rename_i stop f
    split at h <;> cases h
    rename_i hterminal
    exact ⟨stop, f, rfl, Decidable.not_not.1 (Status.isTerminal_iff.not.1 hterminal), rfl⟩

/-- What a loaded contract comes to is what a new host says of the turns that it takes, and no turn follows one that
ends the execution. -/
theorem execute_refines (c : Contract) (settings : Settings) (m : Message) (tree : τ) (kernel : κ)
    (hload : c.load settings = .ok ()) :
    let run := c.execute settings m tree kernel
    (∀ outcome, run.1 = .ok outcome → ∃ memory, c.memory? settings = some memory ∧
      let start := Frame.start m tree kernel memory
      let fresh := Frame.start m tree kernel (.zeros 0)
      let done := deeds m (c.bounds settings) c.code start
      let calls := done.filterMap Deed.turn?
      run.2 = lastFrame (ending start done) ∧
      run.2 = { (Host.play m fresh calls).2 with memory := run.2.memory } ∧
      outcome = (Host.play m fresh calls).2.finish ∧ outcome.status ≠ .running ∧
      (∀ p ∈ (Host.passages m fresh calls).dropLast, p.left.progress.status = .running) ∧
      (∀ d ∈ done.dropLast, d.left.progress.status = .running) ∧ ∀ d ∈ done, d.Answered m) ∧
    (∀ e, run.1 = .error (.host e) → ∃ text, e = .internal text) ∧
    (run.1 = .error .trapped ∨ run.1 = .error .fuelExhausted → run.2.progress.status = .running) := by
  intro run
  cases hmemory : c.memory? settings with
  | none =>
    have hrun : run = (.error .module, .start m tree kernel (.zeros 0)) := by
      simp only [run, Contract.execute, Contract.instantiate?_of_load hload, hmemory]
    simp [hrun]
  | some memory =>
    let start := Frame.start m tree kernel memory
    let done := deeds m (c.bounds settings) c.code start
    have hrun : run = (report (ending start done), lastFrame (ending start done)) := by
      simp only [run, Contract.execute, Contract.instantiate?_of_load hload, hmemory, run_eq_ending, start, done]
    rw [hrun]
    refine ⟨fun outcome houtcome => ⟨memory, rfl, ?_⟩, fun e he => ?_, fun h => ?_⟩
    · intro start fresh done calls
      obtain ⟨memory', hleft⟩ := left_deeds m (c.bounds settings) c.code fresh memory
      have hleft' : lastFrame (ending start done) = { (Host.play m fresh calls).2 with memory := memory' } := hleft
      have hfinish : outcome = (Host.play m fresh calls).2.finish := by
        rw [report_eq_ok houtcome, hleft']
        rfl
      refine ⟨rfl, ?_, hfinish, ?_, running_of_mem_passages rfl c.code memory, running_of_mem_deeds rfl c.code,
        answered_of_mem_deeds c.code⟩
      · rw [hleft']
      · rw [hfinish]
        exact (Host.finish_of_flagged (Host.flagged_play m tree kernel (.zeros 0) calls)).1
    · obtain ⟨stop, f, hstop, hgoes, herror⟩ := report_eq_error he
      cases stop with
      | host e' =>
        cases herror
        exact stop_of_deeds rfl c.code
          (fun _ _ _ hmem => Contract.args_of_wellFormed (Contract.load_eq_ok_iff.1 hload).1 hmem) hstop hgoes
      | trapped | fuelExhausted => cases herror
    · obtain ⟨e, he⟩ : ∃ e, report (ending start done) = .error e := by
        rcases h with h | h <;> exact ⟨_, h⟩
      obtain ⟨stop, f, hstop, hgoes, -⟩ := report_eq_error he
      rw [hstop]
      exact hgoes

end

private def patron : Message :=
  { callee := .root, sender := .root, origin := .root, gas := 100, block := { number := 258 } }

/-- Asks for the number of the block twice, and returns bytes from its data, of a word of its own and of the number. -/
private def departing : Contract where
  body := [.times 2 [.call .getBlockNumber [] (some 7)], .once (.store32 3 0x04030201),
    .once (.call .returnData [0x100000002, 0x200000006] none), .once .unreachable]
  data := [(2, [9])]

private def loaded : Memory := (Memory.zeros pageSize).splice 2 [9]

/-- The memory in which the number has been kept. -/
private def numbered : Memory := loaded.splice 7 [2, 1, 0, 0, 0, 0, 0, 0]

private def farewell : List Turn :=
  [⟨loaded, .getBlockNumber, []⟩, ⟨numbered, .getBlockNumber, []⟩,
    ⟨(numbered.splice 7 [2, 1, 0, 0, 0, 0, 0, 0]).splice 3 [1, 2, 3, 4], .returnData, [2, 6]⟩]

/-- A contract that returns in time does not come to its failure. -/
theorem execute_departing :
    ∃ outcome, (departing.execute {} patron ({} : NodeTree) ({} : Script)).1 = .ok outcome ∧
      outcome = (Host.play patron (.start patron ({} : NodeTree) ({} : Script) (.zeros 0)) farewell).2.finish ∧
      outcome.result.output = [9, 1, 2, 3, 4, 2] := by
  have hload : departing.load {} = .ok () := rfl
  obtain ⟨hok, -⟩ := execute_refines departing {} patron ({} : NodeTree) ({} : Script) hload
  obtain ⟨outcome, houtcome⟩ : ∃ outcome, (departing.execute {} patron ({} : NodeTree) ({} : Script)).1 = .ok outcome :=
    ⟨_, rfl⟩
  obtain ⟨memory, hmemory, -, -, hfinish, -⟩ := hok outcome houtcome
  obtain rfl : loaded = memory := Option.some.inj hmemory
  refine ⟨outcome, houtcome, hfinish, ?_⟩
  rw [hfinish]
  decide +kernel

end ContractHost.Guest
