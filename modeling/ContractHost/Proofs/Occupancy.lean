import Mathlib.Algebra.BigOperators.Ring.Finset
import Mathlib.Algebra.Order.BigOperators.Group.Finset
import Mathlib.Data.Finset.Card
import ContractHost.Proofs.Price
import ContractHost.Proofs.Refunds
import ContractHost.Proofs.Storage

/-!
# Slots taken into use and given up

On a tree in memory a slot is given up no more often than it was taken into use before.  Each store that takes a slot
into use pays 15000 beyond its base price, and each that gives one up puts as much on the counter of refunds
(`meter_wrote`); for every key the two kinds of store alternate, so their numbers differ by what has become of the
slot (`occupancy_run`).  Hence all stores of a run, carried out or not, gain no more by giving slots up than was paid
for taking slots into use, and than those were worth that were in use from the start (`clearing_covered`).
-/

namespace ContractHost

variable {τ κ : Type}

theorem Gas.toNat_add_sub_le (a amount : UInt64) : (add a amount).toNat - a.toNat ≤ amount.toNat := by
  rw [toNat_add]
  omega

/-- One if the slot of the key holds a word other than zero. -/
def occupancy (callee : Path) (nodes : NodeMap) (k : Word) : Nat :=
  if slotWords callee nodes k = Word.zero then 0 else 1

namespace Passage

variable [Tree τ]

/-- The key that the turn stored to and the class of the write, if the turn stored and was carried out. -/
def wrote? (m : Message) (p : Passage τ κ) : Option (Word × SlotWrite) :=
  if p.answer.isOk then p.turn.slotWrite? m p.found.tree else none

/-- What a store that was carried out cost beyond its base price. -/
def surcharge (m : Message) (p : Passage τ κ) : Nat :=
  if (p.wrote? m).isSome then p.found.meter.remaining.toNat - p.left.meter.remaining.toNat - 5000 else 0

/-- What a store, carried out or not, put on the counter of refunds. -/
def gain (p : Passage τ κ) : Nat :=
  if p.turn.op = .storageStore then p.left.meter.refunded.toNat - p.found.meter.refunded.toNat else 0

end Passage

/-- The number of stores to the slot of `k` in the history that were of the class `write`. -/
def writes [Tree τ] (m : Message) (history : List (Passage τ κ)) (k : Word) (write : SlotWrite) : Nat :=
  history.countP fun p => p.wrote? m = some (k, write)

theorem writes_cons [Tree τ] (m : Message) (p : Passage τ κ) (history : List (Passage τ κ)) (k : Word)
    (write : SlotWrite) :
    writes m (p :: history) k write =
      writes m history k write + if p.wrote? m = some (k, write) then 1 else 0 := by
  simp only [writes, List.countP_cons, decide_eq_true_eq]

/-- The keys stored to. -/
def keysWritten [Tree τ] (m : Message) (history : List (Passage τ κ)) : Finset Word :=
  (history.filterMap fun p => (p.wrote? m).map Prod.fst).toFinset

namespace Host

/-! ### What the stores cost and pay back -/

section

variable [Tree τ] [Kernel κ] {m : Message} {f : Frame τ κ} {t : Turn}

theorem running_of_turn_ok {a : Option UInt64} (h : (turn m f t).1 = .ok a) : f.progress.status = .running := by
  have hrun := running_of_invoke_ok (of_turn_ok h)
  exact hrun

theorem wrote?_eq_some_iff {k : Word} {write : SlotWrite} :
    (passage m f t).wrote? m = some (k, write) ↔ ∃ a key value v, (turn m f t).1 = .ok a ∧
      Request.ofArgs? t.op t.args = some (.storageStore key value) ∧
      t.memory.readVector? 32 key = some k ∧ t.memory.readVector? 32 value = some v ∧
      write = .classify (.slot (Tree.get f.tree (m.callee.slot k)).1) v := by
  have hwrite : (passage m f t).wrote? m = if (turn m f t).1.isOk then t.slotWrite? m f.tree else none := rfl
  rw [hwrite]
  cases (turn m f t).1 with
  | ok a =>
    have hok : (Except.ok a : Answer).isOk = true := rfl
    rw [if_pos hok, Turn.slotWrite?_eq_some_iff]
    constructor
    · rintro ⟨key, value, v, h⟩
      exact ⟨a, key, value, v, rfl, h⟩
    · rintro ⟨_, key, value, v, -, h⟩
      exact ⟨key, value, v, h⟩
  | error e =>
    have hfail : (Except.error e : Answer).isOk ≠ true := by simp [Except.isOk, Except.toBool]
    rw [if_neg hfail]
    simp

/-- A store that was carried out has taken its base price, and 15000 more if it took a slot into use; it has put
15000 on the counter if it gave one up. -/
theorem meter_wrote {k : Word} {write : SlotWrite} (h : (passage m f t).wrote? m = some (k, write)) :
    (turn m f t).2.meter.remaining.toNat + (5000 + if write = .create then 15000 else 0) =
      f.meter.remaining.toNat ∧
    (turn m f t).2.meter.refunded = if write = .clear then Gas.add f.meter.refunded 15000 else f.meter.refunded := by
  obtain ⟨a, key, value, v, hanswer, hr, hk, hv, rfl⟩ := wrote?_eq_some_iff.1 h
  have hrun := running_of_turn_ok hanswer
  have hinvoke := of_turn_ok hanswer
  constructor
  · have hprice := ((priced_invoke (m := m) (f := { f with memory := t.memory }) hrun hr).ok _ _ hinvoke).2
    have hop : t.op = .storageStore := (Request.operation_of_ofArgs? hr).symm
    have hcost : t.op.cost.toNat = 5000 := by
      rw [hop]
      rfl
    simp only [Request.surcharge, hk, hv, hcost, ← classify_slot_eq_create_iff] at hprice
    exact hprice
  · obtain ⟨k', v', hk', hv', hrefunded, -⟩ := refunded_store (m := m) (f := { f with memory := t.memory }) hrun hr
      (by simp [failure?_ok hinvoke])
    obtain rfl : k = k' := Option.some.inj (hk.symm.trans hk')
    obtain rfl : v = v' := Option.some.inj (hv.symm.trans hv')
    rw [turn_snd, hrefunded]
    cases SlotWrite.classify (.slot (Tree.get f.tree (m.callee.slot k)).1) v with
    | clear => rfl
    | create | update | noop => exact Gas.add_zero f.meter.refunded

/-- A store that was carried out found its words in the memory. -/
theorem exists_wrote {a : Option UInt64} (hop : t.op = .storageStore) (h : (turn m f t).1 = .ok a) :
    ∃ k write, (passage m f t).wrote? m = some (k, write) := by
  have hinvoke := of_turn_ok h
  obtain ⟨r, hr, -⟩ := of_invoke_ok hinvoke
  obtain ⟨key, value, rfl⟩ := Request.eq_store_of_operation ((Request.operation_of_ofArgs? hr).trans hop)
  obtain ⟨k, v, hk, hv, -⟩ := refunded_store (m := m) (f := { f with memory := t.memory }) (running_of_turn_ok h) hr
    (by simp [failure?_ok hinvoke])
  exact ⟨k, _, wrote?_eq_some_iff.2 ⟨a, key, value, v, h, hr, hk, hv, rfl⟩⟩

end

/-! ### What the stores do to the slots -/

variable {κ : Type} [Kernel κ] {m : Message} {f : Frame NodeTree κ} {t : Turn}

theorem slotInUse_get_iff (callee : Path) (tree : NodeTree) (k : Word) :
    SlotInUse (Tree.get tree (callee.slot k)).1 ↔ slotWords callee tree.nodes k ≠ Word.zero := by
  rw [slotInUse_iff_value_ne, value_slot_get]
  rfl

theorem wrote?_of_stored {k v : Word} (h : t.stored? (turn m f t).1 = some (k, v)) :
    (passage m f t).wrote? m =
      some (k, if v = Word.zero then if slotWords m.callee f.tree.nodes k = Word.zero then .noop else .clear
        else if slotWords m.callee f.tree.nodes k = Word.zero then .create else .update) := by
  obtain ⟨a, key, value, hanswer, hr, hk, hv⟩ := Turn.stored?_eq_some_iff.1 h
  have hused := slotInUse_get_iff m.callee f.tree k
  refine wrote?_eq_some_iff.2 ⟨a, key, value, v, hanswer, hr, hk, hv, ?_⟩
  rw [classify_slot]
  by_cases hold : slotWords m.callee f.tree.nodes k = Word.zero
  · have hunused : ¬ SlotInUse (Tree.get f.tree (m.callee.slot k)).1 := fun hu => hused.1 hu hold
    simp only [hold, hunused, if_true, if_false]
  · have hinuse := hused.2 hold
    simp only [hold, hinuse, if_true, if_false]

theorem wrote?_of_not_stored (h : t.stored? (turn m f t).1 = none) : (passage m f t).wrote? m = none := by
  rw [Option.eq_none_iff_forall_ne_some]
  rintro ⟨k, write⟩ hwrote
  obtain ⟨a, key, value, v, hanswer, hr, hk, hv, -⟩ := wrote?_eq_some_iff.1 hwrote
  have hstored := Turn.stored?_eq_some_iff.2 ⟨a, key, value, hanswer, hr, hk, hv⟩
  rw [h] at hstored
  cases hstored

theorem slotWords_of_stored {k v : Word} (h : t.stored? (turn m f t).1 = some (k, v)) (k' : Word) :
    slotWords m.callee (turn m f t).2.tree.nodes k' =
      if k' = k then v else slotWords m.callee f.tree.nodes k' := by
  rw [slotWords, nodes_of_stored h]
  by_cases hkey : k' = k
  · rw [if_pos (by rw [hkey]), if_pos hkey, Word.ofEntry_entry]
  · rw [if_neg fun heq => hkey (m.callee.slot_injective heq), if_neg hkey, slotWords]

/-- The turn takes the slot of the key into use, gives it up, or leaves its use as it is. -/
theorem occupancy_turn (m : Message) (f : Frame NodeTree κ) (t : Turn) (k : Word) :
    (if (passage m f t).wrote? m = some (k, .create) then 1 else 0) + occupancy m.callee f.tree.nodes k =
      (if (passage m f t).wrote? m = some (k, .clear) then 1 else 0) +
        occupancy m.callee (turn m f t).2.tree.nodes k := by
  cases hstored : t.stored? (turn m f t).1 with
  | none =>
    rw [wrote?_of_not_stored hstored, occupancy, occupancy, slotWords, slotWords, nodes_of_not_stored hstored]
    simp only [reduceCtorEq, if_false]
  | some s =>
    obtain ⟨k', v⟩ := s
    rw [wrote?_of_stored hstored, occupancy, occupancy, slotWords_of_stored hstored]
    by_cases hkey : k = k'
    · subst hkey
      by_cases hnew : v = Word.zero <;> by_cases hold : slotWords m.callee f.tree.nodes k = Word.zero <;>
        simp [hnew, hold]
    · have hother : k' ≠ k := Ne.symm hkey
      simp [hkey, hother]

/-- In any run the stores that took the slot into use and those that gave it up alternate. -/
theorem occupancy_run (m : Message) (f : Frame NodeTree κ) (turns : List Turn) (k : Word) :
    writes m (passages m f turns) k .create + occupancy m.callee f.tree.nodes k =
      writes m (passages m f turns) k .clear + occupancy m.callee (play m f turns).2.tree.nodes k := by
  induction turns generalizing f with
  | nil => rfl
  | cons t turns ih =>
    have hturn := occupancy_turn m f t k
    have hrest := ih (turn m f t).2
    have hlast : (play m f (t :: turns)).2 = (play m (turn m f t).2 turns).2 := rfl
    rw [passages, writes_cons, writes_cons, hlast]
    omega

end Host

/-! ### Sums over the keys -/

section

variable [Tree τ] {m : Message}

theorem mem_keysWritten {history : List (Passage τ κ)} {p : Passage τ κ} {k : Word} {write : SlotWrite}
    (hp : p ∈ history) (h : p.wrote? m = some (k, write)) : k ∈ keysWritten m history := by
  rw [keysWritten, List.mem_toFinset, List.mem_filterMap]
  exact ⟨p, hp, by rw [h]; rfl⟩

/-- The stores of a class, counted key by key. -/
theorem sum_writes (history : List (Passage τ κ)) (keys : Finset Word)
    (hkeys : ∀ p ∈ history, ∀ k write, p.wrote? m = some (k, write) → k ∈ keys) (write : SlotWrite) :
    ∑ k ∈ keys, writes m history k write = history.countP fun p => (p.wrote? m).any (·.2 = write) := by
  induction history with
  | nil => simp [writes]
  | cons p history ih =>
    have hrest := ih fun q hq => hkeys q (List.mem_cons_of_mem _ hq)
    simp only [writes_cons, Finset.sum_add_distrib, hrest, List.countP_cons]
    congr 1
    cases hwrote : p.wrote? m with
    | none => simp
    | some w =>
      obtain ⟨k, write'⟩ := w
      have hk : k ∈ keys := hkeys p (List.mem_cons_self ..) k write' hwrote
      by_cases hclass : write' = write
      · simp [hclass, hk]
      · simp [hclass]

end

/-! ### What the stores pay -/

namespace Host

section

variable [Tree τ] [Kernel κ]

theorem surcharge_of_wrote {m : Message} {f : Frame τ κ} {t : Turn} {k : Word} {write : SlotWrite}
    (h : (passage m f t).wrote? m = some (k, write)) :
    (passage m f t).surcharge m = if write = .create then 15000 else 0 := by
  have hmeter := (meter_wrote h).1
  have hsome : ((passage m f t).wrote? m).isSome := by rw [h, Option.isSome_some]
  have hsurcharge : (passage m f t).surcharge m =
      f.meter.remaining.toNat - (turn m f t).2.meter.remaining.toNat - 5000 := if_pos hsome
  rw [hsurcharge]
  omega

theorem surcharge_passage (m : Message) (f : Frame τ κ) (t : Turn) :
    (passage m f t).surcharge m = 15000 * if ((passage m f t).wrote? m).any (·.2 = .create) then 1 else 0 := by
  cases hwrote : (passage m f t).wrote? m with
  | none => simp [Passage.surcharge, hwrote]
  | some w =>
    obtain ⟨k, write⟩ := w
    rw [surcharge_of_wrote hwrote]
    by_cases hcreate : write = .create <;> simp [hcreate]

theorem surcharge_run (m : Message) (f : Frame τ κ) (turns : List Turn) :
    ((passages m f turns).map (·.surcharge m)).sum =
      15000 * (passages m f turns).countP fun p => (p.wrote? m).any (·.2 = .create) := by
  induction turns generalizing f with
  | nil => simp [passages]
  | cons t turns ih =>
    have hturn := surcharge_passage m f t
    have hrest := ih (turn m f t).2
    rw [passages, List.map_cons, List.sum_cons, List.countP_cons]
    omega

end

variable {κ : Type} [Kernel κ] {m : Message} {f : Frame NodeTree κ} {t : Turn}

/-! ### What the stores gain -/

theorem gain_of_refunded_eq (h : (turn m f t).2.meter.refunded = f.meter.refunded) :
    (passage m f t).gain = 0 := by
  rw [Passage.gain]
  split
  · rw [passage, h, Nat.sub_self]
  · rfl

/-- A store that was not carried out has not put anything on the counter, as the tree refuses nothing. -/
theorem gain_of_error {e : OperationError} (h : (turn m f t).1 = .error e) : (passage m f t).gain = 0 := by
  have hrefunded := refunded_of_error h
  have hrefused : (passage m f t).refusedClear m = false := by
    have hinternal := turn_ne_internal m f t
    rw [h] at hinternal
    rw [Passage.refusedClear, passage, h]
    cases e with
    | internal text => exact absurd rfl (hinternal text)
    | trap _ | ended _ | arity _ _ _ => exact Bool.and_false _
  rw [hrefused] at hrefunded
  exact gain_of_refunded_eq hrefunded

/-- A store that was carried out has put no more on the counter than a slot is worth, and only if it gave one up. -/
theorem gain_of_ok {a : Option UInt64} (h : (turn m f t).1 = .ok a) :
    (passage m f t).gain ≤ 15000 * if ((passage m f t).wrote? m).any (·.2 = .clear) then 1 else 0 := by
  by_cases hop : t.op = .storageStore
  · have hgain : (passage m f t).gain = (turn m f t).2.meter.refunded.toNat - f.meter.refunded.toNat := if_pos hop
    obtain ⟨k, write, hwrote⟩ := exists_wrote hop h
    have hmeter := (meter_wrote hwrote).2
    rw [hgain, hmeter]
    by_cases hclear : write = .clear
    · have hamount : (15000 : UInt64).toNat = 15000 := by decide
      rw [if_pos hclear]
      have hadd := (Gas.toNat_add_sub_le f.meter.refunded 15000).trans_eq hamount
      simpa [hwrote, hclear] using hadd
    · rw [if_neg hclear, Nat.sub_self]
      exact Nat.zero_le _
  · have hgain : (passage m f t).gain = 0 := if_neg hop
    rw [hgain]
    exact Nat.zero_le _

theorem gain_turn (m : Message) (f : Frame NodeTree κ) (t : Turn) :
    (passage m f t).gain ≤ 15000 * if ((passage m f t).wrote? m).any (·.2 = .clear) then 1 else 0 := by
  cases h : (turn m f t).1 with
  | ok a => exact gain_of_ok h
  | error e =>
    rw [gain_of_error h]
    exact Nat.zero_le _

theorem gain_run (m : Message) (f : Frame NodeTree κ) (turns : List Turn) :
    ((passages m f turns).map (·.gain)).sum ≤
      15000 * (passages m f turns).countP fun p => (p.wrote? m).any (·.2 = .clear) := by
  induction turns generalizing f with
  | nil => simp [passages]
  | cons t turns ih =>
    have hturn := gain_turn m f t
    have hrest := ih (turn m f t).2
    rw [passages, List.map_cons, List.sum_cons, List.countP_cons]
    omega

/-- Of all slots together: those given up were taken into use, or were in use from the start. -/
theorem clears_le (m : Message) (f : Frame NodeTree κ) (turns : List Turn) :
    let history := passages m f turns
    (history.countP fun p => (p.wrote? m).any (·.2 = .clear)) ≤
      (history.countP fun p => (p.wrote? m).any (·.2 = .create)) +
        ((keysWritten m history).filter fun k => slotWords m.callee f.tree.nodes k ≠ Word.zero).card := by
  intro history
  have hkeys (p) (hp : p ∈ history) (k) (write) (h : p.wrote? m = some (k, write)) : k ∈ keysWritten m history :=
    mem_keysWritten hp h
  have hcard : ((keysWritten m history).filter fun k => slotWords m.callee f.tree.nodes k ≠ Word.zero).card =
      ∑ k ∈ keysWritten m history, occupancy m.callee f.tree.nodes k := by
    rw [Finset.card_filter]
    refine Finset.sum_congr rfl fun k _ => ?_
    rw [occupancy]
    by_cases hzero : slotWords m.callee f.tree.nodes k = Word.zero <;> simp [hzero]
  rw [← sum_writes history _ hkeys, ← sum_writes history _ hkeys, hcard, ← Finset.sum_add_distrib]
  refine Finset.sum_le_sum fun k _ => ?_
  have hrun : writes m history k .create + occupancy m.callee f.tree.nodes k =
      writes m history k .clear + _ := occupancy_run m f turns k
  omega

/-- In every run what stores put on the counter of refunds is covered by what those carried out took beyond their base
prices, and 15000 for each slot stored to that was in use at the start. -/
theorem clearing_covered (m : Message) (tree : NodeTree) (kernel : κ) (memory : Memory) (turns : List Turn) :
    let start := Frame.start m tree kernel memory
    let history := passages m start turns
    let last := (play m start turns).2
    (∀ p ∈ history, p.turn.op = .storageStore → p.answer.isOk = true →
      ∃ k write, p.wrote? m = some (k, write)) ∧
    (∀ p ∈ history, ∀ k write, p.wrote? m = some (k, write) →
      p.left.meter.remaining.toNat + (5000 + if write = .create then 15000 else 0) =
        p.found.meter.remaining.toNat ∧
      p.left.meter.refunded =
        if write = .clear then Gas.add p.found.meter.refunded 15000 else p.found.meter.refunded) ∧
    (∀ k, (writes m history k .create : Int) - writes m history k .clear =
      occupancy m.callee last.tree.nodes k - occupancy m.callee tree.nodes k) ∧
    (history.map (·.gain)).sum ≤ (history.map (·.surcharge m)).sum +
      15000 * ((keysWritten m history).filter fun k => slotWords m.callee tree.nodes k ≠ Word.zero).card := by
  intro start history last
  refine ⟨fun p hp hop hok => ?_, fun p hp k write hwrote => ?_, fun k => ?_, ?_⟩
  · have hpassage := eq_passage_of_mem hp
    rw [hpassage] at hok ⊢
    cases hanswer : (turn m p.found p.turn).1 with
    | ok a => exact exists_wrote hop hanswer
    | error e =>
      rw [passage, hanswer] at hok
      cases hok
  · have hpassage := eq_passage_of_mem hp
    rw [hpassage] at hwrote ⊢
    exact meter_wrote hwrote
  · have hrun : writes m history k .create + occupancy m.callee tree.nodes k =
        writes m history k .clear + occupancy m.callee last.tree.nodes k := occupancy_run m start turns k
    omega
  · have hclears : (history.countP fun p => (p.wrote? m).any (·.2 = .clear)) ≤
        (history.countP fun p => (p.wrote? m).any (·.2 = .create)) +
          ((keysWritten m history).filter fun k => slotWords m.callee tree.nodes k ≠ Word.zero).card :=
      clears_le m start turns
    have hgain : (history.map (·.gain)).sum ≤
        15000 * history.countP fun p => (p.wrote? m).any (·.2 = .clear) := gain_run m start turns
    have hsurcharge : (history.map (·.surcharge m)).sum =
        15000 * history.countP fun p => (p.wrote? m).any (·.2 = .create) := surcharge_run m start turns
    omega

end Host

end ContractHost
