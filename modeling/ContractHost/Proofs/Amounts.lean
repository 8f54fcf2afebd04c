import ContractHost.Proofs.Contents
import ContractHost.Proofs.Encoding
import ContractHost.Proofs.Extent
import ContractHost.Proofs.Locations

/-!
# Amounts and balances

An amount is written as sixteen bytes and read from sixteen bytes or fewer, the highest first.  What is read is written
again with zeros before it, so that two strings are the same amount exactly if they differ in the zeros that they
begin with.

The balance with which an account was put into a tree in memory is the one that `getBalance` finds when it looks where
the account was put, whatever has become of the rest of the tree (`NodeTree.Endowed`).  It is written byte for byte,
whenever it is paid for and there is room for it, and nothing else changes (`amounts_in_bytes`).
-/

namespace ContractHost

namespace Amount

theorem length_le_of_ofBytes? {b : Bytes} {v : Amount} (h : ofBytes? b = some v) : b.length ≤ 16 := by
  refine Nat.not_lt.1 fun hlong => ?_
  rw [ofBytes?_eq_none_iff.2 hlong] at h
  cases h

/-- What was read is written with as many zeros before it as were missing. -/
theorem toBytes_of_ofBytes? {b : Bytes} {v : Amount} (h : ofBytes? b = some v) :
    v.toBytes = List.replicate (16 - b.length) 0 ++ b := by
  rw [toBytes, toNat_of_ofBytes? h, Bytes.ofNat_toNat_of_le (length_le_of_ofBytes? h)]

theorem ofBytes?_eq_ofBytes?_iff {b c : Bytes} (hb : b.length ≤ 16) (hc : c.length ≤ 16) :
    ofBytes? b = ofBytes? c ↔ b.SameDigits c := by
  obtain ⟨v, hv, hb⟩ := ofBytes?_of_le hb
  obtain ⟨w, hw, hc⟩ := ofBytes?_of_le hc
  rw [hv, hw, Option.some.injEq, ← BitVec.toNat_inj, hb, hc, Bytes.toNat_eq_toNat_iff]

end Amount

/-! ### Balances in a tree -/

namespace NodeTree

/-- The account of `a` was put into the tree with this balance, which has not been written to since. -/
def Endowed (a : Address) (balance : Amount) (t : NodeTree) : Prop :=
  ∃ (before : NodeTree) (nonce : UInt64) (code : Bytes) (later : List Access),
    (∀ x ∈ later, ∀ w ∈ x.writes, w.1 ≠ .accountField a "balance") ∧
      t = before.run (.insertAccount a balance nonce code :: later)

theorem Endowed.balance {a : Address} {balance : Amount} {t : NodeTree} (h : t.Endowed a balance) :
    t.nodes.get? (.accountField a "balance") = some balance.toBytes := by
  obtain ⟨before, nonce, code, later, hlater, rfl⟩ := h
  have hfields : (before.access (.insertAccount a balance nonce code)).2.nodes =
      before.nodes.insertAccount a balance nonce code := rfl
  have hcode : Path.accountField a "balance" ≠ .codeOf (.account a) := by
    simp [Path.accountField, Path.codeOf, Path.child]
  have hnonce : Path.accountField a "balance" ≠ .nonceOf (.account a) := by
    simp [Path.accountField, Path.nonceOf, Path.child]
  rw [run_cons]
  refine (get?_run_of_not_written hlater).trans ?_
  rw [hfields, NodeMap.insertAccount, NodeMap.get?_insert, if_neg hcode, NodeMap.get?_insert, if_neg hnonce,
    NodeMap.get?_insert]
  exact if_pos rfl

end NodeTree

namespace Host

variable {κ : Type} {m : Message} {f : Frame NodeTree κ} {a : Address} {balance : Amount} {address : UInt64}

/-- What is found is the balance that the account was given. -/
theorem lookupBalance_of_endowed (hsibling : m.callee.sibling a = .account a) (htree : f.tree.Endowed a balance) :
    ∃ g, lookupBalance m.callee a f = .ok (.found balance) g ∧ g.memory = f.memory := by
  have hread : (f.tree.read (.accountField a "balance")).1 = .ok balance.toBytes := NodeTree.read_of_some htree.balance
  have hfound : Reading.balance (.ok balance.toBytes) = .found balance := by
    rw [Reading.balance, Reading.ofAnswer, Amount.ofBytes?_toBytes]
  rw [← hfound, ← hread, lookupBalance, hsibling]
  exact ⟨_, rfl, rfl⟩

variable [Kernel κ]

/-- Whoever can pay for `getBalance` finds the balance of the account; it then goes to the memory, if there is memory
for it. -/
theorem invoke_getBalance (hsibling : m.callee.sibling a = .account a) (htree : f.tree.Endowed a balance)
    (ha : f.memory.readVector? 20 address.toUInt32 = some a) (hrun : f.progress.status = .running)
    (hgas : Operation.getBalance.cost.toNat ≤ f.meter.remaining.toNat) (result : UInt64) :
    (f.memory.size < result.toUInt32.toNat + 16 →
      ∃ g, invoke m .getBalance [address, result] f = .error (.trap .memoryFault) g) ∧
    (result.toUInt32.toNat + 16 ≤ f.memory.size →
      ∃ g, invoke m .getBalance [address, result] f = .ok none g ∧
        f.memory.Overlaid result.toUInt32.toNat balance.toBytes g.memory) := by
  let paid := f.spend Operation.getBalance.cost.toNat
  have hr : Request.ofArgs? .getBalance [address, result] =
    some (.getBalance address.toUInt32 result.toUInt32) := rfl
  have haddress : readAddress address.toUInt32 paid = .ok a paid := view_of_some ha
  obtain ⟨g, hlookup, hmemory⟩ := lookupBalance_of_endowed (f := paid) hsibling htree
  have hlength : balance.toBytes.length = 16 := Bytes.length_ofNat ..
  have hinvoke : invoke m .getBalance [address, result] f =
      trapping (silently (writeBytes result.toUInt32 balance.toBytes)) g := by
    rw [invoke_of_le hrun hr hgas]
    refine trapping_congr (silently_congr ?_)
    exact (bind_ok haddress _).trans (bind_ok hlookup _)
  have hwrite := trapping_writeBytes result.toUInt32 balance.toBytes g
  rw [hlength, hmemory, ← hinvoke] at hwrite
  refine ⟨fun hout => ⟨_, hwrite.1 hout⟩, fun hfits => ?_⟩
  obtain ⟨M, hok, hoverlaid⟩ := hwrite.2 hfits
  exact ⟨_, hok, hoverlaid⟩

/-- Whenever `getBalance` is carried out it was paid for and had room for its result. -/
theorem overlaid_of_getBalance (hsibling : m.callee.sibling a = .account a) (htree : f.tree.Endowed a balance)
    (ha : f.memory.readVector? 20 address.toUInt32 = some a) {result : UInt64} {answer : Option UInt64}
    {g : Frame NodeTree κ} (hok : invoke m .getBalance [address, result] f = .ok answer g) :
    f.memory.Overlaid result.toUInt32.toNat balance.toBytes g.memory := by
  have hrun := running_of_invoke_ok hok
  rcases Nat.lt_or_ge f.meter.remaining.toNat Operation.getBalance.cost.toNat with hpoor | hgas
  · rw [invoke_of_lt hrun rfl hpoor] at hok
    cases hok
  · have hinvoke := invoke_getBalance hsibling htree ha hrun hgas result
    rcases Nat.lt_or_ge f.memory.size (result.toUInt32.toNat + 16) with hsmall | hfits
    · obtain ⟨g', hfault⟩ := hinvoke.1 hsmall
      rw [hfault] at hok
      cases hok
    · obtain ⟨g', hok', hoverlaid⟩ := hinvoke.2 hfits
      rw [hok'] at hok
      cases hok
      exact hoverlaid

/-- An amount is read back from its bytes, and the balance that an account was given is what `getBalance` writes. -/
theorem amounts_in_bytes :
    (∀ v : Amount, Amount.ofBytes? v.toBytes = some v) ∧
    (∀ b : Bytes, Amount.ofBytes? b = none ↔ 16 < b.length) ∧
    (∀ b : Bytes, b.length ≤ 16 → ∃ v, Amount.ofBytes? b = some v ∧
      v.toNat = Nat.ofDigits 256 (b.reverse.map UInt8.toNat) ∧ v.toBytes = List.replicate (16 - b.length) 0 ++ b) ∧
    (∀ b c : Bytes, b.length ≤ 16 → c.length ≤ 16 →
      (Amount.ofBytes? b = Amount.ofBytes? c ↔ b.SameDigits c)) ∧
    ∀ (m : Message) (f : Frame NodeTree κ) (a : Address) (balance : Amount) (address result : UInt64),
      m.callee.sibling a = .account a → f.tree.Endowed a balance →
      f.memory.readVector? 20 address.toUInt32 = some a →
      (∀ answer g, invoke m .getBalance [address, result] f = .ok answer g →
        f.memory.Overlaid result.toUInt32.toNat balance.toBytes g.memory) ∧
      (f.progress.status = .running → Operation.getBalance.cost.toNat ≤ f.meter.remaining.toNat →
        result.toUInt32.toNat + 16 ≤ f.memory.size →
        ∃ g, invoke m .getBalance [address, result] f = .ok none g) := by
  refine ⟨Amount.ofBytes?_toBytes, fun b => Amount.ofBytes?_eq_none_iff, fun b hb => ?_,
    fun b c => Amount.ofBytes?_eq_ofBytes?_iff, fun m f a balance address result hsibling htree ha => ⟨?_, ?_⟩⟩
  · obtain ⟨v, hv, hnat⟩ := Amount.ofBytes?_of_le hb
    exact ⟨v, hv, hnat.trans b.toNat_eq_ofDigits, Amount.toBytes_of_ofBytes? hv⟩
  · exact fun answer g => overlaid_of_getBalance hsibling htree ha
  · intro hrun hgas hfits
    obtain ⟨g, hok, -⟩ := (invoke_getBalance hsibling htree ha hrun hgas result).2 hfits
    exact ⟨g, hok⟩

private def depositor : Address := .replicate 20 1

private def payee : Message :=
  { callee := .accountField .zero "code", sender := .root, origin := .root, gas := 20 }

/-- The balance is there, and then another account, and the nonce of the first is gone. -/
private def deposits : NodeTree :=
  .run {} [.insertAccount depositor 500 0 [], .insertAccount .zero 7 0 [1], .delete (.accountField depositor "nonce")]

private theorem deposits_endowed : deposits.Endowed depositor 500 :=
  ⟨{}, 0, [], [.insertAccount .zero 7 0 [1], .delete (.accountField depositor "nonce")], by decide +kernel, rfl⟩

private def payeeStart : Frame NodeTree Script :=
  .start payee deposits {} (.ofBytes (List.replicate 36 1))

/-- The balance of another account as code sees it; the same number with and without zeros; and a zero too many. -/
theorem amounts_in_bytes_balance :
    (∃ g, invoke payee .getBalance [0, 20] payeeStart = .ok none g ∧
      g.memory.get 19 = 1 ∧ g.memory.get 33 = 0 ∧ g.memory.get 34 = 1 ∧ g.memory.get 35 = 244) ∧
    Amount.ofBytes? [1, 244] = Amount.ofBytes? [0, 0, 1, 244] ∧
    Amount.ofBytes? (List.replicate 17 0) = none := by
  obtain ⟨-, hnone, -, hsame, hbalance⟩ := amounts_in_bytes (κ := Script)
  have hsibling : payee.callee.sibling depositor = .account depositor := Path.sibling_code .zero depositor
  have haddress : payeeStart.memory.readVector? 20 (0 : UInt64).toUInt32 = some depositor := by decide +kernel
  obtain ⟨hwritten, hdone⟩ :=
    hbalance payee payeeStart depositor 500 0 20 hsibling deposits_endowed haddress
  obtain ⟨g, hok⟩ := hdone rfl (by decide) (by decide +kernel)
  have hoverlaid := hwritten none g hok
  refine ⟨⟨g, hok, ?_, ?_, ?_, ?_⟩, ?_, (hnone _).2 (by decide)⟩
  · exact (hoverlaid.outside 19 (.inl (by decide))).trans (by decide +kernel)
  · exact hoverlaid.bytes 13 (by decide)
  · exact hoverlaid.bytes 14 (by decide)
  · exact hoverlaid.bytes 15 (by decide)
  · exact (hsame [1, 244] [0, 0, 1, 244] (by decide) (by decide)).2 ⟨0, 2, [1, 244], rfl, rfl⟩

end Host

end ContractHost
