import ContractHost.Gas.Schedule

/-!
# Prices as numbers

The prices that depend on lengths, read as natural numbers.  A copy never reaches the largest amount of gas
(`toNat_copyCost`, `toNat_externalCopyCost`); a log entry does only for lengths that no 32-bit word can hold
(`toNat_logCost`), and then its price is the largest amount though each step is cut by itself.  The words of a length
are the least number of words that hold it, and all prices grow with every length and number they depend on
(`prices_of_lengths`).
-/

namespace ContractHost.Gas

theorem toNat_words (length : UInt64) : (words length).toNat = (length.toNat + 31) / 32 := by
  have hlt := length.toNat_lt
  have hdiv : (length / 32).toNat = length.toNat / 32 := UInt64.toNat_div ..
  have hmod : (length % 32).toNat = length.toNat % 32 := UInt64.toNat_mod ..
  have hzero : length % 32 = 0 ↔ length.toNat % 32 = 0 := by
    rw [← UInt64.toNat_inj, hmod]
    rfl
  unfold words
  rw [UInt64.toNat_add, hdiv]
  split
  · rename_i h
    have := hzero.1 h
    rw [show (0 : UInt64).toNat = 0 from rfl]
    omega
  · rename_i h
    have := mt hzero.2 h
    rw [show (1 : UInt64).toNat = 1 from rfl]
    omega

private theorem toNat_mul_words (length : UInt64) :
    (mul copyPerWord (words length)).toNat = 3 * ((length.toNat + 31) / 32) := by
  have hlt := length.toNat_lt
  rw [toNat_mul, toNat_words, show copyPerWord.toNat = 3 from rfl, show cap = 2 ^ 64 - 1 from rfl]
  omega

/-- The price of copying is 3 and 3 more for each word begun. -/
theorem toNat_copyCost (length : UInt64) : (copyCost length).toNat = 3 + 3 * ((length.toNat + 31) / 32) := by
  have hlt := length.toNat_lt
  rw [copyCost, toNat_add, toNat_mul_words, show copy.toNat = 3 from rfl, show cap = 2 ^ 64 - 1 from rfl]
  omega

theorem toNat_externalCopyCost (length : UInt64) :
    (externalCopyCost length).toNat = 20 + 3 * ((length.toNat + 31) / 32) := by
  have hlt := length.toNat_lt
  rw [externalCopyCost, toNat_add, toNat_mul_words, show externalCopy.toNat = 20 from rfl,
    show cap = 2 ^ 64 - 1 from rfl]
  omega

/-- Though each sum and each product stops at the largest amount, only the whole does. -/
theorem toNat_logCost (length : UInt64) (topics : UInt32) :
    (logCost length topics).toNat = min (375 + 8 * length.toNat + 375 * topics.toNat) cap := by
  rw [logCost, toNat_add, toNat_add, toNat_mul, toNat_mul, UInt32.toNat_toUInt64,
    show log.toNat = 375 from rfl, show logByte.toNat = 8 from rfl, show logTopic.toNat = 375 from rfl]
  omega

/-- As many words as it takes, and no more. -/
theorem toNat_words_le_iff {length : UInt64} {w : Nat} : (words length).toNat ≤ w ↔ length.toNat ≤ 32 * w := by
  rw [toNat_words]
  omega

theorem words_mono {length length' : UInt64} (h : length ≤ length') : words length ≤ words length' := by
  rw [UInt64.le_iff_toNat_le] at h ⊢
  rw [toNat_words_le_iff]
  exact Nat.le_trans h (toNat_words_le_iff.1 (Nat.le_refl _))

theorem copyCost_mono {length length' : UInt64} (h : length ≤ length') : copyCost length ≤ copyCost length' := by
  have hwords := UInt64.le_iff_toNat_le.1 (words_mono h)
  rw [toNat_words, toNat_words] at hwords
  rw [UInt64.le_iff_toNat_le, toNat_copyCost, toNat_copyCost]
  omega

theorem externalCopyCost_mono {length length' : UInt64} (h : length ≤ length') :
    externalCopyCost length ≤ externalCopyCost length' := by
  have hwords := UInt64.le_iff_toNat_le.1 (words_mono h)
  rw [toNat_words, toNat_words] at hwords
  rw [UInt64.le_iff_toNat_le, toNat_externalCopyCost, toNat_externalCopyCost]
  omega

theorem logCost_mono {length length' : UInt64} {topics topics' : UInt32} (h : length ≤ length')
    (htopics : topics ≤ topics') : logCost length topics ≤ logCost length' topics' := by
  rw [UInt64.le_iff_toNat_le] at h ⊢
  rw [UInt32.le_iff_toNat_le] at htopics
  rw [toNat_logCost, toNat_logCost]
  omega

/-- The prices of copies are exact for every length, that of a log entry is the exact price or the largest amount, and
all grow. -/
theorem prices_of_lengths :
    (∀ length : UInt64, length.toNat ≤ 32 * (words length).toNat ∧
      ∀ w : Nat, length.toNat ≤ 32 * w → (words length).toNat ≤ w) ∧
    (∀ length : UInt64, (copyCost length).toNat = 3 + 3 * (words length).toNat ∧
      (externalCopyCost length).toNat = 20 + 3 * (words length).toNat) ∧
    (∀ (length : UInt64) (topics : UInt32),
      (logCost length topics).toNat = min (UInt64.size - 1) (375 + 8 * length.toNat + 375 * topics.toNat)) ∧
    (∀ length length' : UInt64, length ≤ length' → words length ≤ words length' ∧
      copyCost length ≤ copyCost length' ∧ externalCopyCost length ≤ externalCopyCost length' ∧
      ∀ topics topics' : UInt32, topics ≤ topics' → logCost length topics ≤ logCost length' topics') ∧
    ∀ (length : UInt64) (topics : UInt32), length.toNat < UInt32.size → topics.toNat ≤ 4 →
      (copyCost length).toNat < UInt64.size - 1 ∧ (externalCopyCost length).toNat < UInt64.size - 1 ∧
      (logCost length topics).toNat < UInt64.size - 1 ∧
      (logCost length topics).toNat = 375 + 8 * length.toNat + 375 * topics.toNat := by
  have hcap : cap = UInt64.size - 1 := rfl
  have hsize : UInt64.size = 18446744073709551616 := rfl
  have hsize32 : UInt32.size = 4294967296 := rfl
  refine ⟨fun length => ⟨toNat_words_le_iff.1 (Nat.le_refl _), fun w => toNat_words_le_iff.2⟩, fun length => ?_,
    fun length topics => ?_, fun length length' h => ?_, fun length topics hlength htopics => ?_⟩
  · rw [toNat_words]
    exact ⟨toNat_copyCost length, toNat_externalCopyCost length⟩
  · rw [toNat_logCost, hcap, Nat.min_comm]
  · exact ⟨words_mono h, copyCost_mono h, externalCopyCost_mono h, fun topics topics' => logCost_mono h⟩
  · rw [toNat_copyCost, toNat_externalCopyCost, toNat_logCost, hcap]
    omega

/-- Of the prices of the largest length only that of a log entry is cut; that of the largest length of 32 bits is
exact. -/
theorem prices_of_lengths_top :
    let most : UInt64 := 18446744073709551615
    let most32 : UInt64 := 4294967295
    (words most).toNat ≤ 576460752303423488 ∧ (copyCost most).toNat = 3 + 3 * (words most).toNat ∧
      logCost most32 4 ≤ logCost most 4 ∧ (logCost most 4).toNat = UInt64.size - 1 ∧
      (logCost most32 4).toNat = 375 + 8 * 4294967295 + 375 * 4 := by
  intro most most32
  obtain ⟨hwords, hcopies, hlog, hmono, hsmall⟩ := prices_of_lengths
  exact ⟨(hwords most).2 576460752303423488 (by decide), (hcopies most).1,
    (hmono most32 most (by decide)).2.2.2 4 4 (UInt32.le_refl 4), (hlog most 4).trans (by decide),
    (hsmall most32 4 (by decide) (by decide)).2.2.2⟩

end ContractHost.Gas
