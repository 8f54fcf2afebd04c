/-!
# The gas schedule

Prices and refunds in units of gas, and the prices that grow with the length of the data.  Gas is counted in words
of 64 bits, and sums and products stop at the largest word.
-/

namespace ContractHost.Gas

/-- The largest amount of gas. -/
def cap : Nat := UInt64.size - 1

/-- The sum, or the largest amount if the sum exceeds it. -/
def add (a b : UInt64) : UInt64 := UInt64.ofNat (min (a.toNat + b.toNat) cap)

/-- The product, or the largest amount if the product exceeds it. -/
def mul (a b : UInt64) : UInt64 := UInt64.ofNat (min (a.toNat * b.toNat) cap)

private theorem toNat_ofNat_min (n : Nat) : (UInt64.ofNat (min n cap)).toNat = min n cap := by
  have hcap : cap < UInt64.size := by decide
  exact UInt64.toNat_ofNat_of_lt (by omega)

@[simp] theorem toNat_add (a b : UInt64) : (add a b).toNat = min (a.toNat + b.toNat) cap := toNat_ofNat_min _

@[simp] theorem toNat_mul (a b : UInt64) : (mul a b).toNat = min (a.toNat * b.toNat) cap := toNat_ofNat_min _

/-! ### Prices -/

def base : UInt64 := 2
def accountLookup : UInt64 := 20
def copyWord : UInt64 := 3
def create : UInt64 := 32000
def call : UInt64 := 40
def storageStore : UInt64 := 5000
def storageLoad : UInt64 := 50
def copy : UInt64 := 3
def externalCopy : UInt64 := 20
def copyPerWord : UInt64 := 3
def log : UInt64 := 375
def logByte : UInt64 := 8
def logTopic : UInt64 := 375
def callValue : UInt64 := 9000
def callStipend : UInt64 := 2300
def callCodeValue : UInt64 := 6700
def callException : UInt64 := 25000
def slotCreation : UInt64 := 15000

/-! ### Refunds -/

def slotClearing : UInt64 := 15000
def selfDestruct : UInt64 := 24000

/-! ### Limits -/

def maxLogTopics : UInt64 := 4
def blockHashWindow : UInt64 := 256

/-! ### Prices that depend on lengths -/

/-- The number of 32-byte words that hold `length` bytes. -/
def words (length : UInt64) : UInt64 := length / 32 + if length % 32 = 0 then 0 else 1

/-- The price of copying `length` bytes into memory. -/
def copyCost (length : UInt64) : UInt64 := add copy (mul copyPerWord (words length))

/-- The price of copying `length` bytes of another account's code. -/
def externalCopyCost (length : UInt64) : UInt64 := add externalCopy (mul copyPerWord (words length))

/-- The price of a log entry with `length` bytes of data. -/
def logCost (length : UInt64) (topics : UInt32) : UInt64 :=
  add (add log (mul logByte length)) (mul logTopic topics.toUInt64)

end ContractHost.Gas
