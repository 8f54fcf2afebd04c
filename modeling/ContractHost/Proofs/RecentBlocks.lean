import ContractHost.Proofs.Extent
import ContractHost.Proofs.Locations

/-!
# The hashes of recent blocks

Code that runs in some block can see the hashes of the 256 blocks before it (`RecentBlock`), and only these are ever
looked up.  What counts is the difference of two numbers over the integers: that of the current block is a word without
a sign, that of the block asked for a word with one, and their difference need not fit either.

The state tree is asked once for the hash of a recent block, each at a path of its own, and zeros stand in if it does
not answer; any other block is zeros, and nothing is asked (`SeesBlock`).  What was read is what `getBlockHash` writes,
32 bytes from its result offset on and nothing else, unless there is no memory for it (`block_hash_window`).
-/

namespace ContractHost

/-- Whether there is a block `number` among the 256 blocks before block `current`. -/
def RecentBlock (current : UInt64) (number : Int64) : Prop :=
  0 ≤ number.toInt ∧ 1 ≤ (current.toNat : Int) - number.toInt ∧ (current.toNat : Int) - number.toInt ≤ 256

instance (current : UInt64) (number : Int64) : Decidable (RecentBlock current number) :=
  inferInstanceAs (Decidable (_ ∧ _ ∧ _))

/-- Where block `number` has its node. -/
def Path.ofBlock (number : Int64) : Path := .ofKeys ["blockchain", toString number.toInt]

/-- The number of a block can be read off its path. -/
theorem Path.block_injective {n k : UInt64} (h : block n = block k) : n = k := by
  have hnames := ofKeys_injective h
  simp only [List.cons.injEq, and_true, true_and] at hnames
  have hdigits : Nat.toDigits 10 n.toNat = Nat.toDigits 10 k.toNat := by
    have hchars := congrArg String.toList hnames
    rwa [Nat.toString_eq_repr, Nat.toString_eq_repr, Nat.toList_repr, Nat.toList_repr] at hchars
  have hread := congrArg (fun digits => Nat.ofDigitChars 10 digits 0) hdigits
  simp only [Nat.ofDigitChars_ten_toDigits] at hread
  exact UInt64.toNat_inj.1 hread

theorem Path.ofBlock_injective {n k : Int64} (hn : 0 ≤ n.toInt) (hk : 0 ≤ k.toInt) (h : ofBlock n = ofBlock k) :
    n = k := by
  rw [ofBlock, ofBlock, ← block_toUInt64 hn, ← block_toUInt64 hk] at h
  have hwords := block_injective h
  cases n
  cases k
  exact congrArg Int64.ofUInt64 hwords

variable {τ κ : Type}

/-- The frame once the tree has been asked for the hash of the node at `p`. -/
def Frame.askHash [Tree τ] (f : Frame τ κ) (p : Path) : Frame τ κ :=
  { f with tree := (Tree.hash f.tree p).2, effects := f.effects.push (.hash p) }

namespace Host

/-- What is read of block `number` on the frame `f`, and the frame `g` that is left. -/
structure SeesBlock [Tree τ] (current : UInt64) (number : Int64) (f : Frame τ κ) (reading : Reading Word)
    (g : Frame τ κ) : Prop where
  asked : RecentBlock current number → g = f.askHash (.ofBlock number)
  found : RecentBlock current number → ∀ hash, (Tree.hash f.tree (.ofBlock number)).1 = .ok hash →
    reading = .found hash
  failed : RecentBlock current number → ∀ e, (Tree.hash f.tree (.ofBlock number)).1 = .error e →
    reading = .missing (.replicate 32 0)
  unasked : ¬ RecentBlock current number → g = f ∧ reading = .missing (.replicate 32 0)

/-- The window as the look-up tests it. -/
theorem inHashWindow_iff {current : UInt64} {number : Int64} :
    InHashWindow current number ↔ RecentBlock current number := by
  have hwindow : Gas.blockHashWindow.toNat = 256 := rfl
  unfold InHashWindow RecentBlock
  rw [hwindow]
  omega

section

variable [Tree τ] {current : UInt64} {number : Int64} {f g : Frame τ κ} {reading : Reading Word}

/-- Looking up a hash never fails, and comes to what can be seen of the block. -/
theorem lookupBlockHash_sees (current : UInt64) (number : Int64) (f : Frame τ κ) :
    ∃ reading g, lookupBlockHash current number f = .ok reading g ∧ SeesBlock current number f reading g := by
  by_cases hrecent : RecentBlock current number
  · have hlookup : lookupBlockHash current number f =
        .ok (.hash (Tree.hash f.tree (.ofBlock number)).1) (f.askHash (.ofBlock number)) := by
      rw [lookupBlockHash, if_pos (inHashWindow_iff.2 hrecent), Path.block_toUInt64 hrecent.1]
      rfl
    refine ⟨_, _, hlookup, fun _ => rfl, fun _ hash hhash => ?_, fun _ e he => ?_, fun h => absurd hrecent h⟩
    · rw [hhash]
      rfl
    · rw [he]
      rfl
  · have hlookup : lookupBlockHash current number f = .ok (.missing Word.zero) f := by
      rw [lookupBlockHash, if_neg fun h => hrecent (inHashWindow_iff.1 h)]
      rfl
    exact ⟨_, _, hlookup, fun h => absurd h hrecent, fun h => absurd h hrecent, fun h => absurd h hrecent,
      fun _ => ⟨rfl, rfl⟩⟩

theorem SeesBlock.memory_eq (h : SeesBlock current number f reading g) : g.memory = f.memory := by
  by_cases hrecent : RecentBlock current number
  · rw [h.asked hrecent]
    rfl
  · rw [(h.unasked hrecent).1]

end

variable [Tree τ] [Kernel κ] {m : Message} {f : Frame τ κ}

/-- Whoever can pay for `getBlockHash` sees the block from the current one; the hash then goes to the memory, if there
is memory for it. -/
theorem invoke_getBlockHash (m : Message) (number result : UInt64) (hrun : f.progress.status = .running)
    (hgas : Operation.getBlockHash.cost.toNat ≤ f.meter.remaining.toNat) :
    ∃ reading g, SeesBlock m.block.number number.toInt64 (f.spend Operation.getBlockHash.cost.toNat) reading g ∧
      (f.memory.size < result.toUInt32.toNat + 32 →
        invoke m .getBlockHash [number, result] f = .error (.trap .memoryFault) (g.trapped .memoryFault)) ∧
      (result.toUInt32.toNat + 32 ≤ f.memory.size →
        ∃ memory, invoke m .getBlockHash [number, result] f = .ok none { g with memory } ∧
          f.memory.Overlaid result.toUInt32.toNat reading.value.toList memory) := by
  obtain ⟨reading, g, hlookup, hsees⟩ :=
    lookupBlockHash_sees m.block.number number.toInt64 (f.spend Operation.getBlockHash.cost.toNat)
  have hr : Request.ofArgs? .getBlockHash [number, result] =
    some (.getBlockHash number.toInt64 result.toUInt32) := rfl
  have hmemory : g.memory = f.memory := hsees.memory_eq
  have hlength : reading.value.toList.length = 32 := Vector.length_toList
  -- All that is left to be done is to write down what was read.
  have hinvoke : invoke m .getBlockHash [number, result] f =
      trapping (silently (writeBytes result.toUInt32 reading.value.toList)) g := by
    rw [invoke_of_le hrun hr hgas]
    exact trapping_congr (silently_congr (bind_ok hlookup _))
  have hwrite := trapping_writeBytes result.toUInt32 reading.value.toList g
  rw [hlength, hmemory, ← hinvoke] at hwrite
  exact ⟨reading, g, hsees, hwrite⟩

/-- The state tree is asked for the hashes of recent blocks and of no others, and `getBlockHash` writes what comes of
it. -/
theorem block_hash_window :
    (∀ (current : UInt64) (number : Int64) (f : Frame τ κ),
      ∃ reading g, lookupBlockHash current number f = .ok reading g ∧ SeesBlock current number f reading g) ∧
    (∀ (current current' : UInt64) (n k : Int64), RecentBlock current n → RecentBlock current' k → n ≠ k →
      Path.ofBlock n ≠ Path.ofBlock k) ∧
    ∀ (m : Message) (f : Frame τ κ) (number result : UInt64), f.progress.status = .running →
      Operation.getBlockHash.cost.toNat ≤ f.meter.remaining.toNat →
      ∃ reading g, SeesBlock m.block.number number.toInt64 (f.spend Operation.getBlockHash.cost.toNat) reading g ∧
        (f.memory.size < result.toUInt32.toNat + 32 →
          invoke m .getBlockHash [number, result] f = .error (.trap .memoryFault) (g.trapped .memoryFault)) ∧
        (result.toUInt32.toNat + 32 ≤ f.memory.size →
          ∃ memory, invoke m .getBlockHash [number, result] f = .ok none { g with memory } ∧
            f.memory.Overlaid result.toUInt32.toNat reading.value.toList memory) := by
  refine ⟨lookupBlockHash_sees, fun current current' n k hn hk hne hpath => ?_, fun m f number result => ?_⟩
  · exact hne (Path.ofBlock_injective hn.1 hk.1 hpath)
  · exact invoke_getBlockHash m number result

private def watcher : Message :=
  { callee := .root, sender := .root, origin := .root, gas := 800, block := { number := 300 } }

private def watcherStart : Frame NodeTree Script :=
  .start watcher { nodes := .ofList [(.block 44, [1]), (.block 43, [2])] } {} (.zeros 40)

/-- The oldest block that can be seen, and the one before it. -/
theorem block_hash_window_oldest :
    (∃ g, invoke watcher .getBlockHash [44, 8] watcherStart = .ok none g ∧
      g.effects.toList = [.hash (.block 44)] ∧
      ∀ i (h : i < 32), g.memory.get (8 + i) = (Blake3.digest [1])[i]) ∧
    (∃ g, invoke watcher .getBlockHash [43, 8] watcherStart = .ok none g ∧ g.effects.toList = [] ∧
      ∀ i < 32, g.memory.get (8 + i) = 0) ∧
    Path.ofBlock 44 ≠ Path.ofBlock 45 := by
  obtain ⟨-, hpaths, hinvoke⟩ := block_hash_window (τ := NodeTree) (κ := Script)
  refine ⟨?_, ?_, hpaths 300 300 44 45 (by decide) (by decide) (by decide)⟩
  · obtain ⟨reading, g, hsees, -, hwrite⟩ := hinvoke watcher watcherStart 44 8 rfl (by decide)
    obtain ⟨memory, hok, hoverlaid⟩ := hwrite (by decide)
    have hrecent : RecentBlock watcher.block.number (44 : UInt64).toInt64 := by decide
    obtain rfl := hsees.found hrecent _ rfl
    refine ⟨_, hok, ?_, fun i hi => ?_⟩
    · rw [hsees.asked hrecent]
      rfl
    · exact hoverlaid.bytes i (by rw [Vector.length_toList]; exact hi)
  · obtain ⟨reading, g, hsees, -, hwrite⟩ := hinvoke watcher watcherStart 43 8 rfl (by decide)
    obtain ⟨memory, hok, hoverlaid⟩ := hwrite (by decide)
    obtain ⟨rfl, rfl⟩ := hsees.unasked (by decide)
    refine ⟨_, hok, rfl, fun i hi => ?_⟩
    exact (hoverlaid.bytes i hi).trans (List.getElem_replicate ..)

end Host

end ContractHost
