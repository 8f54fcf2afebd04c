import ContractHost.Path.Order
import ContractHost.Tree.NodeTree

/-!
# What a tree in memory holds

All that is ever written to a tree in memory makes one row of writes, each of a value or of nothing to one path
(`NodeTree.Access.writes`).  At every path the tree holds what the last write to this very path has left there, and
what it held to begin with where there was none (`NodeTree.held`): a path is never resolved, so that no other path has
a part in it.

This is what `peek` and `get` give, and `hash` gives its digest.  A path to which nothing was written, or where the
value was taken away, is not found, and taking it away once more leaves the whole tree as it is.  The tree has as many
values as there are paths with one, which make one ascending row, and it has counted every `get` and `hash`, whether
or not there was anything to be found (`tree_holds`).
-/

namespace ContractHost

/-- Paths with what is written to them: a value, or nothing where the value is taken away. -/
abbrev Writes := List (Path × Option Bytes)

namespace NodeMap

/-- The map after one write. -/
def write (m : NodeMap) (w : Path × Option Bytes) : NodeMap :=
  match w.2 with
  | some value => m.insert w.1 value
  | none => m.erase w.1

/-- The paths that have a value, in ascending order. -/
def paths (m : NodeMap) : List Path := Path.sort (m.entries.map Prod.fst)

theorem get?_write (m : NodeMap) (w : Path × Option Bytes) (q : Path) :
    (m.write w).get? q = if q = w.1 then w.2 else m.get? q := by
  obtain ⟨p, value?⟩ := w
  cases value? with
  | none => exact get?_erase m p q
  | some value => exact get?_insert m p q value

/-- The last write to a path counts. -/
theorem get?_foldl_write (m : NodeMap) (ws : Writes) (q : Path) :
    (ws.foldl write m).get? q = (ws.reverse.lookup q).getD (m.get? q) := by
  induction ws generalizing m with
  | nil => rfl
  | cons w ws ih =>
    rw [List.foldl_cons, ih, get?_write, List.reverse_cons, List.lookup_append]
    cases hlater : ws.reverse.lookup q with
    | some value? => rfl
    | none =>
      by_cases hq : q = w.1
      · rw [if_pos hq, hq, List.lookup_cons, beq_self_eq_true]
        rfl
      · rw [if_neg hq, List.lookup_cons, beq_false_of_ne hq]
        rfl

theorem erase_of_none {m : NodeMap} {p : Path} (h : m.get? p = none) : m.erase p = m := by
  have habsent : ∀ e ∈ m.entries, e.1 ≠ p := by
    intro e he heq
    have hne := List.lookup_eq_none_iff.1 h e he
    simp [heq] at hne
  have hentries : m.entries.filter (fun e => e.1 ≠ p) = m.entries :=
    List.filter_eq_self.2 fun e he => by simpa using habsent e he
  cases m
  simp only [erase, mk.injEq]
  exact hentries

theorem mem_paths {m : NodeMap} {p : Path} : p ∈ m.paths ↔ (m.get? p).isSome = true := by
  rw [paths, (Path.sort_perm _).mem_iff, Option.isSome_iff_ne_none, get?, ne_eq, List.lookup_eq_none_iff]
  simp

theorem length_paths (m : NodeMap) : m.paths.length = m.size := by
  rw [paths, (Path.sort_perm _).length_eq, List.length_map, size]

theorem pairwise_paths (m : NodeMap) : m.paths.Pairwise fun p q => p.cmp q = .lt := Path.pairwise_sort m.nodup

end NodeMap

namespace NodeTree

/-- What may be done with a tree in memory, by its owner or by those who hold it as a state tree. -/
inductive Access
  | insert (p : Path) (value : Bytes)
  | insertAccount (a : Address) (balance : Amount) (nonce : UInt64) (code : Bytes)
  | set (p : Path) (value : Bytes)
  | delete (p : Path)
  | get (p : Path)
  | hash (p : Path)
  /-- Looks at a value without reading it. -/
  | peek (p : Path)

inductive Reply
  | done
  | written (answer : Except TreeError Unit)
  | value (answer : Except TreeError Bytes)
  | digest (answer : Except TreeError Word)
  | seen (value? : Option Bytes)

def access (t : NodeTree) : Access → Reply × NodeTree
  | .insert p value => (.done, { t with nodes := t.nodes.insert p value })
  | .insertAccount a balance nonce code =>
    (.done, { t with nodes := t.nodes.insertAccount a balance nonce code })
  | .set p value => (.written (Tree.set t p value).1, (Tree.set t p value).2)
  | .delete p => (.written (Tree.delete t p).1, (Tree.delete t p).2)
  | .get p => (.value (Tree.get t p).1, (Tree.get t p).2)
  | .hash p => (.digest (Tree.hash t p).1, (Tree.hash t p).2)
  | .peek p => (.seen (t.nodes.get? p), t)

/-- The tree after the accesses, one after the other. -/
def run (t : NodeTree) (accesses : List Access) : NodeTree := accesses.foldl (fun t x => (t.access x).2) t

namespace Access

/-- What the access writes, and where. -/
def writes : Access → Writes
  | insert p value | set p value => [(p, some value)]
  | insertAccount a balance nonce code =>
    [(.accountField a "balance", some balance.toBytes), (.accountField a "nonce", some (Bytes.ofNat 8 nonce.toNat)),
      (.accountField a "code", some code)]
  | delete p => [(p, none)]
  | get _ | hash _ | peek _ => []

/-- Whether the access counts as a read. -/
def isRead : Access → Bool
  | get _ | hash _ => true
  | insert _ _ | insertAccount _ _ _ _ | set _ _ | delete _ | peek _ => false

end Access

/-- What was last written to `p`, or else was there before. -/
def held (nodes : NodeMap) (accesses : List Access) (p : Path) : Option Bytes :=
  ((accesses.flatMap Access.writes).reverse.lookup p).getD (nodes.get? p)

variable {t : NodeTree}

/-! ### One access -/

theorem nodes_access (t : NodeTree) (x : Access) : (t.access x).2.nodes = x.writes.foldl NodeMap.write t.nodes := by
  cases x <;> rfl

theorem reads_access (t : NodeTree) (x : Access) :
    (t.access x).2.reads = t.reads + if x.isRead then 1 else 0 := by
  cases x <;> rfl

theorem reply_get (t : NodeTree) (p : Path) : (t.access (.get p)).1 = .value (t.read p).1 := rfl

theorem reply_hash (t : NodeTree) (p : Path) :
    (t.access (.hash p)).1 = .digest ((t.read p).1.map Blake3.digest) := rfl

theorem read_of_some {p : Path} {value : Bytes} (h : t.nodes.get? p = some value) : (t.read p).1 = .ok value := by
  rw [read, h]

theorem read_of_none {p : Path} (h : t.nodes.get? p = none) : (t.read p).1 = .error (.notFound p) := by
  rw [read, h]

/-- What is asked about a path is answered by what is there. -/
theorem reply_congr {t t' : NodeTree} {p : Path} (h : t'.nodes.get? p = t.nodes.get? p) {y : Access}
    (hy : y ∈ [.peek p, .get p, .hash p]) : (t'.access y).1 = (t.access y).1 := by
  have hread : (t'.read p).1 = (t.read p).1 := by
    rw [read, read, h]
  simp only [List.mem_cons, List.not_mem_nil, or_false] at hy
  rcases hy with rfl | rfl | rfl
  · exact congrArg Reply.seen h
  · rw [reply_get, reply_get, hread]
  · rw [reply_hash, reply_hash, hread]

/-! ### Any number of accesses -/

theorem run_cons (t : NodeTree) (x : Access) (accesses : List Access) :
    t.run (x :: accesses) = (t.access x).2.run accesses := rfl

theorem nodes_run (t : NodeTree) (accesses : List Access) :
    (t.run accesses).nodes = (accesses.flatMap Access.writes).foldl NodeMap.write t.nodes := by
  induction accesses generalizing t with
  | nil => rfl
  | cons x accesses ih => rw [run_cons, ih, nodes_access, List.flatMap_cons, List.foldl_append]

theorem get?_run (t : NodeTree) (accesses : List Access) (p : Path) :
    (t.run accesses).nodes.get? p = held t.nodes accesses p := by
  rw [nodes_run, NodeMap.get?_foldl_write, held]

theorem get?_run_of_not_written {accesses : List Access} {p : Path}
    (h : ∀ x ∈ accesses, ∀ w ∈ x.writes, w.1 ≠ p) : (t.run accesses).nodes.get? p = t.nodes.get? p := by
  have hnone : (accesses.flatMap Access.writes).reverse.lookup p = none := by
    refine List.lookup_eq_none_iff.2 fun w hw => ?_
    obtain ⟨x, hx, hw⟩ := List.mem_flatMap.1 (List.mem_reverse.1 hw)
    simpa [bne_iff_ne] using (h x hx w hw).symm
  rw [get?_run, held, hnone, Option.getD_none]

theorem get?_of_not_written {x : Access} {p : Path} (h : ∀ w ∈ x.writes, w.1 ≠ p) :
    (t.access x).2.nodes.get? p = t.nodes.get? p := by
  have honly : ∀ y ∈ [x], ∀ w ∈ y.writes, w.1 ≠ p := by simpa using h
  exact get?_run_of_not_written honly

theorem reads_run (t : NodeTree) (accesses : List Access) :
    (t.run accesses).reads = t.reads + accesses.countP Access.isRead := by
  induction accesses generalizing t with
  | nil => rfl
  | cons x accesses ih =>
    rw [run_cons, ih, reads_access, List.countP_cons]
    omega

/-- After any accesses a tree answers at every path by what was last written to this very path. -/
theorem tree_holds (t : NodeTree) (accesses : List Access) :
    (∀ p, ((t.run accesses).access (.peek p)).1 = .seen (held t.nodes accesses p)) ∧
    (∀ p value, held t.nodes accesses p = some value →
      ((t.run accesses).access (.get p)).1 = .value (.ok value) ∧
      ((t.run accesses).access (.hash p)).1 = .digest (.ok (Blake3.digest value))) ∧
    (∀ p, held t.nodes accesses p = none →
      ((t.run accesses).access (.get p)).1 = .value (.error (.notFound p)) ∧
      ((t.run accesses).access (.hash p)).1 = .digest (.error (.notFound p)) ∧
      (t.run accesses).access (.delete p) = (.written (.ok ()), t.run accesses)) ∧
    (∀ (x : Access) (p : Path), (∀ w ∈ x.writes, w.1 ≠ p) → ∀ y ∈ [Access.peek p, .get p, .hash p],
      (((t.run accesses).access x).2.access y).1 = ((t.run accesses).access y).1) ∧
    (∃ ps : List Path, ps.Pairwise (fun p q => p.cmp q = .lt) ∧
      (∀ p, p ∈ ps ↔ (held t.nodes accesses p).isSome = true) ∧ (t.run accesses).nodes.size = ps.length) ∧
    (t.run accesses).reads = t.reads + accesses.countP Access.isRead := by
  have hheld := get?_run t accesses
  refine ⟨fun p => congrArg Reply.seen (hheld p), fun p value hvalue => ?_, fun p hnone => ?_,
    fun x p hx y hy => reply_congr (get?_of_not_written hx) hy, ?_, reads_run t accesses⟩
  · have hread := read_of_some ((hheld p).trans hvalue)
    rw [reply_get, reply_hash, hread]
    exact ⟨rfl, rfl⟩
  · have hread := read_of_none ((hheld p).trans hnone)
    have herase := NodeMap.erase_of_none ((hheld p).trans hnone)
    rw [reply_get, reply_hash, hread]
    refine ⟨rfl, rfl, ?_⟩
    exact congrArg (fun nodes => (Reply.written (.ok ()), { t.run accesses with nodes })) herase
  · let nodes := (t.run accesses).nodes
    refine ⟨nodes.paths, nodes.pairwise_paths, fun p => ?_, nodes.length_paths.symm⟩
    rw [NodeMap.mem_paths, hheld p]

/-- Two paths that lead to the same node when they are resolved, and a value taken away that was not there. -/
theorem tree_holds_unresolved :
    let p : Path := ⟨[.key "a", .parent, .key "b"]⟩
    let q : Path := .ofKeys ["b"]
    let t := run {} [.set p [1], .insert q [2], .get .root, .delete .root, .hash q]
    p.resolve [] = q ∧ (t.access (.get p)).1 = .value (.ok [1]) ∧ (t.access (.get q)).1 = .value (.ok [2]) ∧
      (t.access (.hash .root)).1 = .digest (.error (.notFound .root)) ∧ t.reads = 2 ∧
      ((t.access (.set p [3])).2.access (.peek q)).1 = .seen (some [2]) := by
  intro p q t
  obtain ⟨hpeek, hsome, hnone, hother, -, hreads⟩ :=
    tree_holds {} [.set p [1], .insert q [2], .get .root, .delete .root, .hash q]
  have hq := (hother (.set p [3]) q (by simp [Access.writes, p, q, Path.ofKeys]) (.peek q) (by simp)).trans (hpeek q)
  exact ⟨rfl, (hsome p [1] (by decide)).1, (hsome q [2] (by decide)).1, (hnone .root (by decide)).2.1, hreads, hq⟩

end NodeTree

end ContractHost
